import TinyCompile.X86.Exec

set_option autoImplicit false

/-!
# X86: what an instruction leaves alone

The registers and the memory operand an instruction writes, read off its syntax, and the
frame rule: everything else keeps its value.
-/

namespace TinyCompile.X86

open TinyCompile.Machine

/-! ## What is written -/

/-- The register of an operand. -/
def Operand.destRegs : Operand → List Reg
  | .reg r => [r]
  | .mem _ _ => []

/-- The base and the displacement of an operand in memory. -/
def Operand.destMem : Operand → Option (Reg × Word)
  | .reg _ => none
  | .mem base disp => some (base, disp)

/-- The registers an instruction writes; those that transfer control write none here. -/
def Instr.destRegs : Instr → List Reg
  | .mov _ dst _ => dst.destRegs
  | .load dst _ | .movImm dst _ | .movzx8 dst _ | .movsx8 dst _ | .movsxd dst _ => [dst]
  | .lea dst _ _ | .imul dst _ => [dst]
  | .alu op dst _ => if op = .cmp then [] else dst.destRegs
  | .aluImm op dst _ => if op = .cmp then [] else dst.destRegs
  | .unary .idiv _ => [.rax, .rdx]
  | .unary _ dst => dst.destRegs
  | .shift _ dst => dst.destRegs
  | .cqo => [.rdx]
  | .setcc _ dst => dst.destRegs
  | .push _ => [.rsp]
  | .pop r => [.rsp, r]
  | .test _ _ | .jmp _ | .jcc _ _ | .call _ | .ret => []

/-- The memory an instruction writes, eight bytes at most. -/
def Instr.destMem : Instr → Option (Reg × Word)
  | .mov _ dst _ => dst.destMem
  | .alu op dst _ => if op = .cmp then none else dst.destMem
  | .aluImm op dst _ => if op = .cmp then none else dst.destMem
  | .unary .idiv _ => none
  | .unary _ dst => dst.destMem
  | .shift _ dst => dst.destMem
  | .setcc _ dst => dst.destMem
  | .push _ => some (.rsp, -8)
  | _ => none

/-- Instructions that always fall through to the next one. -/
def Instr.total : Instr → Bool
  | .unary .idiv _ | .setcc _ _ | .jmp _ | .jcc _ _ | .call _ | .ret => false
  | _ => true

/-! ## Writing operands -/

/-- At most eight bytes of a memory operand may differ. -/
structure Framed (regs : List Reg) (at' : Option (Reg × Word)) (s s' : State) : Prop where
  regs : ∀ r, r ∉ regs → s'.regs r = s.regs r
  mem : s'.mem = s.mem ∨ ∃ base disp n v, at' = some (base, disp) ∧ n ≤ 8 ∧
    s'.mem = writeLow s.mem (s.address base disp) n v

theorem framed_setReg {s : State} (r : Reg) (v : Word) : Framed [r] none s (s.setReg r v) where
  regs := fun _ hr => s.setReg_of_ne v (fun h => hr (by simp [h]))
  mem := .inl rfl

theorem framed_write (s : State) (o : Operand) (v : Word) :
    Framed o.destRegs o.destMem s (s.write o v) := by
  cases o with
  | reg r => exact framed_setReg r v
  | mem base disp => exact ⟨fun _ _ => rfl, .inr ⟨base, disp, 8, v, rfl, by omega, rfl⟩⟩

theorem framed_writeByte (s : State) (o : Operand) (v : Word) :
    Framed o.destRegs o.destMem s (s.writeByte o v) := by
  cases o with
  | reg r => exact framed_setReg r _
  | mem base disp => exact ⟨fun _ _ => rfl, .inr ⟨base, disp, 1, v, rfl, by omega, rfl⟩⟩

theorem framed_writeDword (s : State) (o : Operand) (v : Word) :
    Framed o.destRegs o.destMem s (s.writeDword o v) := by
  cases o with
  | reg r => exact framed_setReg r _
  | mem base disp => exact ⟨fun _ _ => rfl, .inr ⟨base, disp, 4, v, rfl, by omega, rfl⟩⟩

theorem Framed.withFlags {regs : List Reg} {at' : Option (Reg × Word)} {s s' : State}
    (h : Framed regs at' s s') (f : Option Flags) : Framed regs at' s { s' with flags := f } :=
  ⟨h.regs, h.mem⟩

theorem Framed.same (regs : List Reg) (at' : Option (Reg × Word)) (s : State)
    (f : Option Flags) : Framed regs at' s { s with flags := f } :=
  ⟨fun _ _ => rfl, .inl rfl⟩

/-! ## The frame rule -/

/-- `idiv` writes `rax` and `rdx`. -/
theorem framed_idiv {s s' : State} {d : Word} (h : execIdiv s d = some s') :
    Framed [.rax, .rdx] none s s' := by
  unfold execIdiv at h
  dsimp only at h
  split at h
  · cases h
  · split at h
    · cases h
    · obtain rfl := Option.some.inj h
      refine ⟨fun r hr => ?_, .inl rfl⟩
      simp only [List.mem_cons, List.not_mem_nil, or_false, not_or] at hr
      show ((s.setReg .rax _).setReg .rdx _).regs r = _
      rw [State.setReg_of_ne _ _ hr.2, State.setReg_of_ne _ _ hr.1]

/-- An instruction changes nothing but what it writes. -/
theorem exec_framed {i : Instr} {s s' : State} (h : exec i s = some s') :
    Framed i.destRegs i.destMem s s' := by
  cases i with
  | mov size dst src =>
    cases size <;> obtain rfl := Option.some.inj h
    · exact framed_writeByte s dst _
    · exact framed_writeDword s dst _
    · exact framed_write s dst _
  | load dst src => obtain rfl := Option.some.inj h; exact framed_setReg dst _
  | movImm dst imm => obtain rfl := Option.some.inj h; exact framed_setReg dst _
  | movzx8 dst src => obtain rfl := Option.some.inj h; exact framed_setReg dst _
  | movsx8 dst src => obtain rfl := Option.some.inj h; exact framed_setReg dst _
  | movsxd dst src => obtain rfl := Option.some.inj h; exact framed_setReg dst _
  | lea dst base disp => obtain rfl := Option.some.inj h; exact framed_setReg dst _
  | alu op dst src =>
    obtain rfl := Option.some.inj h
    unfold Instr.destRegs Instr.destMem
    by_cases hop : op = .cmp
    · simp only [if_pos hop]
      exact .same ..
    · simp only [if_neg hop]
      exact (framed_write s dst _).withFlags _
  | aluImm op dst imm =>
    obtain rfl := Option.some.inj h
    unfold Instr.destRegs Instr.destMem
    by_cases hop : op = .cmp
    · simp only [if_pos hop]
      exact .same ..
    · simp only [if_neg hop]
      exact (framed_write s dst _).withFlags _
  | test dst src => obtain rfl := Option.some.inj h; exact .same ..
  | imul dst src => obtain rfl := Option.some.inj h; exact (framed_setReg dst _).withFlags _
  | unary op dst =>
    cases op with
    | not => obtain rfl := Option.some.inj h; exact framed_write s dst _
    | neg => obtain rfl := Option.some.inj h; exact (framed_write s dst _).withFlags _
    | idiv => exact framed_idiv h
  | shift op dst => obtain rfl := Option.some.inj h; exact (framed_write s dst _).withFlags _
  | cqo => obtain rfl := Option.some.inj h; exact framed_setReg .rdx _
  | setcc c dst =>
    cases hflags : s.flags with
    | some f =>
      simp only [exec, hflags, Option.some.injEq] at h
      subst h
      exact framed_writeByte s dst _
    | none => simp [exec, hflags] at h
  | push r =>
    obtain rfl := Option.some.inj h
    refine ⟨(framed_setReg .rsp _).regs, .inr ⟨.rsp, -8, 8, s.regs r, rfl, by omega, ?_⟩⟩
    have haddr : s.address .rsp (-8) = s.regs .rsp - 8 := (BitVec.sub_eq_add_neg _ _).symm
    rw [haddr]
    rfl
  | pop r =>
    obtain rfl := Option.some.inj h
    refine ⟨fun r' hr => ?_, .inl rfl⟩
    simp only [Instr.destRegs, List.mem_cons, List.not_mem_nil, or_false, not_or] at hr
    show ((s.setReg .rsp _).setReg r _).regs r' = _
    rw [State.setReg_of_ne _ _ hr.2, State.setReg_of_ne _ _ hr.1]
  | jmp rel => cases h
  | jcc c rel => cases h
  | call target => cases h
  | ret => cases h

/-- A total instruction executes in every state. -/
theorem exec_total {i : Instr} (h : i.total = true) (s : State) : ∃ s', exec i s = some s' := by
  cases i with
  | unary op dst =>
    cases op with
    | not => exact ⟨_, rfl⟩
    | neg => exact ⟨_, rfl⟩
    | idiv => cases h
  | mov size dst src => cases size <;> exact ⟨_, rfl⟩
  | setcc c dst => cases h
  | jmp rel => cases h
  | jcc c rel => cases h
  | call target => cases h
  | ret => cases h
  | _ => exact ⟨_, rfl⟩

theorem execList_total {is : List Instr} (h : ∀ i ∈ is, i.total = true) (s : State) :
    ∃ s', execList is s = some s' := by
  induction is generalizing s with
  | nil => exact ⟨s, rfl⟩
  | cons i is ih =>
    obtain ⟨s₁, hs₁⟩ := exec_total (h i (by simp)) s
    obtain ⟨s', hs'⟩ := ih (fun j hj => h j (List.mem_cons_of_mem _ hj)) s₁
    exact ⟨s', by rw [execList_cons, hs₁, Option.bind_some, hs']⟩

end TinyCompile.X86
