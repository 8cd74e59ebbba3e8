import TinyCompile.Jit.Slots
import TinyCompile.Jit.Straight

set_option autoImplicit false

/-!
# Jit: the code of each operation

For every opcode that falls through, what its code leaves in usable locations: the value of
the operation in the location of the destination, or the stored bytes in the slot of a local.
-/

namespace TinyCompile.Jit

open TinyCompile.Machine TinyCompile.X86 TinyCompile.Source TinyCompile.Ir

/-! ## Operations on `rax` -/

section

variable {s : State} {a b v : Word}

/-- The code leaves a value in `rax` if its effect is to write it there. -/
theorem onRax_of_exec {es : List Encoded} (fl : Option Flags)
    (h : execCode es s = some { s.setReg .rax v with flags := fl }) : OnRax es s v :=
  ⟨_, h, ((Scratched.refl s).setReg (.inl rfl) v).withFlags fl, s.setReg_same .rax v⟩

theorem alu_computes {op : AluOp} (hop : op ≠ .cmp) :
    OpComputes (fun r => [aluRegReg op .rax r]) a b (op.eval a b).1 := by
  rintro s r rfl rfl
  refine onRax_of_exec (some (op.eval (s.regs .rax) (s.regs r)).2) ?_
  have hexec : exec (aluRegReg op .rax r).instr s =
      some { (if op = .cmp then s else s.setReg .rax (op.eval (s.regs .rax) (s.regs r)).1) with
        flags := some (op.eval (s.regs .rax) (s.regs r)).2 } := rfl
  rw [execCode_one, hexec, if_neg hop]

theorem imul_computes : OpComputes (fun r => [imulRegReg .rax r]) a b (a * b) := by
  rintro s r rfl rfl
  exact onRax_of_exec none rfl

/-- `setcc` and `movzx` behind flags. -/
theorem onRax_setcc {c : Cond} {fl : Flags} (h : s.flags = some fl) :
    OnRax [setcc c .rax, movzxRegReg .rax .rax] s (truth (c.holds fl)) := by
  generalize hs₁ : s.setReg .rax (replaceLow 1 (s.regs .rax) (if c.holds fl then 1 else 0)) = s₁
  have hset : execCode [setcc c .rax] s = some s₁ := by
    rw [execCode_one, ← hs₁]
    simp only [setcc, exec, h]
    rfl
  have hflag : ((s₁.regs .rax).setWidth 8).setWidth 64 = truth (c.holds fl) := by
    rw [← hs₁, State.setReg_same]
    exact zeroExtend_flag _ _
  have hscratch : Scratched s s₁ := by
    rw [← hs₁]
    exact (Scratched.refl s).setReg (.inl rfl) _
  have hmov : execCode [movzxRegReg .rax .rax] s₁ = some (s₁.setReg .rax (truth (c.holds fl))) := by
    rw [execCode_one, ← hflag]
    rfl
  exact ⟨_, execCode_seq hset hmov, hscratch.setReg (.inl rfl) _, s₁.setReg_same _ _⟩

theorem compareOps_computes (c : Cond) :
    OpComputes (compareOps c) a b (truth (c.compares a.toInt b.toInt)) := by
  rintro s r rfl rfl
  have hcmp : execCode [aluRegReg .cmp .rax r] s =
      some { s with flags := some (AluOp.eval .cmp (s.regs .rax) (s.regs r)).2 } := rfl
  obtain ⟨s₂, hexec, hscratch, hv⟩ := onRax_setcc (c := c)
    (s := { s with flags := some (AluOp.eval .cmp (s.regs .rax) (s.regs r)).2 }) rfl
  rw [cmp_holds] at hv
  exact ⟨s₂, execCode_seq hcmp hexec, ((Scratched.refl s).withFlags _).trans hscratch, hv⟩

theorem notOps_computes (hrax : s.regs .rax = a) :
    OnRax [cmpRaxZero, setcc .e .rax, movzxRegReg .rax .rax] s (truth (decide (a = 0))) := by
  have hcmp : execCode [cmpRaxZero] s =
      some { s with flags := some (AluOp.eval .cmp (s.regs .rax) 0).2 } := rfl
  obtain ⟨s₂, hexec, hscratch, hv⟩ := onRax_setcc (c := .e)
    (s := { s with flags := some (AluOp.eval .cmp (s.regs .rax) 0).2 }) rfl
  have hzero : Cond.e.holds (AluOp.eval .cmp (s.regs .rax) 0).2 = decide (a = 0) := by
    rw [← hrax]
    exact cmp_zf _ _
  rw [hzero] at hv
  exact ⟨s₂, execCode_seq hcmp hexec, ((Scratched.refl s).withFlags _).trans hscratch, hv⟩

end

/-! ## The opcodes -/

section

variable {s : State} {loc : Nat → Location} {pending : List Nat} {inst : IRInstruction} {v : Word}

theorem movCode_computes {dest src : Location} (hdest : dest.Usable) (hsrc : src.Usable) :
    Computes (movCode dest src) s dest (contents s src) := by
  have hplain : Computes (unaryCode [] dest src) s dest (contents s src) :=
    unaryCode_computes hdest hsrc fun s₁ hrax => ⟨s₁, rfl, .refl s₁, hrax⟩
  unfold movCode
  split
  · rename_i r r'
    split
    · -- a move within one register emits nothing
      rename_i heq
      subst heq
      refine ⟨s, ?_, .refl s⟩
      rw [contents_reg]
      exact congrArg some (setReg_self s r).symm
    · exact hplain
  · exact hplain

/-- The code of an operation leaves its value in the location of the destination, whatever
the locations are and whether or not they coincide. -/
theorem operation_computes (hloc : ∀ u ∈ touched pending inst, (loc u).Usable)
    (hv : evalOp (contents s (loc inst.src1)) (contents s (loc inst.src2)) inst.opcode = some v) :
    Computes (straightCode loc inst) s (loc inst.dest) v := by
  have hrcx : IsScratch .rcx := .inr (.inl rfl)
  have hrdx : IsScratch .rdx := .inr (.inr rfl)
  have halu : ∀ {op : AluOp}, op ≠ .cmp → (loc inst.dest).Usable → (loc inst.src1).Usable →
      (loc inst.src2).Usable → Computes (binaryCode .rdx (fun r => [aluRegReg op .rax r])
        (loc inst.dest) (loc inst.src1) (loc inst.src2)) s (loc inst.dest)
        (op.eval (contents s (loc inst.src1)) (contents s (loc inst.src2))).1 :=
    fun hop hdest hleft hright =>
      binaryCode_computes hrdx (by decide) hdest hleft hright (alu_computes hop)
  have hcompare : ∀ c, (loc inst.dest).Usable → (loc inst.src1).Usable →
      (loc inst.src2).Usable → Computes (binaryCode .rcx (compareOps c) (loc inst.dest)
        (loc inst.src1) (loc inst.src2)) s (loc inst.dest) (truth (c.compares
          (contents s (loc inst.src1)).toInt (contents s (loc inst.src2)).toInt)) :=
    fun c hdest hleft hright =>
      binaryCode_computes hrcx (by decide) hdest hleft hright (compareOps_computes c)
  unfold straightCode
  unfold touched at hloc
  cases hop : inst.opcode <;> rw [hop] at hloc hv <;> dsimp only [evalOp] at hv ⊢ <;>
    simp only [List.mem_cons, List.not_mem_nil, or_false, forall_eq_or_imp, forall_eq] at hloc
  case add | sub | band | bor | bxor =>
    obtain ⟨hdest, hleft, hright⟩ := hloc
    obtain rfl := Option.some.inj hv
    exact halu (by decide) hdest hleft hright
  case mul =>
    obtain ⟨hdest, hleft, hright⟩ := hloc
    obtain rfl := Option.some.inj hv
    exact binaryCode_computes hrcx (by decide) hdest hleft hright imul_computes
  case div => exact divCode_computes hloc.1 hloc.2.1 hloc.2.2 hv
  case eq | neq | lt | le | gt | ge =>
    obtain ⟨hdest, hleft, hright⟩ := hloc
    obtain rfl := Option.some.inj hv
    exact hcompare _ hdest hleft hright
  case lshift =>
    obtain ⟨hdest, hleft, hright⟩ := hloc
    obtain rfl := Option.some.inj hv
    exact shiftCode_computes .shl hdest hleft hright
  case rshift =>
    obtain ⟨hdest, hleft, hright⟩ := hloc
    obtain rfl := Option.some.inj hv
    exact shiftCode_computes .sar hdest hleft hright
  case urshift =>
    obtain ⟨hdest, hleft, hright⟩ := hloc
    obtain rfl := Option.some.inj hv
    exact shiftCode_computes .shr hdest hleft hright
  case bnot =>
    obtain rfl := Option.some.inj hv
    refine unaryCode_computes hloc.1 hloc.2 fun s₁ hrax => ?_
    rw [← hrax]
    exact onRax_of_exec s₁.flags rfl
  case neg =>
    obtain rfl := Option.some.inj hv
    refine unaryCode_computes hloc.1 hloc.2 fun s₁ hrax => ?_
    rw [← hrax]
    exact onRax_of_exec _ rfl
  case not =>
    obtain rfl := Option.some.inj hv
    exact unaryCode_computes hloc.1 hloc.2 fun _ hrax => notOps_computes hrax
  case mov =>
    obtain rfl := Option.some.inj hv
    exact movCode_computes hloc.1 hloc.2
  all_goals cases hv

theorem const_computes (hop : inst.opcode = .const) (hdest : (loc inst.dest).Usable) :
    Computes (straightCode loc inst) s (loc inst.dest) inst.imm := by
  have hcode : straightCode loc inst =
      [movImm .rax inst.imm] ++ storeCode .rax (loc inst.dest) := by
    simp only [straightCode, hop]
    rfl
  rw [hcode]
  exact (onRax_of_exec s.flags rfl).store hdest

/-! ## Locals -/

/-- A load of a sized local into a register. -/
theorem exec_loadSignext (dst : Reg) (off : BitVec 32) (size : Nat) :
    exec (loadSignext dst off size).instr s =
      some (s.setReg dst (loadSlot size (contents s (.stack off)))) := by
  have hfull : ∀ w : Word, signExtendLow 8 w = w := fun w => by simp [signExtendLow]
  unfold loadSignext loadSlot storedBytes
  split
  · rename_i h
    rw [if_pos (.inl h), h]
    rfl
  · split
    · rename_i h
      rw [if_pos (.inr h), h]
      rfl
    · rename_i h₁ h₄
      rw [if_neg (by simp [h₁, h₄]), hfull]
      rfl

theorem load_computes (hop : inst.opcode = .load) (hdest : (loc inst.dest).Usable) :
    Computes (straightCode loc inst) s (loc inst.dest) (loadSlot (typeSize inst.type)
      (contents s (.stack (getLocalOffset inst.src1)))) := by
  have hcode : straightCode loc inst = loadLocalCode (loc inst.dest) (getLocalOffset inst.src1)
      (typeSize inst.type) := by
    simp only [straightCode, hop]
  rw [hcode]
  generalize loc inst.dest = dest at hdest
  unfold loadLocalCode
  split
  · rename_i reg
    refine ⟨s, ?_, .refl s⟩
    rw [execCode_one, exec_loadSignext]
    rfl
  · have hload : OnRax [loadSignext .rax (getLocalOffset inst.src1) (typeSize inst.type)] s
        (loadSlot (typeSize inst.type) (contents s (.stack (getLocalOffset inst.src1)))) := by
      refine onRax_of_exec s.flags ?_
      rw [execCode_one, exec_loadSignext]
      rfl
    exact hload.store hdest

/-- A state in which the low bytes of a slot are those of a word. -/
def storeBytes (s : State) (off : BitVec 32) (size : Nat) (v : Word) : State :=
  { s with mem := writeLow s.mem (slotAddress s off) (storedBytes size) v }

theorem exec_storeSized (src : Reg) (off : BitVec 32) (size : Nat) :
    exec (storeSized src off size).instr s = some (storeBytes s off size (s.regs src)) := by
  unfold storeSized storeBytes storedBytes
  split
  · rename_i h
    rw [if_pos (.inl h), h]
    rfl
  · split
    · rename_i h
      rw [if_pos (.inr h), h]
      rfl
    · rename_i h₁ h₄
      rw [if_neg (by simp [h₁, h₄])]
      rfl

theorem store_stores (hop : inst.opcode = .store) (hsrc : (loc inst.src1).Usable) :
    ∃ s₁, execCode (straightCode loc inst) s = some (storeBytes s₁ (getLocalOffset inst.dest)
      (typeSize inst.type) (contents s (loc inst.src1))) ∧ Scratched s s₁ := by
  have hcode : straightCode loc inst = storeLocalCode (loc inst.src1) (getLocalOffset inst.dest)
      (typeSize inst.type) := by
    simp only [straightCode, hop]
  rw [hcode]
  generalize loc inst.src1 = src at hsrc
  unfold storeLocalCode
  split
  · rename_i reg
    refine ⟨s, ?_, .refl s⟩
    rw [execCode_one, exec_storeSized]
    rfl
  · obtain ⟨s₁, hload, hscratch, hrax⟩ := OnRax.load (s := s) hsrc
    refine ⟨s₁, execCode_seq hload ?_, hscratch⟩
    rw [execCode_one, exec_storeSized, hrax]

/-- What a store leaves in its slot. -/
theorem contents_storeBytes_same (off : BitVec 32) (size : Nat) :
    contents (storeBytes s off size v) (.stack off) =
      storeSlot size (contents s (.stack off)) v :=
  read64_writeLow_low s.mem (slotAddress s off) v (storedBytes_pos size) (storedBytes_le size)

/-- A store leaves the other locations. -/
theorem contents_storeBytes_other {off : BitVec 32} (size : Nat) {l : Location}
    (hoff : off.toNat % 8 = 0) (hl : l.Usable) (hne : l ≠ .stack off) :
    contents (storeBytes s off size v) l = contents s l := by
  cases l with
  | reg r => rfl
  | stack off' =>
    have hne' : off ≠ off' := fun heq => hne (congrArg Location.stack heq.symm)
    have hapart := slots_apart (s.regs .rbp) hoff hl hne'
    exact read64_writeLow_apart (hapart.mono (storedBytes_le size) (Nat.le_refl 8))
  | const imm => exact hl.elim
  | none => exact hl.elim

/-! ## Tests -/

/-- The test before a conditional jump compares the location with zero. -/
theorem exec_testCode {l : Location} (hl : l.Usable) :
    ∃ s₁ fl, execCode (testCode l) s = some s₁ ∧ Scratched s s₁ ∧ s₁.flags = some fl ∧
      fl.zf = decide (contents s l = 0) := by
  unfold testCode
  split
  · rename_i reg
    refine ⟨_, _, rfl, (Scratched.refl s).withFlags _, rfl, ?_⟩
    show (s.regs reg &&& s.regs reg == 0) = _
    rw [BitVec.and_self]
    rfl
  · obtain ⟨s₁, hload, hscratch, hrax⟩ := OnRax.load (s := s) hl
    have hcmp : execCode [cmpRaxZero] s₁ =
        some { s₁ with flags := some (AluOp.eval .cmp (s₁.regs .rax) 0).2 } := rfl
    refine ⟨_, _, execCode_seq hload hcmp, hscratch.withFlags _, rfl, ?_⟩
    rw [cmp_zf, hrax]

end

end TinyCompile.Jit
