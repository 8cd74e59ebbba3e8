import TinyCompile.Jit.Prologue

set_option autoImplicit false

/-!
# Jit: the stack is aligned and balanced

Every path through a function keeps `rsp` between its instructions, every call finds it at
a multiple of sixteen, and a return takes from the stack what the prologue put there.
-/

namespace TinyCompile.Jit

open TinyCompile.Machine TinyCompile.X86 TinyCompile.Source TinyCompile.Ir

/-! ## Code that falls through -/

theorem steady_of_dest {i : Instr} (rs : List Reg) (hdest : i.destRegs = rs)
    (hrs : Reg.rsp ∉ rs ∧ Reg.rbp ∉ rs) (hmem : i.destMem = none) : Steady i :=
  steady_of_regs (hdest ▸ hrs.1) (hdest ▸ hrs.2) hmem

theorem free_rax : Free .rax := ⟨by decide, by decide⟩

section

variable {n : Nat} {dest left right : Location}

theorem loadCode_steady {dst : Reg} (h : Free dst) (l : Location) :
    SteadyCode (loadCode dst l) := by
  cases l with
  | reg r =>
    show SteadyCode (if r ≠ dst then [movRegReg dst r] else [])
    split <;> simp [steady_mov _ h]
  | stack off => simp [loadCode, steady_load _ h]
  | const imm =>
    have himm : Steady (movImm dst imm).instr := steady_of_dest [dst] rfl h.not_mem rfl
    simp [loadCode, himm]
  | none => simp [loadCode]

theorem storeCode_steady (src : Reg) (h : WellPlaced n dest) : SteadyCode (storeCode src dest) := by
  cases dest with
  | reg r =>
    show SteadyCode (if r ≠ src then [movRegReg r src] else [])
    split <;> simp [steady_mov _ h.free]
  | stack off => simp [storeCode, steady_store h.1]
  | const imm => simp [storeCode]
  | none => simp [storeCode]

theorem rightCode_steady {tmp : Reg} (h : Free tmp) (l : Location) :
    SteadyCode (rightCode tmp l).1 := by
  cases l with
  | reg r => exact steadyCode_nil
  | stack off => exact loadCode_steady h (.stack off)
  | const imm => exact loadCode_steady h (.const imm)
  | none => exact loadCode_steady h .none

theorem binaryCode_steady {tmp : Reg} {op : Reg → List Encoded} (htmp : Free tmp)
    (hop : ∀ r, SteadyCode (op r)) (hdest : WellPlaced n dest) :
    SteadyCode (binaryCode tmp op dest left right) := by
  unfold binaryCode
  simp [loadCode_steady free_rax, rightCode_steady htmp, hop, storeCode_steady _ hdest]

theorem unaryCode_steady {op : List Encoded} (hop : SteadyCode op) (hdest : WellPlaced n dest) :
    SteadyCode (unaryCode op dest left) := by
  unfold unaryCode
  simp [loadCode_steady free_rax, hop, storeCode_steady _ hdest]

theorem compareOps_steady (c : Cond) (r : Reg) : SteadyCode (compareOps c r) := by
  have hcmp : Steady (aluRegReg .cmp .rax r).instr := steady_of_dest [] rfl (by decide) rfl
  have hset : Steady (setcc c .rax).instr := steady_of_dest [.rax] rfl (by decide) rfl
  have hmov : Steady (movzxRegReg .rax .rax).instr := steady_of_dest [.rax] rfl (by decide) rfl
  simp [compareOps, hcmp, hset, hmov]

theorem movCode_steady (hdest : WellPlaced n dest) : SteadyCode (movCode dest left) := by
  unfold movCode
  split
  · split
    · exact steadyCode_nil
    · exact unaryCode_steady steadyCode_nil hdest
  · exact unaryCode_steady steadyCode_nil hdest

theorem storeSized_steady (src : Reg) {off : BitVec 32} (h : BelowSaved off) (size : Nat) :
    Steady (storeSized src off size).instr := by
  have hslot : ∀ s, Steady (.mov s (frameOperand off) src) := fun s =>
    ⟨List.not_mem_nil, List.not_mem_nil, fun base disp hdest => by
      obtain ⟨rfl, rfl⟩ := Prod.mk.inj (Option.some.inj hdest)
      exact ⟨off, rfl, rfl, h⟩⟩
  unfold storeSized
  split
  · exact hslot .byte
  · split
    · exact hslot .dword
    · exact hslot .qword

theorem loadSignext_steady {dst : Reg} (h : Free dst) (off : BitVec 32) (size : Nat) :
    Steady (loadSignext dst off size).instr := by
  unfold loadSignext
  split
  · exact steady_of_dest [dst] rfl h.not_mem rfl
  · split
    · exact steady_of_dest [dst] rfl h.not_mem rfl
    · exact steady_of_dest [dst] rfl h.not_mem rfl

theorem storeLocalCode_steady {off : BitVec 32} (h : BelowSaved off) (size : Nat) :
    SteadyCode (storeLocalCode left off size) := by
  have hstore : ∀ src, Steady (storeSized src off size).instr := fun _ => storeSized_steady _ h _
  unfold storeLocalCode
  split
  · simp [hstore]
  · simp [hstore, loadCode_steady free_rax]

theorem loadLocalCode_steady (hdest : WellPlaced n dest) (off : BitVec 32) (size : Nat) :
    SteadyCode (loadLocalCode dest off size) := by
  unfold loadLocalCode
  split
  · simp [loadSignext_steady hdest.free]
  · simp [loadSignext_steady free_rax, storeCode_steady _ hdest]

theorem divCode_steady (hdest : WellPlaced n dest) : SteadyCode (divCode dest left right) := by
  have hcqo : Steady cqo.instr := steady_of_dest [.rdx] rfl (by decide) rfl
  have hdiv : ∀ r, Steady (idiv r).instr := fun _ =>
    steady_of_dest [.rax, .rdx] rfl (by decide) rfl
  have hrcx : Free .rcx := ⟨by decide, by decide⟩
  unfold divCode
  simp [loadCode_steady free_rax, hcqo, rightCode_steady hrcx, hdiv, storeCode_steady _ hdest]

theorem shiftCode_steady (op : ShiftOp) (hdest : WellPlaced n dest) :
    SteadyCode (shiftCode op dest left right) := by
  have hshift : Steady (shiftRax op).instr := steady_of_dest [.rax] rfl (by decide) rfl
  have hrcx : Free .rcx := ⟨by decide, by decide⟩
  unfold shiftCode
  simp [loadCode_steady free_rax, loadCode_steady hrcx, hshift, storeCode_steady _ hdest]

end

/-- The slots of an instruction are those of its function's locals. -/
def LocalsBelow (limit : Nat) (inst : IRInstruction) : Prop :=
  (inst.opcode = .load → inst.src1 < limit) ∧ (inst.opcode = .store → inst.dest < limit)

/-- The code of an instruction that falls through keeps the stack pointer. -/
theorem straightCode_steady {n : Nat} {loc : Nat → Location} {inst : IRInstruction}
    (hn : n ≤ maxIrInstructionsPerFunction) (hlocals : LocalsBelow n inst)
    {pending : List Nat}
    (hplaced : ∀ v ∈ touched pending inst, WellPlaced n (loc v)) (hret : inst.opcode ≠ .ret) :
    SteadyCode (straightCode loc inst) := by
  have hmax : maxIrInstructionsPerFunction = 65536 := rfl
  have hdest : inst.dest ∈ touched pending inst → WellPlaced n (loc inst.dest) := hplaced inst.dest
  have hrcx : Free .rcx := ⟨by decide, by decide⟩
  have hrdx : Free .rdx := ⟨by decide, by decide⟩
  have halu : ∀ op r, op ≠ .cmp → SteadyCode [aluRegReg op .rax r] := by
    intro op r hop
    have hregs : (aluRegReg op .rax r).instr.destRegs = [.rax] := if_neg hop
    have hmem : (aluRegReg op .rax r).instr.destMem = none := if_neg hop
    simp [steady_of_dest _ hregs (by decide) hmem]
  have himul : ∀ r, SteadyCode [imulRegReg .rax r] := fun r => by
    simp [steady_of_dest (i := (imulRegReg .rax r).instr) [.rax] rfl (by decide) rfl]
  have hunary : ∀ e ∈ [notRax, negRax], Steady e.instr := by
    intro e he
    simp only [List.mem_cons, List.not_mem_nil, or_false] at he
    rcases he with rfl | rfl <;> exact steady_of_dest [.rax] rfl (by decide) rfl
  have hlocal : ∀ idx < n, BelowSaved (getLocalOffset idx) := fun idx hidx =>
    getLocalOffset_below (by omega)
  unfold straightCode
  unfold touched at hdest
  cases hop : inst.opcode <;> rw [hop] at hdest <;> dsimp only
  case add | sub | band | bor | bxor =>
    exact binaryCode_steady hrdx (fun r => halu _ r (by decide)) (hdest (by simp))
  case mul => exact binaryCode_steady hrcx himul (hdest (by simp))
  case div => exact divCode_steady (hdest (by simp))
  case eq | neq | lt | le | gt | ge =>
    exact binaryCode_steady hrcx (compareOps_steady _) (hdest (by simp))
  case lshift | rshift | urshift => exact shiftCode_steady _ (hdest (by simp))
  case bnot => exact unaryCode_steady (by simp [hunary]) (hdest (by simp))
  case neg => exact unaryCode_steady (by simp [hunary]) (hdest (by simp))
  case not =>
    have hcmp : Steady cmpRaxZero.instr := steady_of_dest [] rfl (by decide) rfl
    have hset : Steady (setcc .e .rax).instr := steady_of_dest [.rax] rfl (by decide) rfl
    have hmov : Steady (movzxRegReg .rax .rax).instr := steady_of_dest [.rax] rfl (by decide) rfl
    exact unaryCode_steady (by simp [hcmp, hset, hmov]) (hdest (by simp))
  case mov => exact movCode_steady (hdest (by simp))
  case load => exact loadLocalCode_steady (hdest (by simp)) _ _
  case store => exact storeLocalCode_steady (hlocal _ (hlocals.2 hop)) _
  case const =>
    have himm : Steady (movImm .rax inst.imm).instr := steady_of_dest [.rax] rfl (by decide) rfl
    simp [himm, storeCode_steady _ (hdest (by simp))]
  case ret => exact absurd hop hret
  case arg | label | jmp | jz | jnz | call => exact steadyCode_nil

/-! ## Calls -/

theorem testCode_steady (l : Location) : SteadyCode (testCode l) := by
  have htest : ∀ r, Steady (testRegReg r r).instr := fun _ =>
    steady_of_dest [] rfl (by decide) rfl
  have hcmp : Steady cmpRaxZero.instr := steady_of_dest [] rfl (by decide) rfl
  unfold testCode
  split
  · simp [htest]
  · simp [loadCode_steady free_rax, hcmp]

/-- A push of an argument, on its way to a register or not. -/
theorem pushStackArg_moves (l : Location) {d : Nat} (hd : d ≤ maxDepth) :
    Moves (pushStackArg l) d (d + 8) :=
  (Moves.steady (loadCode_steady free_rax l) d).seq (.push .rax hd)

theorem pushRegArg_moves (l : Location) {d : Nat} (hd : d ≤ maxDepth) :
    Moves (pushRegArg l) d (d + 8) := by
  unfold pushRegArg
  split
  · exact .push _ hd
  · exact (Moves.steady (loadCode_steady free_rax _) d).seq (.push .rax hd)

/-- Pushes one after the other. -/
theorem Moves.flatMap {α : Type} {g : α → List Encoded}
    (hg : ∀ a d, d ≤ maxDepth → Moves (g a) d (d + 8)) (as : List α) {d : Nat}
    (hd : d + 8 * as.length ≤ maxDepth) : Moves (as.flatMap g) d (d + 8 * as.length) := by
  induction as generalizing d with
  | nil => exact .nil d
  | cons a as ih =>
    rw [List.length_cons] at hd ⊢
    have hrest := ih (d := d + 8) (by omega)
    rw [List.flatMap_cons, show d + 8 * (as.length + 1) = d + 8 + 8 * as.length by omega]
    exact (hg a d (by omega)).seq hrest

theorem Moves.pops {rs : List Reg} (hrs : ∀ r ∈ rs, Free r) (d : Nat) :
    Moves (rs.map Jit.pop) (d + 8 * rs.length) d := by
  induction rs with
  | nil => exact .nil d
  | cons r rs ih =>
    have hr := hrs r (by simp)
    have hhead := Moves.pop hr.1 hr.2 (d + 8 * rs.length)
    rw [List.length_cons, show d + 8 * (rs.length + 1) = d + 8 * rs.length + 8 by omega]
    exact hhead.seq (ih fun x hx => hrs x (List.mem_cons_of_mem _ hx))

/-- The words a call has on the stack, the pad included. -/
def callWords (pending : List Nat) : Nat :=
  stackArgCount pending + stackArgCount pending % 2

theorem callWords_even (pending : List Nat) : ∃ b, callWords pending = 2 * b := by
  unfold callWords
  exact ⟨(stackArgCount pending + stackArgCount pending % 2) / 2, by omega⟩

/-- The frame and the saved registers take a multiple of sixteen bytes. -/
theorem stackSize_aligned (f : IRFunction) : ∃ a, 40 + calculateAlignedStackSize f = 16 * a := by
  have heq := calculateAlignedStackSize_eq f
  refine ⟨(40 + calculateAlignedStackSize f) / 16, ?_⟩
  split at heq <;> omega

theorem argRegisters_free : ∀ r ∈ argRegisters, Free r := by
  unfold Free
  decide

theorem argumentCode_moves (loc : Nat → Location) (pending : List Nat) {d : Nat}
    (hd : d + 8 * pending.length + 8 ≤ maxDepth) :
    Moves (argumentCode loc pending) d (d + 8 * callWords pending) := by
  have hpad : Moves (padCode pending) d (d + 8 * (stackArgCount pending % 2)) := by
    unfold padCode
    split
    · rw [show stackArgCount pending % 2 = 1 by omega]
      exact Moves.sub (n := 8) d (by decide)
    · rw [show stackArgCount pending % 2 = 0 by omega]
      exact .nil d
  have hdrop : (pending.drop 6).reverse.length = stackArgCount pending := by
    rw [List.length_reverse, List.length_drop]
    rfl
  have htake : (pending.take 6).reverse.length = (pending.take 6).length := List.length_reverse
  have hsplit : (pending.drop 6).length + (pending.take 6).length = pending.length := by
    rw [List.length_drop, List.length_take]
    omega
  have hstack := Moves.flatMap (fun v d => pushStackArg_moves (loc v) (d := d))
    (pending.drop 6).reverse (d := d + 8 * (stackArgCount pending % 2))
    (by rw [List.length_reverse]; omega)
  have hregs := Moves.flatMap (fun v d => pushRegArg_moves (loc v) (d := d))
    (pending.take 6).reverse (d := d + 8 * callWords pending)
    (by
      unfold callWords
      rw [htake, ← hdrop, List.length_reverse]
      omega)
  have hfree : ∀ r ∈ argRegisters.take (pending.take 6).length, Free r :=
    fun r hr => argRegisters_free r (List.mem_of_mem_take hr)
  have hpops := Moves.pops hfree (d + 8 * callWords pending)
  have hlen : (argRegisters.take (pending.take 6).length).length = (pending.take 6).length := by
    rw [List.length_take, List.length_take]
    exact Nat.min_eq_left (Nat.le_trans (Nat.min_le_left _ _) (by decide))
  rw [hdrop, Nat.add_assoc, ← Nat.mul_add, Nat.add_comm (stackArgCount pending % 2)] at hstack
  rw [htake] at hregs
  rw [hlen] at hpops
  exact ((hpad.seq hstack).seq hregs).seq hpops

theorem loadCode_total (dst : Reg) (l : Location) : ∀ e ∈ loadCode dst l, e.instr.total = true := by
  have hmov : ∀ src, (movRegReg dst src).instr.total = true := fun _ => rfl
  have hload : ∀ off, (loadParam dst off).instr.total = true := fun _ => rfl
  have himm : ∀ imm, (movImm dst imm).instr.total = true := fun _ => rfl
  unfold loadCode
  split
  · split <;> simp [hmov]
  · simp [hload]
  · simp [himm]
  · simp

/-- What a call executes before its call instruction never stops. -/
theorem argumentCode_total (loc : Nat → Location) (pending : List Nat) :
    ∀ e ∈ argumentCode loc pending, e.instr.total = true := by
  have hpush : ∀ r, (push r).instr.total = true := fun _ => rfl
  have hpop : ∀ r, (pop r).instr.total = true := fun _ => rfl
  have hsub : ∀ imm, (subRsp imm).instr.total = true := fun _ => rfl
  intro e he
  rcases List.mem_append.mp he with he | he
  · rcases List.mem_append.mp he with he | he
    · rcases List.mem_append.mp he with he | he
      · unfold padCode at he
        split at he
        · obtain rfl := List.mem_singleton.mp he
          exact hsub 8
        · cases he
      · obtain ⟨v, -, he⟩ := List.mem_flatMap.mp he
        rcases List.mem_append.mp he with he | he
        · exact loadCode_total _ _ e he
        · obtain rfl := List.mem_singleton.mp he
          exact hpush .rax
    · obtain ⟨v, -, he⟩ := List.mem_flatMap.mp he
      unfold pushRegArg at he
      split at he
      · obtain rfl := List.mem_singleton.mp he
        exact hpush _
      · rcases List.mem_append.mp he with he | he
        · exact loadCode_total _ _ e he
        · obtain rfl := List.mem_singleton.mp he
          exact hpush .rax
  · obtain ⟨r, -, rfl⟩ := List.mem_map.mp he
    exact hpop r

/-- What a call executes before its call instruction; the address is patched in. -/
def callCode (loc : Nat → Location) (pending : List Nat) (target : Word) : List Encoded :=
  argumentCode loc pending ++ [movImm .rax target]

theorem callCode_moves (loc : Nat → Location) (pending : List Nat) (target : Word) {d : Nat}
    (hd : d + 8 * pending.length + 8 ≤ maxDepth) :
    Moves (callCode loc pending target) d (d + 8 * callWords pending) := by
  have himm : Steady (movImm .rax target).instr := steady_of_dest [.rax] rfl (by decide) rfl
  exact (argumentCode_moves loc pending hd).seq (.steady (by simp [himm]) _)

theorem callCode_total (loc : Nat → Location) (pending : List Nat) (target : Word) :
    ∀ e ∈ callCode loc pending target, e.instr.total = true := by
  intro e he
  rcases List.mem_append.mp he with he | he
  · exact argumentCode_total loc pending e he
  · obtain rfl := List.mem_singleton.mp he
    rfl

theorem cleanupCode_moves {n : Nat} (pending : List Nat) {dest : Location}
    (hdest : WellPlaced n dest) (hpending : pending.length ≤ maxParamsPerFunction) (d : Nat) :
    Moves (cleanupCode pending dest) (d + 8 * callWords pending) d := by
  have hmax : maxParamsPerFunction = 32 := rfl
  have hcount : stackArgCount pending = pending.length - 6 := rfl
  have hclean : Moves (if stackArgCount pending > 0 then
      [addRsp (BitVec.ofNat 32 (cleanupSize pending))] else []) (d + 8 * callWords pending) d := by
    split
    · have hsize : cleanupSize pending = 8 * callWords pending := rfl
      have hsmall : cleanupSize pending < 2 ^ 31 := by
        rw [hsize]
        unfold callWords
        omega
      exact .add d hsmall
    · have hzero : callWords pending = 0 := by
        unfold callWords
        omega
      rw [hzero]
      exact .nil d
  exact hclean.seq (.steady (storeCode_steady .rax hdest) d)

/-! ## Returns -/

/-- A return but its last instruction. -/
def restoreCode : List Encoded :=
  [leaRspSaved, pop .r15, pop .r14, pop .r13, pop .r12, pop .rbx, pop .rbp]

theorem epilogueCode_eq : epilogueCode = restoreCode ++ [ret] := rfl

/-- The registers a callee preserves. -/
def preservedRegs : List Reg := [.rbx, .rbp, .r12, .r13, .r14, .r15]

/-- The state in which a function returns: what it saved is back, and the return address
is on top of the stack. -/
structure Restored (s₀ s : State) : Prop where
  rsp : s.regs .rsp = s₀.regs .rsp
  regs : ∀ r ∈ preservedRegs, s.regs r = s₀.regs r
  address : read64 s.mem (s.regs .rsp) = read64 s₀.mem (s₀.regs .rsp)

/-- Popping registers takes the words from the stack. -/
theorem exec_pops {rs : List Reg} (hrs : Reg.rsp ∉ rs) (hnodup : rs.Nodup) {s : State}
    {ws : List Word} {n : Nat} {rest : List Word} (hlen : ws.length = rs.length)
    (h : stackWords s (rs.length + n) = ws ++ rest) :
    ∃ s', execCode (rs.map pop) s = some s' ∧
      s'.regs .rsp = s.regs .rsp + BitVec.ofNat 64 (8 * rs.length) ∧ rs.map s'.regs = ws ∧
      (∀ x, x ≠ .rsp → x ∉ rs → s'.regs x = s.regs x) ∧ stackWords s' n = rest := by
  induction rs generalizing s ws with
  | nil =>
    obtain rfl := List.length_eq_zero_iff.mp hlen
    exact ⟨s, rfl, (BitVec.add_zero _).symm, rfl, fun _ _ _ => rfl, by simpa using h⟩
  | cons r rs ih =>
    obtain ⟨w, ws, rfl⟩ := List.exists_cons_of_length_eq_add_one hlen
    have hr : r ≠ .rsp := fun heq => hrs (by simp [heq])
    obtain ⟨hnot, hnodup⟩ := List.nodup_cons.mp hnodup
    rw [List.length_cons, Nat.succ_add, List.cons_append, stackWords, wordsAt_succ] at h
    obtain ⟨hw, htail⟩ := List.cons.inj h
    generalize hs₁ : (s.setReg .rsp (s.regs .rsp + 8)).setReg r (read64 s.mem (s.regs .rsp)) = s₁
    have hexec : execCode ((r :: rs).map pop) s = execCode (rs.map pop) s₁ := by
      rw [← hs₁]
      rfl
    have hrsp₁ : s₁.regs .rsp = s.regs .rsp + 8 := by
      rw [← hs₁, State.setReg_of_ne _ _ hr.symm, State.setReg_same]
    have hmem₁ : s₁.mem = s.mem := by
      rw [← hs₁]
      rfl
    have hkept₁ : ∀ x, x ≠ .rsp → x ≠ r → s₁.regs x = s.regs x := by
      intro x hsp hne
      rw [← hs₁, State.setReg_of_ne _ _ hne, State.setReg_of_ne _ _ hsp]
    have hstack : stackWords s₁ (rs.length + n) = ws ++ rest := by
      unfold stackWords
      rw [hrsp₁, hmem₁]
      exact htail
    obtain ⟨s', hrun, hrsp, hregs, hkept, hwords⟩ :=
      ih (fun hmem => hrs (List.mem_cons_of_mem _ hmem)) hnodup (by simpa using hlen) hstack
    refine ⟨s', hexec.trans hrun, ?_, ?_, ?_, hwords⟩
    · rw [hrsp, hrsp₁, List.length_cons]
      bv_omega
    · rw [List.map_cons, hregs, hkept r hr hnot, ← hs₁, State.setReg_same, hw]
    · intro x hsp hx
      rw [List.mem_cons, not_or] at hx
      rw [hkept x hsp hx.2, hkept₁ x hsp hx.1]

/-- The saved registers are popped in the reverse order of their pushes. -/
theorem exec_restoreCode {s₀ s : State} (hrbp : s.regs .rbp = s₀.regs .rsp - 8)
    (hwords : frameWords s = savedWords s₀) :
    ∃ s', execCode restoreCode s = some s' ∧ Restored s₀ s' := by
  have hsplit : restoreCode =
      leaRspSaved :: [Reg.r15, .r14, .r13, .r12, .rbx, .rbp].map pop := rfl
  have hlea : execCode restoreCode s = execCode ([Reg.r15, .r14, .r13, .r12, .rbx, .rbp].map pop)
      (s.setReg .rsp (s.regs .rbp - 40)) := by
    have hexec : exec leaRspSaved.instr s = some (s.setReg .rsp
        (s.regs .rbp + BitVec.signExtend 64 (-40 : Byte))) := rfl
    have hdisp : BitVec.signExtend 64 (-40 : Byte) = -40 := by decide
    rw [hsplit, execCode_cons, hexec, hdisp, Option.bind_some, BitVec.sub_eq_add_neg]
  have hstack : stackWords (s.setReg .rsp (s.regs .rbp - 40)) (6 + 1) =
      [Reg.r15, .r14, .r13, .r12, .rbx, .rbp].map s₀.regs ++ [read64 s₀.mem (s₀.regs .rsp)] := by
    unfold stackWords
    rw [State.setReg_same]
    exact hwords
  obtain ⟨s', hrun, hrsp, hregs, -, hrest⟩ :=
    exec_pops (show Reg.rsp ∉ [Reg.r15, .r14, .r13, .r12, .rbx, .rbp] by decide) (by decide) rfl
      hstack
  rw [State.setReg_same, hrbp] at hrsp
  have hsame := List.map_inj_left.mp hregs
  have hsize : BitVec.ofNat 64 (8 * [Reg.r15, .r14, .r13, .r12, .rbx, .rbp].length) = 48 := rfl
  have hrsp' : s'.regs .rsp = s₀.regs .rsp := by
    rw [hrsp, hsize]
    bv_omega
  refine ⟨s', hlea.trans hrun, hrsp', fun r hr => ?_, ?_⟩
  · apply hsame
    revert r
    decide
  · exact (List.cons.inj hrest).1

/-! ## Paths through a function -/

/-- What the calling convention promises of a call with `stackArgs` words of arguments on
the stack: `s` is the state in which the call instruction executes and `s'` the one after
it.  The callee owns its arguments, not what is above them in the caller's frame. -/
structure Returned (stackArgs : Nat) (s s' : State) : Prop where
  rsp : s'.regs .rsp = s.regs .rsp
  rbp : s'.regs .rbp = s.regs .rbp
  frame : ∀ n, 8 * (stackArgs + n) = (s.regs .rbp + 16 - s.regs .rsp).toNat →
    wordsAt s'.mem (s.regs .rsp + BitVec.ofNat 64 (8 * stackArgs)) n =
      wordsAt s.mem (s.regs .rsp + BitVec.ofNat 64 (8 * stackArgs)) n

/-- A place between two instructions of a function, and the machine state there. -/
structure Point where
  before : List IRInstruction
  after : List IRInstruction
  state : State

section

variable (ctx : JITContext) (f : IRFunction) (p : Nat)

/-- The locations when an instruction is encoded behind others. -/
def locationsAt (pre : List IRInstruction) (inst : IRInstruction) : Nat → Location :=
  (((ctx.entered f p).afterAll pre).after inst).vregMap

/-- The items of an instruction behind others. -/
def itemsAt (pre : List IRInstruction) (inst : IRInstruction) : List Item :=
  itemsOf (locationsAt ctx f p pre inst) (pendingAt [] pre) inst

/-- Control goes from one place to the next: through the code of an instruction, over a
label, along a jump or past it, or through a call. -/
inductive Flow : Point → Point → Prop
  | straight {pre post : List IRInstruction} {inst : IRInstruction} {es : List Encoded}
      {s s' : State} (hitems : itemsAt ctx f p pre inst = es.map .code)
      (hexec : execCode es s = some s') :
      Flow ⟨pre, inst :: post, s⟩ ⟨pre ++ [inst], post, s'⟩
  | label {pre post : List IRInstruction} {inst : IRInstruction} {l : Nat} {s : State}
      (hitems : itemsAt ctx f p pre inst = [.label l]) :
      Flow ⟨pre, inst :: post, s⟩ ⟨pre ++ [inst], post, s⟩
  | jump {pre post pre' post' : List IRInstruction} {inst label : IRInstruction}
      {es : List Encoded} {c : Option Cond} {l : Nat} {s s' : State}
      (hitems : itemsAt ctx f p pre inst = es.map .code ++ [.jump c l])
      (hexec : execCode es s = some s')
      (htaken : ∀ c', c = some c' → ∃ fl, s'.flags = some fl ∧ c'.holds fl = true)
      (hsplit : f.instructions = pre' ++ label :: post') (hlabel : label.labelDef = some l) :
      Flow ⟨pre, inst :: post, s⟩ ⟨pre', label :: post', s'⟩
  | past {pre post : List IRInstruction} {inst : IRInstruction} {es : List Encoded} {c : Cond}
      {l : Nat} {s s' : State} {fl : Flags}
      (hitems : itemsAt ctx f p pre inst = es.map .code ++ [.jump (some c) l])
      (hexec : execCode es s = some s') (hflags : s'.flags = some fl) (hc : c.holds fl = false) :
      Flow ⟨pre, inst :: post, s⟩ ⟨pre ++ [inst], post, s'⟩
  | call {pre post : List IRInstruction} {inst : IRInstruction} {es es' : List Encoded}
      {name : StringView} {s s₁ s₂ s' : State} (target : Word)
      (hitems : itemsAt ctx f p pre inst =
        es.map .code ++ .callSite name :: (callRax :: es').map .code)
      (hbefore : execCode es s = some s₁)
      (hcallee : Returned (stackArgCount (pendingAt [] pre)) (s₁.setReg .rax target) s₂)
      (hafter : execCode es' s₂ = some s') :
      Flow ⟨pre, inst :: post, s⟩ ⟨pre ++ [inst], post, s'⟩

/-- What holds at every place of every path that starts in `s`. -/
structure Balanced (s : State) (pt : Point) : Prop where
  split : f.instructions = pt.before ++ pt.after
  depth : Depth (calculateAlignedStackSize f) pt.state
  guard : Guarded s pt.state

variable {ctx f p}

/-! ## The locations at a place -/

theorem JITContext.Allocated.after {ctx : JITContext} (h : ctx.Allocated) (inst : IRInstruction) :
    (ctx.after inst).Allocated := by
  have ht := h.touchAll (touched ctx.pendingCall inst)
  exact ⟨ht.reg, ht.unique, ht.spill, ht.noConst⟩

theorem JITContext.Allocated.afterAll {ctx : JITContext} (h : ctx.Allocated)
    (insts : List IRInstruction) :
    (ctx.afterAll insts).Allocated := by
  induction insts generalizing ctx with
  | nil => exact h
  | cons inst insts ih => exact ih (h.after inst)

theorem entered_pendingCall (pre : List IRInstruction) :
    ((ctx.entered f p).afterAll pre).pendingCall = pendingAt [] pre := by
  rw [JITContext.afterAll_pendingCall]
  exact congrArg (pendingAt · pre) (JITContext.touchAll_pendingCall _ _)

theorem locationsAt_wellPlaced (ctx : JITContext) (p : Nat)
    (hstack : f.stackCount ≤ maxIrInstructionsPerFunction)
    (hcode : CodeEncodable [] f.instructions) {pre post : List IRInstruction}
    {inst : IRInstruction} (hsplit : f.instructions = pre ++ inst :: post) {v : Nat}
    (hv : v ∈ touched (pendingAt [] pre) inst) :
    WellPlaced f.stackCount (locationsAt ctx f p pre inst v) := by
  have hentered : (ctx.entered f p).Allocated := (fresh_allocated ctx f.stackCount).touchAll _
  have halloc := (hentered.afterAll pre).after inst
  have hpending : ((ctx.entered f p).afterAll pre).pendingCall = pendingAt [] pre :=
    entered_pendingCall pre
  have hbase : (((ctx.entered f p).afterAll pre).after inst).stackBase = f.stackCount :=
    (JITContext.touchAll_stackBase _ _).trans
      ((JITContext.afterAll_stackBase pre).trans (JITContext.touchAll_stackBase _ _))
  have hne : (((ctx.entered f p).afterAll pre).after inst).vregMap v ≠ .none := by
    refine JITContext.touchAll_ne_none _ _ ?_
    rwa [hpending]
  rw [hsplit] at hcode
  have hrange := hcode.at.vregs v hv
  have hplaced := halloc.wellPlaced (hbase.trans_le hstack) hrange hne
  rwa [hbase] at hplaced

/-! ## What a step keeps -/

theorem Returned.guarded {k j : Nat} {s s' : State} (h : Returned k s s') {d : Nat}
    (hs : Depth d s) (hd : d = 8 * (k + j)) (hmax : d ≤ maxDepth) :
    Depth d s' ∧ Guarded s s' := by
  have hmax' : maxDepth = 2 ^ 32 := rfl
  have hsaved : calleeSavedSize = 40 := rfl
  unfold Depth at hs ⊢
  refine ⟨by rw [h.rsp, h.rbp, hs], h.rbp, ?_⟩
  have hsize : 8 * (k + (j + 7)) = (s.regs .rbp + 16 - s.regs .rsp).toNat := by
    rw [hs, hsaved]
    bv_omega
  have hframe := h.frame _ hsize
  rw [wordsAt_add, wordsAt_add] at hframe
  have hbase : s.regs .rsp + BitVec.ofNat 64 (8 * k) + BitVec.ofNat 64 (8 * j) =
      s.regs .rbp - 40 := by
    rw [hs, hsaved]
    bv_omega
  have hsplit := List.append_inj hframe (by simp)
  unfold frameWords
  rw [h.rbp, ← hbase]
  exact hsplit.2

/-- Code that runs to its end does not contain a return. -/
theorem execCode_stops {es : List Encoded} {e : Encoded} (he : e ∈ es)
    (hstop : ∀ s, exec e.instr s = none) (s : State) : execCode es s = none := by
  induction es generalizing s with
  | nil => cases he
  | cons x es ih =>
    rw [execCode_cons]
    rcases List.mem_cons.mp he with rfl | he
    · rw [hstop, Option.bind_none]
    · cases hx : exec x.instr s with
      | none => rfl
      | some s₁ => exact ih he s₁

/-! ## The shapes of an instruction's items -/

/-- Items that are not plain code. -/
def Item.IsControl : Item → Prop
  | .code _ => False
  | _ => True

theorem codes_ne {es es' : List Encoded} {item : Item} {rest : List Item} (h : item.IsControl) :
    es.map Item.code ≠ es'.map Item.code ++ item :: rest := by
  intro heq
  have hmem : item ∈ es.map Item.code := by
    rw [heq]
    simp
  obtain ⟨e, -, rfl⟩ := List.mem_map.mp hmem
  exact h

/-- Code up to the first item that is not code. -/
theorem codes_inj {es es' : List Encoded} {item item' : Item} {rest rest' : List Item}
    (heq : es.map Item.code ++ item :: rest = es'.map Item.code ++ item' :: rest')
    (h : item.IsControl) (h' : item'.IsControl) :
    es = es' ∧ item = item' ∧ rest = rest' := by
  induction es generalizing es' with
  | nil =>
    cases es' with
    | nil => exact ⟨rfl, List.cons.inj heq⟩
    | cons e es' =>
      obtain ⟨rfl, -⟩ := List.cons.inj heq
      exact h.elim
  | cons e es ih =>
    cases es' with
    | nil =>
      obtain ⟨rfl, -⟩ := List.cons.inj heq
      exact h'.elim
    | cons e' es' =>
      obtain ⟨hhead, htail⟩ := List.cons.inj heq
      obtain ⟨rfl, hitem, hrest⟩ := ih htail
      exact ⟨by rw [Item.code.inj hhead], hitem, hrest⟩

theorem codes_eq {es es' : List Encoded} (h : es.map Item.code = es'.map Item.code) : es = es' :=
  List.map_injective_iff.mpr (fun _ _ => Item.code.inj) h

section

variable {loc : Nat → Location} {pending : List Nat} {inst : IRInstruction}

/-- The shapes the plan of an instruction has. -/
inductive Shape (loc : Nat → Location) (pending : List Nat) (inst : IRInstruction) : Prop
  | straight (h : itemsOf loc pending inst = (straightCode loc inst).map .code)
  | label (l : Nat) (h : itemsOf loc pending inst = [].map .code ++ .label l :: [])
  | jump (es : List Encoded) (c : Option Cond) (l : Nat) (hsteady : SteadyCode es)
      (h : itemsOf loc pending inst = es.map .code ++ .jump c l :: [])
  | call (hop : inst.opcode = .call) (h : itemsOf loc pending inst =
      (argumentCode loc pending).map .code ++ .callSite inst.funcName ::
        (callRax :: cleanupCode pending (loc inst.dest)).map .code)

theorem itemsOf_shape (loc : Nat → Location) (pending : List Nat) (inst : IRInstruction) :
    Shape loc pending inst := by
  have htest := testCode_steady (loc inst.src1)
  cases hop : inst.opcode
  case label => exact .label inst.labelId (by simp [itemsOf, hop])
  case jmp => exact .jump [] none inst.labelId steadyCode_nil (by simp [itemsOf, hop])
  case jz => exact .jump _ (some .e) inst.labelId htest (by simp [itemsOf, hop])
  case jnz => exact .jump _ (some .ne) inst.labelId htest (by simp [itemsOf, hop])
  case call => exact .call hop (by simp [itemsOf, hop])
  case arg => exact .straight (by simp [itemsOf, straightCode, hop])
  all_goals exact .straight (by simp only [itemsOf, hop])

/-- The code of an instruction that falls through. -/
theorem itemsOf_straight {es : List Encoded} (h : itemsOf loc pending inst = es.map .code) :
    es = straightCode loc inst := by
  cases itemsOf_shape loc pending inst with
  | straight h' => exact codes_eq (h.symm.trans h')
  | label l h' => exact absurd (h.symm.trans h') (codes_ne trivial)
  | jump es' c l _ h' => exact absurd (h.symm.trans h') (codes_ne trivial)
  | call _ h' => exact absurd (h.symm.trans h') (codes_ne trivial)

/-- The code before a jump. -/
theorem itemsOf_jump_steady {es : List Encoded} {c : Option Cond} {l : Nat}
    (h : itemsOf loc pending inst = es.map .code ++ [.jump c l]) : SteadyCode es := by
  cases itemsOf_shape loc pending inst with
  | straight h' => exact absurd (h'.symm.trans h) (codes_ne trivial)
  | label l' h' => cases (codes_inj (h.symm.trans h') trivial trivial).2.1
  | jump es' c' l' hsteady h' =>
    obtain ⟨rfl, -⟩ := codes_inj (h.symm.trans h') trivial trivial
    exact hsteady
  | call _ h' => cases (codes_inj (h.symm.trans h') trivial trivial).2.1

/-- The code around a call. -/
theorem itemsOf_call {es es' : List Encoded} {name : StringView}
    (h : itemsOf loc pending inst =
      es.map .code ++ .callSite name :: (callRax :: es').map .code) :
    inst.opcode = .call ∧ es = argumentCode loc pending ∧
      es' = cleanupCode pending (loc inst.dest) := by
  cases itemsOf_shape loc pending inst with
  | straight h' => exact absurd (h'.symm.trans h) (codes_ne trivial)
  | label l' h' => cases (codes_inj (h.symm.trans h') trivial trivial).2.1
  | jump es' c' l' _ h' => cases (codes_inj (h.symm.trans h') trivial trivial).2.1
  | call hop h' =>
    obtain ⟨rfl, -, hrest⟩ := codes_inj (h.symm.trans h') trivial trivial
    exact ⟨hop, rfl, (List.cons.inj (codes_eq hrest)).2⟩

end

/-! ## Every path is balanced -/

section

variable {s : State} {pt pt' : Point}

/-- The frame is made of words, and small enough for the arguments of every call. -/
theorem callDepth_bounds (hstack : f.stackCount ≤ maxIrInstructionsPerFunction)
    (hvreg : f.vregCount ≤ maxIrInstructionsPerFunction) (hcode : CodeEncodable [] f.instructions)
    {pre post : List IRInstruction} (hsplit : f.instructions = pre ++ post) :
    ∃ m, calculateAlignedStackSize f = 8 * m ∧ calculateAlignedStackSize f < 2 ^ 31 ∧
      (pendingAt [] pre).length ≤ 32 := by
  have hsize := stackSize_lt hstack hvreg
  have hpending := (hsplit ▸ hcode).pending_le (Nat.zero_le _)
  have heq := calculateAlignedStackSize_eq f
  refine ⟨calculateAlignedStackSize f / 8, ?_, hsize, hpending⟩
  split at heq <;> omega

/-- Code between two places that keeps the depth. -/
theorem Balanced.moves (h : Balanced f s pt) {es : List Encoded} {s' : State}
    (hmoves : Moves es (calculateAlignedStackSize f) (calculateAlignedStackSize f))
    (hexec : execCode es pt.state = some s') {before after : List IRInstruction}
    (hsplit : f.instructions = before ++ after) : Balanced f s ⟨before, after, s'⟩ := by
  obtain ⟨hdepth, hguard⟩ := hmoves _ _ h.depth hexec
  exact ⟨hsplit, hdepth, h.guard.trans hguard⟩

/-- One step of control keeps the balance. -/
theorem Balanced.step (hstack : f.stackCount ≤ maxIrInstructionsPerFunction)
    (hvreg : f.vregCount ≤ maxIrInstructionsPerFunction) (hcode : CodeEncodable [] f.instructions)
    (hlocals : ∀ inst ∈ f.instructions, LocalsBelow f.stackCount inst) (h : Balanced f s pt)
    (hflow : Flow ctx f p pt pt') : Balanced f s pt' := by
  cases hflow with
  | @straight pre post inst es s₁ s' hitems hexec =>
    have hsplit : f.instructions = pre ++ inst :: post := h.split
    obtain rfl := itemsOf_straight hitems
    have hret : inst.opcode ≠ .ret := by
      intro hop
      have hmem : ret ∈ straightCode (locationsAt ctx f p pre inst) inst := by
        simp [straightCode, hop, epilogueCode]
      have hstops := execCode_stops hmem (fun _ => rfl) s₁
      rw [hexec] at hstops
      cases hstops
    have hsteady := straightCode_steady hstack (hlocals inst (by simp [hsplit]))
      (fun v hv => locationsAt_wellPlaced ctx p hstack hcode hsplit hv) hret
    exact h.moves (.steady hsteady _) hexec (by simp [hsplit])
  | @label pre post inst l s₁ hitems =>
    have hsplit : f.instructions = pre ++ inst :: post := h.split
    exact h.moves (.nil _) rfl (by simp [hsplit])
  | jump hitems hexec htaken hsplit' hlabel =>
    exact h.moves (.steady (itemsOf_jump_steady hitems) _) hexec hsplit'
  | @past pre post inst es c l s₁ s' fl hitems hexec hflags hc =>
    have hsplit : f.instructions = pre ++ inst :: post := h.split
    exact h.moves (.steady (itemsOf_jump_steady hitems) _) hexec (by simp [hsplit])
  | @call pre post inst es es' name s₁ s₂ s₃ s' target hitems hbefore hcallee hafter =>
    have hsplit : f.instructions = pre ++ inst :: post := h.split
    obtain ⟨hop, rfl, rfl⟩ := itemsOf_call hitems
    obtain ⟨m, hm, hsize, hpending⟩ := callDepth_bounds hstack hvreg hcode hsplit
    have hmax : maxDepth = 2 ^ 32 := rfl
    have hcall := callCode_moves (locationsAt ctx f p pre inst) (pendingAt [] pre) target
      (d := calculateAlignedStackSize f) (by omega)
    obtain ⟨hdepth₂, hguard₂⟩ := hcall s₁ _ h.depth (execCode_seq hbefore rfl)
    obtain ⟨hdepth₃, hguard₃⟩ := hcallee.guarded hdepth₂
      (j := m + stackArgCount (pendingAt [] pre) % 2)
      (by unfold callWords; omega) (by unfold callWords stackArgCount; omega)
    have hdest : inst.dest ∈ touched (pendingAt [] pre) inst := by simp [touched, hop]
    have hclean := cleanupCode_moves (pendingAt [] pre)
      (locationsAt_wellPlaced ctx p hstack hcode hsplit hdest)
      hpending (calculateAlignedStackSize f)
    obtain ⟨hdepth', hguard'⟩ := hclean _ _ hdepth₃ hafter
    exact ⟨by simp [hsplit], hdepth',
      h.guard.trans (hguard₂.trans (hguard₃.trans hguard'))⟩

/-- Every place of every path is balanced. -/
theorem Balanced.path (hstack : f.stackCount ≤ maxIrInstructionsPerFunction)
    (hvreg : f.vregCount ≤ maxIrInstructionsPerFunction) (hcode : CodeEncodable [] f.instructions)
    (hlocals : ∀ inst ∈ f.instructions, LocalsBelow f.stackCount inst) (h : Balanced f s pt)
    (hpath : Relation.ReflTransGen (Flow ctx f p) pt pt') : Balanced f s pt' := by
  induction hpath with
  | refl => exact h
  | tail _ hflow ih => exact ih.step hstack hvreg hcode hlocals hflow

end

/-- The items of instructions behind others, one instruction after the other. -/
theorem planItems_itemsAt (ctx : JITContext) (f : IRFunction) (p : Nat)
    (pre rest : List IRInstruction) :
    ((ctx.entered f p).afterAll pre).planItems rest =
      (rest.mapIdx fun k inst => itemsAt ctx f p (pre ++ rest.take k) inst).flatten := by
  induction rest generalizing pre with
  | nil => rfl
  | cons inst rest ih =>
    have hafter : ((ctx.entered f p).afterAll pre).after inst =
        (ctx.entered f p).afterAll (pre ++ [inst]) := by
      rw [JITContext.afterAll_append]
      rfl
    have hrest := ih (pre ++ [inst])
    rw [← hafter] at hrest
    rw [JITContext.planItems, entered_pendingCall, hrest, List.mapIdx_cons, List.flatten_cons]
    simp only [List.take_zero, List.append_nil, List.take_succ_cons, List.append_assoc,
      List.singleton_append]
    rfl

/-- The paths are those of the code that `jit_compile_function` emits: in the buffer is the
prologue, and behind it the code of one instruction after the other. -/
theorem compiled_plan {f : IRFunction} {p : Nat} {code : Ptr} {s : JITState}
    (h : Compilable p f) (hlimit : f.instructions.length < maxIrInstructionsPerFunction)
    (hlabels : LabelsFit 0 f.labelCount f.instructions)
    (hbuf : Buffer code (functionSize s.ctx f p)) (name : StringView) :
    ∃ result s', jitCompileFunction f name p code s = some (.returned result, s') ∧
      readBytes s'.mem code (functionSize s.ctx f p) =
        codeBytes ((prologueOf s.ctx f p).map .code ++
          (f.instructions.mapIdx fun k inst =>
            itemsAt s.ctx f p (f.instructions.take k) inst).flatten) := by
  refine ⟨_, _, jitCompileFunction_returns h hlimit name code s, ?_⟩
  have hitems := planItems_itemsAt s.ctx f p [] f.instructions
  simp only [List.nil_append, JITContext.afterAll, List.foldl_nil] at hitems
  rw [registeredState_mem, compiled_bytes h hlabels hbuf, functionItems, hitems]

/-- What the instruction at a place finds: at a call `rsp` is a multiple of sixteen when the
call instruction executes, and a return restores what the prologue saved in `s₀`. -/
def Meets (ctx : JITContext) (f : IRFunction) (p : Nat) (s₀ : State) (pt : Point) : Prop :=
  ∀ inst post, pt.after = inst :: post →
    (inst.opcode = .call → ∀ target, ∃ s₁,
      execCode (callCode (locationsAt ctx f p pt.before inst) (pendingAt [] pt.before) target)
        pt.state = some s₁ ∧ (s₁.regs .rsp).toNat % 16 = 0) ∧
    (inst.opcode = .ret → ∃ s₁,
      execCode (loadCode .rax (locationsAt ctx f p pt.before inst inst.src1) ++ restoreCode)
        pt.state = some s₁ ∧ Restored s₀ s₁)

/-- Entered with `rsp` eight bytes off a multiple of sixteen, a function keeps `rsp` between
its instructions on every path, aligns it at every call and restores it at every return. -/
theorem stack_balanced (ctx : JITContext) (f : IRFunction) (p : Nat)
    (hstack : f.stackCount ≤ maxIrInstructionsPerFunction)
    (hvreg : f.vregCount ≤ maxIrInstructionsPerFunction) (hp : p < maxVregsPerFunction)
    (hcode : CodeEncodable [] f.instructions)
    (hlocals : ∀ inst ∈ f.instructions, LocalsBelow f.stackCount inst) (s₀ : State)
    (halign : (s₀.regs .rsp).toNat % 16 = 8) :
    ∃ s, execCode (prologueOf ctx f p) s₀ = some s ∧
      ∀ pt, Relation.ReflTransGen (Flow ctx f p) ⟨[], f.instructions, s⟩ pt →
        pt.state.regs .rsp = s.regs .rsp ∧ Meets ctx f p s₀ pt := by
  obtain ⟨s, hrun, hrbp, hwords, hdepth⟩ := prologue_entered ctx hstack hvreg hp s₀
  refine ⟨s, hrun, fun pt hpath => ?_⟩
  have hstart : Balanced f s ⟨[], f.instructions, s⟩ := ⟨rfl, hdepth, .refl s⟩
  obtain ⟨hsplit, hdepth', hguard⟩ := hstart.path hstack hvreg hcode hlocals hpath
  refine ⟨?_, fun inst post hafter => ⟨fun hop target => ?_, fun hop => ?_⟩⟩
  · rw [hdepth', hguard.rbp, hdepth]
  · rw [hafter] at hsplit
    obtain ⟨m, hm, hsize, hpending⟩ := callDepth_bounds hstack hvreg hcode hsplit
    have hmax : maxDepth = 2 ^ 32 := rfl
    obtain ⟨s₁, hs₁⟩ := execCode_total
      (callCode_total (locationsAt ctx f p pt.before inst) (pendingAt [] pt.before) target) pt.state
    have hcall := callCode_moves (locationsAt ctx f p pt.before inst) (pendingAt [] pt.before)
      target (d := calculateAlignedStackSize f) (by omega)
    obtain ⟨hdepth₁, hguard₁⟩ := hcall _ _ hdepth' hs₁
    refine ⟨s₁, hs₁, ?_⟩
    have hrsp : s₁.regs .rsp = s₀.regs .rsp - 8 - BitVec.ofNat 64
        (40 + (calculateAlignedStackSize f + 8 * callWords (pendingAt [] pt.before))) := by
      rw [hdepth₁, hguard₁.rbp, hguard.rbp, hrbp]
      rfl
    obtain ⟨a, ha⟩ := stackSize_aligned f
    obtain ⟨b, hb⟩ := callWords_even (pendingAt [] pt.before)
    rw [hrsp, hb]
    generalize calculateAlignedStackSize f = size at ha hsize
    have hb' : b ≤ 16 := by
      unfold callWords stackArgCount at hb
      omega
    bv_omega
  · obtain ⟨s₁, hs₁⟩ := execCode_total (loadCode_total .rax
      (locationsAt ctx f p pt.before inst inst.src1)) pt.state
    obtain ⟨-, hguard₁⟩ := execCode_steady (loadCode_steady free_rax _) hs₁
    obtain ⟨s₂, hs₂, hrestored⟩ := exec_restoreCode
      ((hguard₁.rbp.trans hguard.rbp).trans hrbp) ((hguard₁.words.trans hguard.words).trans hwords)
    exact ⟨s₂, execCode_seq hs₁ hs₂, hrestored⟩

end

theorem stack_balanced_callG :
    ∃ g s, irGen .zeroed callG .init none = .ok (true, g) ∧
      execCode (prologueOf jitCtxInit g.f 0) ⟨fun _ => 0x7fff0008, none, fun _ => 0⟩ = some s ∧
      ∀ pt, Relation.ReflTransGen (Flow jitCtxInit g.f 0) ⟨[], g.f.instructions, s⟩ pt →
        pt.state.regs .rsp = s.regs .rsp ∧
          Meets jitCtxInit g.f 0 ⟨fun _ => 0x7fff0008, none, fun _ => 0⟩ pt := by
  obtain ⟨g, hgen, herrors, -⟩ :=
    exists_of_generates (show generates .zeroed callG .init none = true by decide +kernel)
  obtain ⟨hf, -, -, -⟩ := irGen_wellFormed hgen herrors
  have hwith : generatesWith .zeroed callG .init none (fun g =>
      decide (g.f.stackCount = 0 ∧ g.f.vregCount ≤ 100 ∧
        ∀ inst ∈ g.f.instructions, inst.opcode ≠ .load ∧ inst.opcode ≠ .store)) = true := by
    decide +kernel
  obtain ⟨g', hgen', hproperty⟩ := exists_of_generatesWith hwith
  obtain ⟨hstack, hvreg, hops⟩ := of_decide_eq_true hproperty
  obtain rfl : g = g' := (Prod.mk.inj (Except.ok.inj (hgen.symm.trans hgen'))).2
  have hmax : maxIrInstructionsPerFunction = 65536 := rfl
  obtain ⟨s, hrun, hpaths⟩ := stack_balanced jitCtxInit g.f 0 (by omega) (by omega) (by decide)
    (wellFormed_encodable hf)
    (fun inst hinst =>
      ⟨fun h => absurd h (hops inst hinst).1, fun h => absurd h (hops inst hinst).2⟩)
    ⟨fun _ => 0x7fff0008, none, fun _ => 0⟩ (by decide)
  exact ⟨g, s, hgen, hrun, hpaths⟩

end TinyCompile.Jit
