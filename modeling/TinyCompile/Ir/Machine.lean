import TinyCompile.Ir.Eval
import TinyCompile.Ir.Facts
import TinyCompile.Logic.Iterate

set_option autoImplicit false

/-!
# Ir: running the instructions of a function

A linear interpreter.  Registers and stack slots hold 64-bit values, arguments are
collected until the call that takes them, and what a call returns is asked of an oracle.
The run is stuck where a division traps, where a call does not return, where a jump has no
label and behind the last instruction.
-/

namespace TinyCompile.Ir

open TinyCompile.Machine TinyCompile.Source TinyCompile.Logic

/-! ## The machine -/

/-- A call of a function by name. -/
structure Call where
  name : StringView
  args : List Word
  deriving DecidableEq, Repr

/-- What calls return; `none` where a call does not return. -/
abbrev Oracle := Call → Option Word

/-- The state of a run: registers, slots, the arguments collected for the next call, and
the calls made so far. -/
structure RunState where
  regs : Nat → Word
  slots : Nat → Word
  args : List Word
  calls : List Call

/-- Write a register. -/
def RunState.setReg (s : RunState) (r : Nat) (v : Word) : RunState :=
  { s with regs := Function.update s.regs r v }

/-- Write a slot. -/
def RunState.setSlot (s : RunState) (i : Nat) (v : Word) : RunState :=
  { s with slots := Function.update s.slots i v }

/-- An instruction behind which the next one follows. -/
def execInst (oracle : Oracle) (inst : IRInstruction) (s : RunState) : Option RunState :=
  match inst.opcode with
  | .const => some (s.setReg inst.dest inst.imm)
  | .load => some (s.setReg inst.dest (loadSlot (typeSize inst.type) (s.slots inst.src1)))
  | .store =>
      some (s.setSlot inst.dest
        (storeSlot (typeSize inst.type) (s.slots inst.dest) (s.regs inst.src1)))
  | .arg => some { s with args := s.args ++ [s.regs inst.src1] }
  | .call => do
      let call : Call := ⟨inst.funcName, s.args⟩
      let v ← oracle call
      some ({ s with args := [], calls := s.calls ++ [call] }.setReg inst.dest v)
  | .label => some s
  | .jmp | .jz | .jnz | .ret => none
  | op => (evalOp (s.regs inst.src1) (s.regs inst.src2) op).map (s.setReg inst.dest)

/-- Where the first label with a number stands. -/
def labelPosition (code : List IRInstruction) (label : Nat) : Option Nat :=
  code.findIdx? fun inst => inst.labelDef == some label

/-- The next instruction, and the state in front of it. -/
abbrev Config := Nat × RunState

/-- Go on at a label. -/
def jumpTo (code : List IRInstruction) (label : Nat) (s : RunState) :
    Option (Turn Config (Word × RunState)) :=
  (labelPosition code label).map fun pc => .again (pc, s)

/-- What the instruction at a position does; a return leaves with its value. -/
def stepInst (oracle : Oracle) (code : List IRInstruction) (inst : IRInstruction) (pc : Nat)
    (s : RunState) : Option (Turn Config (Word × RunState)) :=
  match inst.opcode with
  | .ret => some (.leave (s.regs inst.src1, s))
  | .jmp => jumpTo code inst.labelId s
  | .jz =>
      if s.regs inst.src1 = 0 then jumpTo code inst.labelId s else some (.again (pc + 1, s))
  | .jnz =>
      if s.regs inst.src1 = 0 then some (.again (pc + 1, s)) else jumpTo code inst.labelId s
  | _ => (execInst oracle inst s).map fun s' => .again (pc + 1, s')

/-- A turn of the interpreter. -/
def runStep (oracle : Oracle) (code : List IRInstruction) (c : Config) :
    Option (Turn Config (Word × RunState)) :=
  code[c.1]?.bind fun inst => stepInst oracle code inst c.1 c.2

/-! ## Registers and slots -/

section

variable (s : RunState) (r i : Nat) (v : Word)

@[simp] theorem setReg_regs_same : (s.setReg r v).regs r = v := by
  show Function.update s.regs r v r = v
  exact Function.update_self r v s.regs

theorem setReg_regs_of_ne {r' : Nat} (h : r' ≠ r) : (s.setReg r v).regs r' = s.regs r' := by
  show Function.update s.regs r v r' = s.regs r'
  exact Function.update_of_ne h v s.regs

theorem setSlot_slots_same : (s.setSlot i v).slots i = v := by
  show Function.update s.slots i v i = v
  exact Function.update_self i v s.slots

theorem setSlot_slots_of_ne {i' : Nat} (h : i' ≠ i) : (s.setSlot i v).slots i' = s.slots i' := by
  show Function.update s.slots i v i' = s.slots i'
  exact Function.update_of_ne h v s.slots

@[simp] theorem setReg_slots : (s.setReg r v).slots = s.slots := rfl
@[simp] theorem setReg_args : (s.setReg r v).args = s.args := rfl
@[simp] theorem setReg_calls : (s.setReg r v).calls = s.calls := rfl
@[simp] theorem setSlot_regs : (s.setSlot i v).regs = s.regs := rfl
@[simp] theorem setSlot_args : (s.setSlot i v).args = s.args := rfl
@[simp] theorem setSlot_calls : (s.setSlot i v).calls = s.calls := rfl

end

/-! ## Straight code -/

/-- Execute instructions one after the other. -/
def execAll (oracle : Oracle) : List IRInstruction → RunState → Option RunState
  | [], s => some s
  | inst :: code, s => (execInst oracle inst s).bind (execAll oracle code)

section

variable (oracle : Oracle) {code seg seg' : List IRInstruction} {inst : IRInstruction}
  {s s' : RunState} {pc : Nat}

theorem execAll_append : execAll oracle (seg ++ seg') s =
    (execAll oracle seg s).bind (execAll oracle seg') := by
  induction seg generalizing s with
  | nil => rfl
  | cons inst seg ih =>
    show (execInst oracle inst s).bind (execAll oracle (seg ++ seg')) =
      ((execInst oracle inst s).bind (execAll oracle seg)).bind (execAll oracle seg')
    cases execInst oracle inst s with
    | none => rfl
    | some s₁ => exact ih

theorem execAll_one : execAll oracle [inst] s = execInst oracle inst s := Option.bind_fun_some _

/-- A piece of code stands at a position. -/
def StandsAt (code : List IRInstruction) (pc : Nat) (seg : List IRInstruction) : Prop :=
  ∃ pre post, code = pre ++ seg ++ post ∧ pre.length = pc

theorem StandsAt.left (h : StandsAt code pc (seg ++ seg')) : StandsAt code pc seg := by
  obtain ⟨pre, post, rfl, hpc⟩ := h
  exact ⟨pre, seg' ++ post, by simp only [List.append_assoc], hpc⟩

theorem StandsAt.right (h : StandsAt code pc (seg ++ seg')) :
    StandsAt code (pc + seg.length) seg' := by
  obtain ⟨pre, post, rfl, rfl⟩ := h
  exact ⟨pre ++ seg, post, by simp only [List.append_assoc], List.length_append⟩

theorem StandsAt.get (h : StandsAt code pc (inst :: seg)) : code[pc]? = some inst := by
  obtain ⟨pre, post, rfl, rfl⟩ := h
  simp

theorem StandsAt.tail (h : StandsAt code pc (inst :: seg)) : StandsAt code (pc + 1) seg :=
  (show StandsAt code pc ([inst] ++ seg) from h).right

theorem runStep_eq (hget : code[pc]? = some inst) :
    runStep oracle code (pc, s) = stepInst oracle code inst pc s := by
  unfold runStep
  rw [hget]
  rfl

/-- A turn over an instruction that neither jumps nor returns. -/
theorem runStep_straight (hget : code[pc]? = some inst) (htarget : inst.target = none)
    (hret : inst.opcode ≠ .ret) : runStep oracle code (pc, s) =
      (execInst oracle inst s).map fun s' => .again (pc + 1, s') := by
  rw [runStep_eq oracle hget]
  unfold stepInst
  split
  · exact absurd ‹_› hret
  all_goals first
    | rfl
    | simp [IRInstruction.target, *] at htarget

/-- Neither a jump nor a return. -/
def Straight (seg : List IRInstruction) : Prop :=
  ∀ inst ∈ seg, inst.target = none ∧ inst.opcode ≠ .ret

/-- Straight code runs as it executes. -/
theorem leads_execAll (h : StandsAt code pc seg) (hseg : Straight seg)
    (hexec : execAll oracle seg s = some s') :
    Leads (runStep oracle code) (pc, s) (pc + seg.length, s') := by
  induction seg generalizing pc s with
  | nil =>
    cases hexec
    exact .refl _
  | cons inst seg ih =>
    obtain ⟨htarget, hret⟩ := hseg inst (by simp)
    obtain ⟨s₁, hinst, hrest⟩ := Option.bind_eq_some_iff.mp hexec
    have hstep := runStep_straight oracle (s := s) h.get htarget hret
    rw [hinst] at hstep
    have hlead := ih h.tail (fun i hi => hseg i (by simp [hi])) hrest
    rw [List.length_cons, Nat.add_comm seg.length, ← Nat.add_assoc]
    exact (Leads.one hstep).trans hlead

/-- Straight code that gets stuck leads to no result. -/
theorem stuck_execAll (h : StandsAt code pc seg) (hseg : Straight seg)
    (hexec : execAll oracle seg s = none) (w : Word × RunState) :
    ¬ Results (runStep oracle code) (pc, s) w := by
  induction seg generalizing pc s with
  | nil => cases hexec
  | cons inst seg ih =>
    obtain ⟨htarget, hret⟩ := hseg inst (by simp)
    have hstep := runStep_straight oracle (s := s) h.get htarget hret
    rintro ⟨n, hn⟩
    obtain ⟨m, rfl, hleave | ⟨c, hagain, hrest⟩⟩ := iterate_cases hn
    · rw [hstep] at hleave
      obtain ⟨s₁, -, hs₁⟩ := Option.map_eq_some_iff.mp hleave
      cases hs₁
    · rw [hstep] at hagain
      obtain ⟨s₁, hinst, hs₁⟩ := Option.map_eq_some_iff.mp hagain
      cases hs₁
      have hnone : execAll oracle seg s₁ = none := by
        unfold execAll at hexec
        rwa [hinst] at hexec
      exact ih h.tail (fun i hi => hseg i (by simp [hi])) hnone ⟨m, hrest⟩

/-! ## Labels and jumps -/

/-- A label is found where it stands, if the labels of the code are distinct. -/
theorem labelPosition_eq {label : Nat} (hnodup : (labelsOf code).Nodup)
    (h : StandsAt code pc (inst :: seg)) (hlabel : inst.labelDef = some label) :
    labelPosition code label = some pc := by
  obtain ⟨pre, post, rfl, rfl⟩ := h
  have hnot : ∀ i ∈ pre, (i.labelDef == some label) = false := by
    intro i hi
    rw [List.append_assoc, labelsOf_append] at hnodup
    have hlater : label ∈ labelsOf (inst :: seg ++ post) :=
      List.mem_filterMap.mpr ⟨inst, by simp, hlabel⟩
    have hne := (List.nodup_append.mp hnodup).2.2
    by_contra hsome
    have hdef : i.labelDef = some label := by simpa using hsome
    exact hne label (List.mem_filterMap.mpr ⟨i, hi, hdef⟩) label hlater rfl
  unfold labelPosition
  rw [List.append_assoc, List.findIdx?_append, List.findIdx?_eq_none_iff.mpr hnot,
    List.cons_append, List.findIdx?_cons]
  simp [hlabel]

/-- A jump leads to its label. -/
theorem jumpTo_eq {label target : Nat} (hnodup : (labelsOf code).Nodup)
    (h : StandsAt code target (inst :: seg)) (hlabel : inst.labelDef = some label) :
    jumpTo code label s = some (.again (target, s)) := by
  unfold jumpTo
  rw [labelPosition_eq hnodup h hlabel]
  rfl

theorem runStep_label (h : StandsAt code pc (inst :: seg)) (hop : inst.opcode = .label) :
    runStep oracle code (pc, s) = some (.again (pc + 1, s)) := by
  rw [runStep_eq oracle h.get]
  unfold stepInst execInst
  rw [hop]
  rfl

theorem leads_label (h : StandsAt code pc (inst :: seg)) (hop : inst.opcode = .label) :
    Leads (runStep oracle code) (pc, s) (pc + 1, s) :=
  .one (runStep_label oracle h hop)

theorem leads_jmp {target : Nat} {dest : IRInstruction} (hnodup : (labelsOf code).Nodup)
    (h : StandsAt code pc (inst :: seg)) (hop : inst.opcode = .jmp)
    (htarget : StandsAt code target (dest :: seg')) (hdest : dest.labelDef = some inst.labelId) :
    Leads (runStep oracle code) (pc, s) (target, s) := by
  refine .one ?_
  rw [runStep_eq oracle h.get]
  unfold stepInst
  rw [hop]
  exact jumpTo_eq hnodup htarget hdest

theorem leads_jz_taken {target : Nat} {dest : IRInstruction} (hnodup : (labelsOf code).Nodup)
    (h : StandsAt code pc (inst :: seg)) (hop : inst.opcode = .jz)
    (hzero : s.regs inst.src1 = 0) (htarget : StandsAt code target (dest :: seg'))
    (hdest : dest.labelDef = some inst.labelId) :
    Leads (runStep oracle code) (pc, s) (target, s) := by
  refine .one ?_
  rw [runStep_eq oracle h.get]
  unfold stepInst
  rw [hop]
  refine (if_pos hzero).trans ?_
  exact jumpTo_eq hnodup htarget hdest

theorem leads_jz_not_taken (h : StandsAt code pc (inst :: seg)) (hop : inst.opcode = .jz)
    (hne : s.regs inst.src1 ≠ 0) : Leads (runStep oracle code) (pc, s) (pc + 1, s) := by
  refine .one ?_
  rw [runStep_eq oracle h.get]
  unfold stepInst
  rw [hop]
  exact if_neg hne

theorem results_ret (h : StandsAt code pc (inst :: seg)) (hop : inst.opcode = .ret) :
    Results (runStep oracle code) (pc, s) (s.regs inst.src1, s) := by
  have hstep : runStep oracle code (pc, s) = some (.leave (s.regs inst.src1, s)) := by
    rw [runStep_eq oracle h.get]
    unfold stepInst
    rw [hop]
  exact ⟨1, iterate_leave hstep⟩

end

/-! ## Other oracles -/

/-- Oracles that agree where both answer. -/
def Agree (oracle oracle' : Oracle) : Prop :=
  ∀ call v v', oracle call = some v → oracle' call = some v' → v = v'

theorem execInst_agree {oracle oracle' : Oracle} (horacle : Agree oracle oracle')
    {inst : IRInstruction} (hcall : inst.opcode = .call) {s t t' : RunState}
    (h : execInst oracle inst s = some t) (h' : execInst oracle' inst s = some t') : t = t' := by
  unfold execInst at h h'
  rw [hcall] at h h'
  obtain ⟨v, hv, hend⟩ := Option.bind_eq_some_iff.mp h
  obtain ⟨v', hv', hend'⟩ := Option.bind_eq_some_iff.mp h'
  rw [horacle _ v v' hv hv'] at hend
  exact Option.some.inj (hend.symm.trans hend')

/-- Only a call asks the oracle. -/
theorem stepInst_eq (oracle oracle' : Oracle) (code : List IRInstruction) {inst : IRInstruction}
    (hcall : inst.opcode ≠ .call) (pc : Nat) (s : RunState) :
    stepInst oracle code inst pc s = stepInst oracle' code inst pc s := by
  unfold stepInst execInst
  cases hop : inst.opcode <;> first | rfl | exact absurd hop hcall

/-- Where the oracles agree, so do the turns of the interpreter. -/
theorem runStep_agree {oracle oracle' : Oracle} (horacle : Agree oracle oracle')
    {code : List IRInstruction} (c : Config) (t t' : Turn Config (Word × RunState))
    (h : runStep oracle code c = some t) (h' : runStep oracle' code c = some t') : t = t' := by
  obtain ⟨inst, hinst, hstep⟩ := Option.bind_eq_some_iff.mp h
  obtain ⟨inst', hinst', hstep'⟩ := Option.bind_eq_some_iff.mp h'
  cases hinst.symm.trans hinst'
  by_cases hcall : inst.opcode = .call
  · unfold stepInst at hstep hstep'
    rw [hcall] at hstep hstep'
    obtain ⟨s, hs, rfl⟩ := Option.map_eq_some_iff.mp hstep
    obtain ⟨s', hs', rfl⟩ := Option.map_eq_some_iff.mp hstep'
    rw [execInst_agree horacle hcall hs hs']
  · rw [stepInst_eq oracle oracle' code hcall] at hstep
    exact Option.some.inj (hstep.symm.trans hstep')

/-! ## Functions that start -/

/-- A state of the interpreter in which a function starts on these arguments: argument number
`k` is in register `k + 1`, and the rest is whatever it is. -/
structure Receives (args : List Word) (rs : RunState) : Prop where
  regs : ∀ k (hk : k < args.length), rs.regs (k + 1) = args[k]
  args : rs.args = []

/-- Instructions return a value on these arguments, whatever the other registers and the slots
hold at the start. -/
def ReturnsOn (oracle : Oracle) (code : List IRInstruction) (args : List Word) (v : Word) : Prop :=
  ∀ rs, Receives args rs → ∃ w, Results (runStep oracle code) (0, rs) (v, w)

end TinyCompile.Ir
