import TinyCompile.Ir.Generated
import TinyCompile.Ir.StmtRuns

set_option autoImplicit false

/-!
# Ir: where a run ends

`gen_return` emits nothing for a return without an expression, and nothing is emitted behind
the last statement of a function.  A run comes to the end of the instructions exactly where
the statements of the function come to their end.
-/

namespace TinyCompile.Ir

open TinyCompile.Machine TinyCompile.Source TinyCompile.Logic

/-! ## Stopping -/

/-- An instruction behind which the run does not go on because the process ends in it, or
because it waits for a function that does not return. -/
def NeverLeft (oracle : Oracle) (inst : IRInstruction) (s : RunState) : Prop :=
  inst.opcode = .div ∧ quotient (s.regs inst.src1) (s.regs inst.src2) = none ∨
    inst.opcode = .call ∧ oracle ⟨inst.funcName, s.args⟩ = none

/-- A run never comes to the end of the instructions: wherever it is there is an instruction,
and behind it the run goes on unless it is a return.  Traps and calls that do not return are
not counted as stops. -/
def StopsAtRet (oracle : Oracle) (code : List IRInstruction) (start : RunState) : Prop :=
  ∀ pc s, Leads (runStep oracle code) (0, start) (pc, s) → ∃ inst, code[pc]? = some inst ∧
    (inst.opcode = .ret ∨ NeverLeft oracle inst s ∨
      ∃ c, runStep oracle code (pc, s) = some (.again c))

section

variable {oracle : Oracle} {code : List IRInstruction} {inst : IRInstruction}

theorem mem_of_labelPosition {label pc : Nat} (h : labelPosition code label = some pc) :
    pc < code.length := (List.findIdx?_eq_some_iff_getElem.mp h).1

theorem exists_labelPosition {label : Nat} (h : label ∈ labelsOf code) :
    ∃ pc, labelPosition code label = some pc := by
  obtain ⟨inst, hinst, hdef⟩ := List.mem_filterMap.mp h
  have hsome : (labelPosition code label).isSome = true := by
    unfold labelPosition
    rw [List.findIdx?_isSome, List.any_eq_true]
    exact ⟨inst, hinst, by simp [hdef]⟩
  exact Option.isSome_iff_exists.mp hsome

/-- A jump to a label that is there goes on. -/
theorem jumpTo_again {label : Nat} (h : label ∈ labelsOf code) (s : RunState) :
    ∃ c, jumpTo code label s = some (.again c) := by
  obtain ⟨pc, hpc⟩ := exists_labelPosition h
  refine ⟨(pc, s), ?_⟩
  unfold jumpTo
  rw [hpc]
  rfl

/-- An instruction that neither jumps nor returns goes on, or is never left. -/
theorem execInst_goes (htarget : inst.target = none) (hret : inst.opcode ≠ .ret)
    (s : RunState) : NeverLeft oracle inst s ∨ ∃ s', execInst oracle inst s = some s' := by
  unfold execInst NeverLeft
  cases hop : inst.opcode with
  | div =>
    cases hquotient : quotient (s.regs inst.src1) (s.regs inst.src2) with
    | none => exact .inl (.inl ⟨rfl, rfl⟩)
    | some v => exact .inr ⟨s.setReg inst.dest v, by simp [evalOp, hquotient]⟩
  | call =>
    cases hcall : oracle ⟨inst.funcName, s.args⟩ with
    | none => exact .inl (.inr ⟨rfl, rfl⟩)
    | some v => exact .inr (Option.isSome_iff_exists.mp (by simp [hcall]))
  | ret => exact absurd hop hret
  | jmp | jz | jnz => simp [IRInstruction.target, hop] at htarget
  | _ => exact .inr ⟨_, rfl⟩

/-- Behind every instruction the run goes on, unless the instruction returns or is never
left. -/
theorem runStep_goes {pc : Nat} (htargets : ∀ l ∈ targetsOf code, l ∈ labelsOf code)
    (hget : code[pc]? = some inst) (s : RunState) :
    inst.opcode = .ret ∨ NeverLeft oracle inst s ∨
      ∃ c, runStep oracle code (pc, s) = some (.again c) := by
  have hmem : inst ∈ code := List.mem_of_getElem? hget
  have hjump : ∀ l, inst.target = some l → ∃ c, jumpTo code l s = some (.again c) := fun l hl =>
    jumpTo_again (htargets l (List.mem_filterMap.mpr ⟨inst, hmem, hl⟩)) s
  by_cases hret : inst.opcode = .ret
  · exact .inl hret
  by_cases htarget : inst.target = none
  · rcases execInst_goes htarget hret s with hnever | ⟨s', hs'⟩
    · exact .inr (.inl hnever)
    · refine .inr (.inr ⟨(pc + 1, s'), ?_⟩)
      rw [runStep_straight oracle hget htarget hret, hs']
      rfl
  · refine .inr (.inr ?_)
    rw [runStep_eq oracle hget]
    unfold stepInst
    unfold IRInstruction.target at htarget hjump
    cases hop : inst.opcode with
    | jmp =>
      rw [hop] at hjump
      exact hjump _ rfl
    | jz =>
      rw [hop] at hjump
      by_cases hzero : s.regs inst.src1 = 0
      · simp only [if_pos hzero]
        exact hjump _ rfl
      · simp only [if_neg hzero]
        exact ⟨_, rfl⟩
    | jnz =>
      rw [hop] at hjump
      by_cases hzero : s.regs inst.src1 = 0
      · simp only [if_pos hzero]
        exact ⟨_, rfl⟩
      · simp only [if_neg hzero]
        exact hjump _ rfl
    | _ =>
      rw [hop] at htarget
      exact absurd rfl htarget

/-! ## Positions -/

/-- A turn starts at an instruction. -/
theorem lt_of_runStep {c : Config} {t : Turn Config (Word × RunState)}
    (h : runStep oracle code c = some t) : c.1 < code.length := by
  obtain ⟨inst, hget, -⟩ := Option.bind_eq_some_iff.mp h
  exact (List.getElem?_eq_some_iff.mp hget).1

theorem jumpTo_le {label : Nat} {s : RunState} {c : Config}
    (h : jumpTo code label s = some (.again c)) : c.1 ≤ code.length := by
  obtain ⟨pc, hpc, hc⟩ := Option.map_eq_some_iff.mp h
  cases hc
  exact Nat.le_of_lt (mem_of_labelPosition hpc)

/-- A turn leads to an instruction, or to the end. -/
theorem runStep_le {c c' : Config} (h : runStep oracle code c = some (.again c')) :
    c'.1 ≤ code.length := by
  have hlt := lt_of_runStep h
  obtain ⟨inst, hget, hstep⟩ := Option.bind_eq_some_iff.mp h
  unfold stepInst at hstep
  cases hop : inst.opcode with
  | ret =>
    rw [hop] at hstep
    cases hstep
  | jmp =>
    rw [hop] at hstep
    exact jumpTo_le hstep
  | jz =>
    simp only [hop] at hstep
    split at hstep
    · exact jumpTo_le hstep
    · cases hstep
      exact hlt
  | jnz =>
    simp only [hop] at hstep
    split at hstep
    · cases hstep
      exact hlt
    · exact jumpTo_le hstep
  | _ =>
    rw [hop] at hstep
    obtain ⟨s', -, hc⟩ := Option.map_eq_some_iff.mp hstep
    cases hc
    exact hlt

/-- A run that stops elsewhere than at a return is at the end of the instructions. -/
theorem stopsAtRet_iff_end (htargets : ∀ l ∈ targetsOf code, l ∈ labelsOf code)
    (start : RunState) : StopsAtRet oracle code start ↔
      ¬ ∃ s, Leads (runStep oracle code) (0, start) (code.length, s) := by
  constructor
  · rintro hstops ⟨s, hlead⟩
    obtain ⟨inst, hget, -⟩ := hstops _ s hlead
    rw [List.getElem?_eq_none (Nat.le_refl _)] at hget
    cases hget
  · intro hend pc s hlead
    have hle : pc ≤ code.length := hlead.keeps (P := fun c => c.1 ≤ code.length)
      (fun c c' hstep _ => runStep_le hstep) (Nat.zero_le _)
    have hne : pc ≠ code.length := by
      rintro rfl
      exact hend ⟨s, hlead⟩
    have hget := List.getElem?_eq_getElem (Nat.lt_of_le_of_ne hle hne)
    exact ⟨_, hget, runStep_goes htargets hget s⟩

/-! ## More instructions behind the code -/

/-- Instructions behind the code change no turn in it. -/
theorem runStep_append {rest : List IRInstruction} (c : Config)
    (t : Turn Config (Word × RunState)) (h : runStep oracle code c = some t) :
    runStep oracle (code ++ rest) c = some t := by
  have hposition : ∀ l pc, labelPosition code l = some pc →
      labelPosition (code ++ rest) l = some pc := by
    intro l pc hpc
    unfold labelPosition at hpc ⊢
    rw [List.findIdx?_append, hpc]
    rfl
  have hjump : ∀ l s t, jumpTo code l s = some t → jumpTo (code ++ rest) l s = some t := by
    intro l s t ht
    obtain ⟨pc, hpc, rfl⟩ := Option.map_eq_some_iff.mp ht
    unfold jumpTo
    rw [hposition l pc hpc]
    rfl
  obtain ⟨inst, hget, hstep⟩ := Option.bind_eq_some_iff.mp h
  have hget' : (code ++ rest)[c.1]? = some inst := by
    rw [List.getElem?_append_left (lt_of_runStep h)]
    exact hget
  refine Option.bind_eq_some_iff.mpr ⟨inst, hget', ?_⟩
  unfold stepInst at hstep ⊢
  cases hop : inst.opcode <;> rw [hop] at hstep <;> simp only [] at hstep ⊢
  case jmp => exact hjump _ _ _ hstep
  case jz =>
    split at hstep
    · exact (if_pos ‹_›).trans (hjump _ _ _ hstep)
    · exact (if_neg ‹_›).trans hstep
  case jnz =>
    split at hstep
    · exact (if_pos ‹_›).trans hstep
    · exact (if_neg ‹_›).trans (hjump _ _ _ hstep)
  all_goals exact hstep

/-- The run comes to the end of the code exactly where the statements come to their end.
A return that is put behind the code ends every run that comes there. -/
theorem Follows.ends_iff {p : Nat} {x : Nat → Option Outcome} {s : RunState}
    (h : Follows oracle code p x 0 code.length s)
    (h' : Follows oracle (code ++ [{ opcode := .ret }]) p x 0 code.length s) :
    (∃ s', Leads (runStep oracle code) (0, s) (code.length, s')) ↔
      ∃ fuel m, x fuel = some (.next m) := by
  constructor
  · rintro ⟨s', hlead⟩
    have hlead' : Leads (runStep oracle (code ++ [{ opcode := .ret }])) (0, s)
        (code.length, s') := hlead.mono_turn runStep_append
    have hstands : StandsAt (code ++ [{ opcode := .ret }]) code.length
        [({ opcode := .ret } : IRInstruction)] := ⟨code, [], by simp, rfl⟩
    obtain ⟨n, hn⟩ := hlead'.results (results_ret oracle hstands rfl)
    obtain ⟨fuel, o, ho⟩ := h'.backward n _ hn
    have hreach := h.forward fuel o ho
    cases o with
    | next m => exact ⟨fuel, m, ho⟩
    | returned v m =>
      -- without the return behind the code the run is stuck there
      obtain ⟨s'', -, k, hk⟩ := hreach
      obtain ⟨k', -, hk'⟩ := hlead.iterate hk
      exact absurd ⟨k', hk'⟩ (stuck_end oracle s' (v, s''))
  · rintro ⟨fuel, m, ho⟩
    obtain ⟨s', -, hlead⟩ := h.forward fuel _ ho
    exact ⟨s', hlead⟩

/-! ## Functions -/

/-- What the body of a function comes to; every loop in it makes at most `fuel` turns. -/
def evalBody (oracle : Oracle) (fuel stack : Nat) : ASTNode → Store → Option Outcome
  | .function _ _ _ params (.block _ statements) _, m =>
      evalStmts oracle fuel (paramEnv [] params 0) statements stack m
  | _, m => some (.next m)

/-- The statements of a function come to their end: none of them returns a value, none of them
traps, and no loop goes on for ever.  A return without an expression is passed over. -/
def ReachesEnd (oracle : Oracle) (stack : Nat) (func : ASTNode) (m : Store) : Prop :=
  ∃ fuel m', evalBody oracle fuel stack func m = some (.next m')

/-- No expression of a function is given up for want of a virtual register. -/
def RegistersSuffice (stack : Nat) (func : ASTNode) : Prop :=
  ¬ OutOfVregs (lowerRoot stack func).history

instance (stack : Nat) (func : ASTNode) : Decidable (RegistersSuffice stack func) :=
  inferInstanceAs (Decidable (¬ Event.drop .vregLimit ∈ (lowerRoot stack func).history))

/-- The run of a function stops at returns only, if and only if its statements do not come to
their end. -/
theorem function_stopsAtRet_iff {fresh : IRFunction} {func : ASTNode} {errors : ErrorContext}
    {filename : Option String} {s : GenState} (hcomplete : func.CompleteFunction)
    (h : irGen fresh func errors filename = .ok (true, s))
    (hregisters : RegistersSuffice fresh.stackCount func) {start : RunState}
    (hargs : start.args = []) : StopsAtRet oracle s.f.instructions start ↔
      ¬ ReachesEnd oracle fresh.stackCount func start.store := by
  obtain ⟨hlabels, -⟩ := irGen_labels h
  obtain ⟨hgen, hlength, -⟩ := irGen_returns h
  have hcode := hgen.code (Nat.le_of_lt hlength)
  rw [stopsAtRet_iff_end hlabels.targets, not_iff_not]
  cases func with
  | function info name returnType params body isPrototype =>
    cases body with
    | block bodyInfo statements =>
      have hfollows := fun rest hrest => @function_follows s.f.instructions oracle _ _ _ _ _ _ _ _
        start rest hcode hregisters hargs hrest
      have hbody := hfollows [] rfl
      rw [List.append_nil] at hbody
      exact hbody.ends_iff (hfollows [{ opcode := .ret }] rfl)
    | _ => exact absurd hcomplete id
  | _ => exact absurd hcomplete id

end

end TinyCompile.Ir
