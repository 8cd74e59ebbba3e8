import TinyCompile.Ir.LastVreg
import TinyCompile.Ir.Names

set_option autoImplicit false

/-!
# Ir: how much room a function needs

The registers, instructions and labels of a function are counted on its tree, and its calls
are listed.  Where every expression has a value the generator takes exactly that much, and it
runs out of registers exactly where they are too many.
-/

namespace TinyCompile.Ir

open TinyCompile.Source

/-! ## Sizes -/

/-- What a piece of code takes, and whom it calls. -/
structure Size where
  regs : Nat
  insts : Nat
  labels : Nat
  calls : List StringView
  deriving DecidableEq, Repr

instance : Add Size :=
  ⟨fun a b => ⟨a.regs + b.regs, a.insts + b.insts, a.labels + b.labels, a.calls ++ b.calls⟩⟩

@[simp] theorem Size.regs_add (a b : Size) : (a + b).regs = a.regs + b.regs := rfl

@[simp] theorem Size.insts_add (a b : Size) : (a + b).insts = a.insts + b.insts := rfl

@[simp] theorem Size.labels_add (a b : Size) : (a + b).labels = a.labels + b.labels := rfl

@[simp] theorem Size.calls_add (a b : Size) : (a + b).calls = a.calls ++ b.calls := rfl

/-- The size of some instructions that take no register. -/
def plainSize (insts : Nat) : Size := ⟨0, insts, 0, []⟩

@[simp] theorem regs_plainSize (insts : Nat) : (plainSize insts).regs = 0 := rfl

/-- The size of some labels. -/
def labelSize (labels : Nat) : Size := ⟨0, 0, labels, []⟩

mutual

/-- The functions an expression calls, in order. -/
def callsExpr : ASTNode → List StringView
  | .call _ functionName args => callsArgs args ++ [functionName]
  | .unary _ _ operand => callsExpr operand
  | .binary _ _ left right => callsExpr left ++ callsExpr right
  | _ => []

/-- The functions the arguments of a call call. -/
def callsArgs : List ASTNode → List StringView
  | [] => []
  | arg :: rest => callsExpr arg ++ callsArgs rest

end

/-- The size of an expression. -/
def sizeExpr (env : Env) (node : ASTNode) : Size :=
  ⟨cost env 0 node, cost env 1 node, 0, callsExpr node⟩

/-- The size of an initial value. -/
def sizeInit (env : Env) (initializer : ASTNode) : Size :=
  if initializer.isNull then ⟨1, 1, 0, []⟩ else sizeExpr env initializer

mutual

/-- The size of a statement, where every expression has a value. -/
def sizeStmt (env : Env) : ASTNode → Nat → Size
  | .null, _ => plainSize 0
  | .varDecl info varName varType initializer, stack =>
      sizeInit ((varName, ⟨.var info.addr, varType, ⟨stack, true⟩⟩) :: env) initializer +
        plainSize 1
  | .assignment _ _ value, _ => sizeExpr env value + plainSize 1
  | .returnStmt _ expression, _ =>
      if expression.isNull then plainSize 0 else sizeExpr env expression + plainSize 1
  | .block _ statements, stack => sizeStmts env statements stack
  | .ifStmt _ condition thenBranch elseBranch, stack =>
      if elseBranch.isNull then
        labelSize 1 + sizeExpr env condition + plainSize 1 + sizeStmt env thenBranch stack +
          plainSize 1
      else
        let t := scopeStmt env thenBranch stack
        labelSize 2 + sizeExpr env condition + plainSize 1 + sizeStmt env thenBranch stack +
          plainSize 2 + sizeStmt t.1 elseBranch t.2 + plainSize 1
  | .whileStmt _ condition body, stack =>
      labelSize 2 + plainSize 1 + sizeExpr env condition + plainSize 1 +
        sizeStmt env body stack + plainSize 2
  | node, _ => sizeExpr env node

/-- The size of some statements. -/
def sizeStmts (env : Env) : List ASTNode → Nat → Size
  | [], _ => plainSize 0
  | stmt :: rest, stack =>
      let t := scopeStmt env stmt stack
      sizeStmt env stmt stack + sizeStmts t.1 rest t.2

end

/-! ## Calls -/

/-- The names a piece of code calls, in order. -/
def callNames (code : List IRInstruction) : List StringView :=
  (code.filter fun inst => inst.opcode == .call).map (·.funcName)

@[simp] theorem callNames_append (code code' : List IRInstruction) :
    callNames (code ++ code') = callNames code ++ callNames code' := by
  simp [callNames]

theorem callNames_single {inst : IRInstruction} (h : inst.opcode ≠ .call) :
    callNames [inst] = [] := by
  have hop : (inst.opcode == .call) = false := beq_eq_false_iff_ne.mpr h
  rw [callNames, List.filter_cons, hop]
  rfl

theorem callNames_argInsts (pairs : List (ASTNode × Nat)) (i : Nat) :
    callNames (argInsts pairs i) = [] := by
  induction pairs generalizing i with
  | nil => rfl
  | cons pair pairs ih =>
    obtain ⟨arg, reg⟩ := pair
    rw [argInsts, ← List.singleton_append, callNames_append, ih, callNames_single (by simp)]
    rfl

theorem callNames_finish {code : List IRInstruction} {next : Nat} {history : List Event}
    {inst : Nat → IRInstruction} (hok : ¬ OutOfVregs (finish code next history inst).history) :
    callNames (finish code next history inst).code =
      callNames code ++ callNames [inst next] := by
  unfold finish at hok ⊢
  split
  · rename_i hfull
    rw [if_pos hfull] at hok
    exact absurd (by simp [OutOfVregs]) hok
  · exact callNames_append _ _

section

variable {p stack : Nat} {env : Env}

mutual

/-- The code of an expression calls what the expression calls. -/
theorem lowerExpr_calls (henv : EnvFits p stack env) : ∀ (node : ASTNode) (n : Nat), p < n →
    hasValue env node = true → ¬ OutOfVregs (lowerExpr env node n).history →
    callNames (lowerExpr env node n).code = callsExpr node
  | .number info value, n, _, _, hok => by
      simp only [lowerExpr] at hok ⊢
      rw [callNames_finish hok, callNames_single (by simp)]
      rfl
  | .identifier info name, n, _, hvalue, hok => by
      obtain ⟨e, hname⟩ := Option.isSome_iff_exists.mp hvalue
      simp only [lowerExpr, hname] at hok ⊢
      split
      · rename_i hstack
        rw [if_pos hstack] at hok
        rw [callNames_finish hok, callNames_single (by simp)]
        rfl
      · rfl
  | .unary op info operand, n, hn, hvalue, hok => by
      have hreg := lowerExpr_reg henv operand n hn
      simp only [lowerExpr] at hok ⊢
      by_cases hzero : (lowerExpr env operand n).reg = 0
      · rw [if_pos hzero] at hok
        exact absurd hzero ((hreg hok).mpr hvalue)
      · rw [if_neg hzero] at hok ⊢
        have ih := lowerExpr_calls henv operand n hn hvalue (not_outOfVregs_finish hok)
        rw [callNames_finish hok, ih, callNames_single (by cases op <;> simp [unaryOpcode]),
          List.append_nil]
        rfl
  | .binary op info left right, n, hn, hvalue, hok => by
      obtain ⟨hleft, hright⟩ := Bool.and_eq_true_iff.mp hvalue
      have hlreg := lowerExpr_reg henv left n hn
      have hrreg := lowerExpr_reg henv right
      have ihl := lowerExpr_calls henv left n hn hleft
      have ihr := lowerExpr_calls henv right
      have hsound := lowerExpr_sound henv left n
      simp only [lowerExpr] at hok ⊢
      set l := lowerExpr env left n
      by_cases hzero : l.reg = 0
      · rw [if_pos hzero] at hok
        exact absurd hzero ((hlreg hok).mpr hleft)
      · rw [if_neg hzero] at hok ⊢
        have hlok : ¬ OutOfVregs l.history := by
          split at hok
          · exact not_outOfVregs_left hok
          · exact not_outOfVregs_left (not_outOfVregs_finish hok)
        have hn' := Nat.lt_of_lt_of_le hn (hsound hlok).facts.le
        by_cases hrzero : (lowerExpr env right l.next).reg = 0
        · rw [if_pos hrzero] at hok
          exact absurd hrzero ((hrreg l.next hn' (not_outOfVregs_right hok)).mpr hright)
        · rw [if_neg hrzero] at hok ⊢
          have hrok := not_outOfVregs_right (not_outOfVregs_finish hok)
          rw [callNames_finish hok, callNames_append, ihl hlok, ihr l.next hn' hright hrok,
            callNames_single (binaryOpcode_not_call op (typeOf left)), List.append_nil]
          rfl
  | .call info functionName args, n, hn, hvalue, hok => by
      have ih := lowerArgs_calls henv args n hn hvalue
      have hregs := lowerArgs_regs henv args n hn
      simp only [lowerExpr] at hok ⊢
      cases hsome : (lowerArgs env args n).regs with
      | none =>
        simp only [hsome] at hok
        have hnone := (hregs hok).mpr hvalue
        rw [hsome] at hnone
        cases hnone
      | some regs =>
        simp only [hsome] at hok ⊢
        rw [callNames_finish hok, callNames_append, callNames_argInsts,
          ih (not_outOfVregs_finish hok), List.append_nil]
        rfl
  | .null, _, _, hvalue, _ => absurd hvalue Bool.false_ne_true
  | .varDecl _ _ _ _, _, _, hvalue, _ => absurd hvalue Bool.false_ne_true
  | .assignment _ _ _, _, _, hvalue, _ => absurd hvalue Bool.false_ne_true
  | .returnStmt _ _, _, _, hvalue, _ => absurd hvalue Bool.false_ne_true
  | .ifStmt _ _ _ _, _, _, hvalue, _ => absurd hvalue Bool.false_ne_true
  | .whileStmt _ _ _, _, _, hvalue, _ => absurd hvalue Bool.false_ne_true
  | .block _ _, _, _, hvalue, _ => absurd hvalue Bool.false_ne_true
  | .function _ _ _ _ _ _, _, _, hvalue, _ => absurd hvalue Bool.false_ne_true
  | .translationUnit _ _, _, _, hvalue, _ => absurd hvalue Bool.false_ne_true

theorem lowerArgs_calls (henv : EnvFits p stack env) : ∀ (args : List ASTNode) (n : Nat), p < n →
    haveValues env args = true → ¬ OutOfVregs (lowerArgs env args n).history →
    callNames (lowerArgs env args n).code = callsArgs args
  | [], _, _, _, _ => rfl
  | arg :: rest, n, hn, hvalue, hok => by
      obtain ⟨harg, hrest⟩ := Bool.and_eq_true_iff.mp hvalue
      have hreg := lowerExpr_reg henv arg n hn
      have ih := lowerExpr_calls henv arg n hn harg
      have ihs := lowerArgs_calls henv rest
      have hsound := lowerExpr_sound henv arg n
      simp only [lowerArgs] at hok ⊢
      set o := lowerExpr env arg n
      by_cases hzero : o.reg = 0
      · rw [if_pos hzero] at hok
        exact absurd hzero ((hreg hok).mpr harg)
      · rw [if_neg hzero] at hok ⊢
        have hook := not_outOfVregs_left hok
        have hn' := Nat.lt_of_lt_of_le hn (hsound hook).facts.le
        rw [callNames_append, ih hook, ihs o.next hn' hrest (not_outOfVregs_right hok)]
        rfl

end

end

/-! ## Pieces of code -/

/-- Code from register `n` and label `l` on takes what `k` tells, if that much is there. -/
structure Sized (n l : Nat) (k : Size) (code : List IRInstruction) (history : List Event)
    (n' l' : Nat) : Prop where
  room : ¬ OutOfVregs history ↔ n + k.regs ≤ maxVregsPerFunction
  next : ¬ OutOfVregs history → n' = n + k.regs
  length : ¬ OutOfVregs history → code.length = k.insts
  label : ¬ OutOfVregs history → l' = l + k.labels
  calls : ¬ OutOfVregs history → callNames code = k.calls
  unreported : ¬ OutOfVregs history → Unreported history

section

variable {n l n' l' n'' l'' : Nat} {k k' : Size} {code code' : List IRInstruction}
  {history history' : List Event}

theorem unreported_nil : Unreported [] := quiet_nil.unreported

theorem sized_plain (l : Nat) (code : List IRInstruction) (hcalls : callNames code = [])
    (hn : n ≤ maxVregsPerFunction) : Sized n l (plainSize code.length) code [] n l where
  room := iff_of_true List.not_mem_nil hn
  next := fun _ => rfl
  length := fun _ => rfl
  label := fun _ => rfl
  calls := fun _ => hcalls
  unreported := fun _ => unreported_nil

theorem sized_labels (l labels : Nat) (hn : n ≤ maxVregsPerFunction) :
    Sized n l (labelSize labels) [] [] n (l + labels) where
  room := iff_of_true List.not_mem_nil hn
  next := fun _ => rfl
  length := fun _ => rfl
  label := fun _ => rfl
  calls := fun _ => rfl
  unreported := fun _ => unreported_nil

/-- Registers that have run out stay so. -/
theorem sized_full (hout : OutOfVregs history) (hfull : maxVregsPerFunction < n + k.regs) :
    Sized n l k code history n' l' where
  room := iff_of_false (fun h => h hout) (Nat.not_le_of_lt hfull)
  next := fun h => absurd hout h
  length := fun h => absurd hout h
  label := fun h => absurd hout h
  calls := fun h => absurd hout h
  unreported := fun h => absurd hout h

theorem Sized.full (h : Sized n l k code history n' l') (hout : OutOfVregs history) :
    maxVregsPerFunction < n + k.regs :=
  Nat.lt_of_not_le fun hroom => h.room.mpr hroom hout

/-- One piece behind another. -/
theorem Sized.append (h : Sized n l k code history n' l')
    (h' : ¬ OutOfVregs history → n' ≤ maxVregsPerFunction →
      Sized n' l' k' code' history' n'' l'') :
    Sized n l (k + k') (code ++ code') (history ++ history') n'' l'' := by
  by_cases hout : OutOfVregs history
  · refine sized_full (List.mem_append_left _ hout) ?_
    have hfull := h.full hout
    rw [Size.regs_add]
    omega
  · have hnext := h.next hout
    have hroom := h.room.mp hout
    have h' := h' hout (hnext ▸ hroom)
    have hboth : ¬ OutOfVregs (history ++ history') ↔ ¬ OutOfVregs history' :=
      ⟨not_outOfVregs_right, not_outOfVregs_append hout⟩
    refine ⟨?_, fun hok => ?_, fun hok => ?_, fun hok => ?_, fun hok => ?_, fun hok => ?_⟩
    · rw [hboth, h'.room, hnext, Size.regs_add, Nat.add_assoc]
    · rw [h'.next (hboth.mp hok), hnext, Size.regs_add, Nat.add_assoc]
    · rw [List.length_append, h.length hout, h'.length (hboth.mp hok), Size.insts_add]
    · rw [h'.label (hboth.mp hok), h.label hout, Size.labels_add, Nat.add_assoc]
    · rw [callNames_append, h.calls hout, h'.calls (hboth.mp hok), Size.calls_add]
    · exact (h.unreported hout).append (h'.unreported (hboth.mp hok))

/-- An event in front of a piece that gives nothing up. -/
theorem Sized.note (h : Sized n l k code history n' l') {e : Event}
    (he : ∀ reason, e ≠ .drop reason) : Sized n l k code (e :: history) n' l' := by
  have hout : ¬ OutOfVregs (e :: history) ↔ ¬ OutOfVregs history := by
    refine not_congr ⟨fun hmem => ?_, List.mem_cons_of_mem e⟩
    exact (List.mem_cons.mp hmem).resolve_left (he .vregLimit).symm
  refine ⟨hout.trans h.room, fun hok => h.next (hout.mp hok), fun hok => h.length (hout.mp hok),
    fun hok => h.label (hout.mp hok), fun hok => h.calls (hout.mp hok), fun hok reason hmem => ?_⟩
  exact h.unreported (hout.mp hok) reason
    ((List.mem_cons.mp hmem).resolve_left (he reason).symm)

/-- Instructions behind a piece. -/
theorem Sized.plain (h : Sized n l k code history n' l') (insts : List IRInstruction)
    (hcalls : callNames insts = []) :
    Sized n l (k + plainSize insts.length) (code ++ insts) history n' l' := by
  have happend := h.append fun _ hn => sized_plain l' insts hcalls hn
  rwa [List.append_nil] at happend

end

/-! ## Expressions -/

section

variable {p : Nat} {env : Env}

attribute [local simp] sizeStmt sizeStmts

theorem sized_expr {stack n : Nat} (henv : EnvFits p stack env) {node : ASTNode} (hp : p < n)
    (hn : n ≤ maxVregsPerFunction) (hvalue : hasValue env node = true) (l : Nat) :
    Sized n l (sizeExpr env node) (lowerExpr env node n).code (lowerExpr env node n).history
      (lowerExpr env node n).next l where
  room := by rw [outOfVregs_iff henv hp hn hvalue, Nat.not_lt]; rfl
  next := fun hok => (lowerExpr_takes henv node n hp hvalue hok).next
  length := fun hok => (lowerExpr_takes henv node n hp hvalue hok).length
  label := fun _ => rfl
  calls := fun hok => lowerExpr_calls henv node n hp hvalue hok
  unreported := fun hok => (lowerExpr_takes henv node n hp hvalue hok).quiet.unreported

/-- A value and the instruction that uses it. -/
theorem sized_use {stack n : Nat} (henv : EnvFits p stack env) {node : ASTNode} (hp : p < n)
    (hn : n ≤ maxVregsPerFunction) (hvalue : hasValue env node = true) (l : Nat)
    {inst : IRInstruction} (hinst : inst.opcode ≠ .call) :
    Sized n l (sizeExpr env node + plainSize 1)
      ((lowerExpr env node n).code ++ if (lowerExpr env node n).reg = 0 then [] else [inst])
      (lowerExpr env node n).history (lowerExpr env node n).next l := by
  have hexpr := sized_expr henv hp hn hvalue l
  by_cases hout : OutOfVregs (lowerExpr env node n).history
  · exact sized_full hout (hexpr.full hout)
  · rw [if_neg ((lowerExpr_reg henv node n hp hout).mpr hvalue)]
    exact hexpr.plain [inst] (callNames_single hinst)

theorem sized_zero {n : Nat} (l : Nat) (inst : Nat → IRInstruction)
    (hinst : (inst n).opcode ≠ .call) (hp : p < n) (hn : n ≤ maxVregsPerFunction) :
    Sized n l ⟨1, 1, 0, []⟩ (finish [] n [] inst).code (finish [] n [] inst).history
      (finish [] n [] inst).next l ∧
    (¬ OutOfVregs (finish [] n [] inst).history → (finish [] n [] inst).reg ≠ 0) := by
  refine ⟨?_, finish_reg_ne hp⟩
  unfold finish
  split
  · rename_i hfull
    refine sized_full (by simp [OutOfVregs]) ?_
    show _ < n + 1
    omega
  · exact ⟨iff_of_true List.not_mem_nil (by show n + 1 ≤ _; omega), fun _ => rfl, fun _ => rfl,
      fun _ => rfl, fun _ => callNames_single hinst, fun _ => unreported_nil⟩

/-! ## Statements -/

/-- A statement lowered from `c` takes what `k` tells. -/
abbrev SizedStmt (c : Counters) (k : Size) (o : StmtOut) : Prop :=
  Sized c.vreg c.label k o.code o.history o.counters.vreg o.counters.label

theorem sized_varDecl {info : NodeInfo} {varName : StringView} {varType : DataType}
    {initializer : ASTNode} {c : Counters} (hp : p < c.vreg) (hn : c.vreg ≤ maxVregsPerFunction)
    (henv : EnvFits p c.stack env)
    (hvalued : Valued env (.varDecl info varName varType initializer) c.stack) :
    SizedStmt c (sizeStmt env (.varDecl info varName varType initializer) c.stack)
      (lowerStmt env (.varDecl info varName varType initializer) c) := by
  have hfits : EnvFits p (c.stack + 1)
      ((varName, ⟨.var info.addr, varType, ⟨c.stack, true⟩⟩) :: env) :=
    (henv.mono (Nat.le_succ _)).cons (by simp)
  unfold SizedStmt
  simp only [lowerStmt, sizeStmt, lowerInit, sizeInit]
  refine Sized.note ?_ (fun reason h => by cases h)
  split
  · obtain ⟨hsized, hreg⟩ := sized_zero c.label (fun reg =>
      ({ opcode := .const, type := varType, dest := reg, imm := 0 } : IRInstruction)) (by simp)
      hp hn
    by_cases hout : OutOfVregs (finish [] c.vreg [] fun reg =>
      ({ opcode := .const, type := varType, dest := reg, imm := 0 } : IRInstruction)).history
    · exact sized_full hout (hsized.full hout)
    · rw [if_neg (hreg hout)]
      exact hsized.plain [_] (callNames_single (by simp))
  · rename_i hnull
    exact sized_use hfits hp hn (hvalued.resolve_left hnull) _ (by simp)

theorem sized_assignment {info : NodeInfo} {varName : StringView} {value : ASTNode}
    {c : Counters} (hp : p < c.vreg) (hn : c.vreg ≤ maxVregsPerFunction)
    (henv : EnvFits p c.stack env) (hvalued : Valued env (.assignment info varName value) c.stack) :
    SizedStmt c (sizeStmt env (.assignment info varName value) c.stack)
      (lowerStmt env (.assignment info varName value) c) := by
  obtain ⟨e, hlookup⟩ := Option.isSome_iff_exists.mp hvalued.1
  unfold SizedStmt
  simp only [lowerStmt, sizeStmt, hlookup]
  have hop : (if e.binding.isStack then IROpcode.store else IROpcode.mov) ≠ .call := by
    split <;> simp
  exact (sized_use henv hp hn hvalued.2 _ hop).note (fun reason h => by cases h)

theorem sized_return {info : NodeInfo} {expression : ASTNode} {c : Counters} (hp : p < c.vreg)
    (hn : c.vreg ≤ maxVregsPerFunction) (henv : EnvFits p c.stack env)
    (hvalued : Valued env (.returnStmt info expression) c.stack) :
    SizedStmt c (sizeStmt env (.returnStmt info expression) c.stack)
      (lowerStmt env (.returnStmt info expression) c) := by
  unfold SizedStmt
  simp only [lowerStmt, sizeStmt, lowerReturned]
  split
  · -- giving up a return without an expression is not reported
    have hdrop : ¬ OutOfVregs [.drop .returnWithoutExpression] := by simp [OutOfVregs]
    refine ⟨iff_of_true hdrop hn, fun _ => rfl, fun _ => rfl, fun _ => rfl, fun _ => rfl,
      fun _ reason hmem => ?_⟩
    cases List.mem_singleton.mp hmem
    exact .inr rfl
  · rename_i hnull
    exact sized_use henv hp hn (hvalued.resolve_left hnull) _ (by simp)

/-- A condition without a register is one for which the registers have run out. -/
theorem outOfVregs_of_reg {condition : ASTNode} {c : Counters} (hp : p < c.vreg)
    (henv : EnvFits p c.stack env) (hvalue : hasValue env condition = true)
    (hzero : (lowerExpr env condition c.vreg).reg = 0) :
    OutOfVregs (lowerExpr env condition c.vreg).history :=
  Decidable.byContradiction fun hok =>
    (lowerExpr_reg henv condition c.vreg hp hok).mpr hvalue hzero

theorem sized_if {info : NodeInfo} {condition thenBranch elseBranch : ASTNode} {c : Counters}
    (hp : p < c.vreg) (hn : c.vreg ≤ maxVregsPerFunction) (henv : EnvFits p c.stack env)
    (iht : ∀ env c, p < c.vreg → c.vreg ≤ maxVregsPerFunction → EnvFits p c.stack env →
      Valued env thenBranch c.stack →
      SizedStmt c (sizeStmt env thenBranch c.stack) (lowerStmt env thenBranch c))
    (ihe : ∀ env c, p < c.vreg → c.vreg ≤ maxVregsPerFunction → EnvFits p c.stack env →
      Valued env elseBranch c.stack →
      SizedStmt c (sizeStmt env elseBranch c.stack) (lowerStmt env elseBranch c))
    (hvalued : Valued env (.ifStmt info condition thenBranch elseBranch) c.stack) :
    SizedStmt c (sizeStmt env (.ifStmt info condition thenBranch elseBranch) c.stack)
      (lowerStmt env (.ifStmt info condition thenBranch elseBranch) c) := by
  obtain ⟨hvalue, hthen, helse⟩ := hvalued
  have hzero := outOfVregs_of_reg hp henv hvalue
  have hsound := lowerExpr_sound henv condition c.vreg
  have hcondition := sized_expr henv hp hn hvalue
  unfold SizedStmt
  simp only [lowerStmt, sizeStmt]
  set o := lowerExpr env condition c.vreg
  by_cases hnull : elseBranch.isNull = true
  · simp only [if_pos hnull]
    have hfront := (sized_labels c.label 1 hn).append fun _ _ => hcondition (c.label + 1)
    by_cases hreg : o.reg = 0
    · rw [if_pos hreg]
      refine sized_full (hzero hreg) ?_
      have hfull := hfront.full (hzero hreg)
      simp only [Size.regs_add] at hfull ⊢
      omega
    · rw [if_neg hreg]
      refine ((hfront.plain [jzInst condition o.reg c.label] rfl).append fun hok hle => ?_).plain
        [labelInst .label c.label] rfl
      have hp' := Nat.lt_of_lt_of_le hp (hsound hok).facts.le
      exact iht env ⟨o.next, c.stack, c.label + 1⟩ hp' hle henv hthen
  · simp only [if_neg hnull]
    have hfront := (sized_labels c.label 2 hn).append fun _ _ => hcondition (c.label + 2)
    by_cases hreg : o.reg = 0
    · rw [if_pos hreg]
      refine sized_full (hzero hreg) ?_
      have hfull := hfront.full (hzero hreg)
      simp only [Size.regs_add] at hfull ⊢
      omega
    · rw [if_neg hreg]
      -- the then branch decides in which scope the else branch stands
      have hle := fun hok => Nat.lt_of_lt_of_le hp (hsound hok).facts.le
      refine Sized.plain (Sized.append (Sized.plain (Sized.append
        (hfront.plain [jzInst condition o.reg c.label] rfl) fun hok hn' =>
          iht env ⟨o.next, c.stack, c.label + 2⟩ (hle hok) hn' henv hthen)
        [labelInst .jmp (c.label + 1), labelInst .label c.label] rfl) fun hok hn' => ?_)
        [labelInst .label (c.label + 1)] rfl
      have ho := not_outOfVregs_left hok
      have ht := not_outOfVregs_right hok
      have hstmt := lowerStmt_sound (p := p) thenBranch env ⟨o.next, c.stack, c.label + 2⟩
        (hle ho) henv ht
      obtain ⟨henv', hstack⟩ := lowerStmt_scopes thenBranch env ⟨o.next, c.stack, c.label + 2⟩
        (hle ho) henv ht
      have he := ihe _ _ (Nat.lt_of_lt_of_le (hle ho) hstmt.piece.le) hn' hstmt.env (by
        rw [henv', hstack]
        exact helse.resolve_left hnull)
      rw [henv', hstack] at he
      rw [henv']
      exact he

theorem sized_while {info : NodeInfo} {condition body : ASTNode} {c : Counters}
    (hp : p < c.vreg) (hn : c.vreg ≤ maxVregsPerFunction) (henv : EnvFits p c.stack env)
    (ih : ∀ env c, p < c.vreg → c.vreg ≤ maxVregsPerFunction → EnvFits p c.stack env →
      Valued env body c.stack →
      SizedStmt c (sizeStmt env body c.stack) (lowerStmt env body c))
    (hvalued : Valued env (.whileStmt info condition body) c.stack) :
    SizedStmt c (sizeStmt env (.whileStmt info condition body) c.stack)
      (lowerStmt env (.whileStmt info condition body) c) := by
  obtain ⟨hvalue, hbody⟩ := hvalued
  have hzero := outOfVregs_of_reg hp henv hvalue
  have hsound := lowerExpr_sound henv condition c.vreg
  have hcondition := sized_expr henv hp hn hvalue
  unfold SizedStmt
  simp only [lowerStmt, sizeStmt]
  set o := lowerExpr env condition c.vreg
  have hfront := ((sized_labels c.label 2 hn).plain [labelInst .label c.label] rfl).append
    fun _ _ => hcondition (c.label + 2)
  by_cases hreg : o.reg = 0
  · rw [if_pos hreg]
    refine sized_full (hzero hreg) ?_
    have hfull := hfront.full (hzero hreg)
    simp only [Size.regs_add, regs_plainSize] at hfull ⊢
    omega
  · rw [if_neg hreg]
    refine ((hfront.plain [jzInst condition o.reg (c.label + 1)] rfl).append
      fun hok hn' => ?_).plain
      [labelInst .jmp c.label, labelInst .label (c.label + 1)] rfl
    have hp' := Nat.lt_of_lt_of_le hp (hsound hok).facts.le
    exact ih env ⟨o.next, c.stack, c.label + 2⟩ hp' hn' henv hbody

mutual

/-- A statement in which every expression has a value takes what is counted on the tree. -/
theorem lowerStmt_sized : ∀ (node : ASTNode) (env : Env) (c : Counters), p < c.vreg →
    c.vreg ≤ maxVregsPerFunction → EnvFits p c.stack env → Valued env node c.stack →
    SizedStmt c (sizeStmt env node c.stack) (lowerStmt env node c)
  | .null, _, c, _, hn, _, _ => sized_plain c.label [] rfl hn
  | .varDecl _ _ _ _, _, _, hp, hn, henv, hvalued => sized_varDecl hp hn henv hvalued
  | .assignment _ _ _, _, _, hp, hn, henv, hvalued => sized_assignment hp hn henv hvalued
  | .returnStmt _ _, _, _, hp, hn, henv, hvalued => sized_return hp hn henv hvalued
  | .block _ statements, env, c, hp, hn, henv, hvalued =>
      lowerStmts_sized statements env c hp hn henv hvalued
  | .ifStmt _ _ thenBranch elseBranch, _, _, hp, hn, henv, hvalued =>
      sized_if hp hn henv (lowerStmt_sized thenBranch) (lowerStmt_sized elseBranch) hvalued
  | .whileStmt _ _ body, _, _, hp, hn, henv, hvalued =>
      sized_while hp hn henv (lowerStmt_sized body) hvalued
  | .number _ _, _, c, hp, hn, henv, hvalued => sized_expr henv hp hn hvalued c.label
  | .identifier _ _, _, c, hp, hn, henv, hvalued => sized_expr henv hp hn hvalued c.label
  | .binary _ _ _ _, _, c, hp, hn, henv, hvalued => sized_expr henv hp hn hvalued c.label
  | .unary _ _ _, _, c, hp, hn, henv, hvalued => sized_expr henv hp hn hvalued c.label
  | .call _ _ _, _, c, hp, hn, henv, hvalued => sized_expr henv hp hn hvalued c.label
  | .function _ _ _ _ _ _, _, c, hp, hn, henv, hvalued => sized_expr henv hp hn hvalued c.label
  | .translationUnit _ _, _, c, hp, hn, henv, hvalued => sized_expr henv hp hn hvalued c.label

/-- Statements in which every expression has a value take what is counted on the trees. -/
theorem lowerStmts_sized : ∀ (nodes : List ASTNode) (env : Env) (c : Counters), p < c.vreg →
    c.vreg ≤ maxVregsPerFunction → EnvFits p c.stack env → ValuedAll env nodes c.stack →
    SizedStmt c (sizeStmts env nodes c.stack) (lowerStmts env nodes c)
  | [], _, c, _, hn, _, _ => sized_plain c.label [] rfl hn
  | stmt :: rest, env, c, hp, hn, henv, hvalued => by
      unfold SizedStmt
      simp only [lowerStmts, sizeStmts]
      refine (lowerStmt_sized stmt env c hp hn henv hvalued.1).append fun hok hn' => ?_
      have hstmt := lowerStmt_sound (p := p) stmt env c hp henv hok
      obtain ⟨henv', hstack⟩ := lowerStmt_scopes stmt env c hp henv hok
      have hrest := lowerStmts_sized rest _ _ (Nat.lt_of_lt_of_le hp hstmt.piece.le) hn'
        hstmt.env (by
          rw [henv', hstack]
          exact hvalued.2)
      rw [henv', hstack] at hrest
      rw [henv']
      exact hrest

end

end

/-! ## Functions -/

/-- The size of a function, where every expression has a value. -/
def sizeFunction (stack : Nat) : ASTNode → Size
  | .function _ _ _ params (.block _ statements) _ =>
      ⟨1 + params.length, 0, 0, []⟩ + sizeStmts (paramEnv [] params 0) statements stack
  | _ => plainSize 0

/-- Every expression of a function has a value. -/
def ValuedFunction (stack : Nat) : ASTNode → Prop
  | .function _ _ _ params (.block _ statements) _ =>
      ValuedAll (paramEnv [] params 0) statements stack
  | _ => True

/-- A function is within the limits of the generator. -/
structure HasRoom (stack : Nat) (func : ASTNode) : Prop where
  regs : (sizeFunction stack func).regs ≤ maxVregsPerFunction
  insts : (sizeFunction stack func).insts < maxIrInstructionsPerFunction
  names : namesFitFunction func = true

instance (stack : Nat) (func : ASTNode) : Decidable (HasRoom stack func) :=
  decidable_of_iff ((sizeFunction stack func).regs ≤ maxVregsPerFunction ∧
      (sizeFunction stack func).insts < maxIrInstructionsPerFunction ∧
      namesFitFunction func = true)
    ⟨fun h => ⟨h.1, h.2.1, h.2.2⟩, fun h => ⟨h.regs, h.insts, h.names⟩⟩

section

variable {func : ASTNode} {stack : Nat}

/-- The lowering of a function in which every expression has a value. -/
theorem lowerRoot_sized (hcomplete : func.CompleteFunction)
    (hlimit : 1 + func.params.length ≤ maxVregsPerFunction) (hvalued : ValuedFunction stack func) :
    Sized 0 0 (sizeFunction stack func) (lowerRoot stack func).code
      (lowerRoot stack func).history (lowerRoot stack func).counters.vreg
      (lowerRoot stack func).counters.label := by
  cases func with
  | function info name returnType params body isPrototype =>
    cases body with
    | block bodyInfo statements =>
      have henv : EnvFits params.length stack (paramEnv [] params 0) :=
        envFits_params params 0 (fun name e he => by simp at he) (by omega)
      have hparams : Sized 0 0 ⟨1 + params.length, 0, 0, []⟩ [] [] (1 + params.length) 0 :=
        ⟨iff_of_true List.not_mem_nil (by rw [Nat.zero_add]; exact hlimit),
          fun _ => (Nat.zero_add _).symm, fun _ => rfl, fun _ => rfl, fun _ => rfl,
          fun _ => unreported_nil⟩
      exact hparams.append fun _ hn => lowerStmts_sized (p := params.length) statements
        (paramEnv [] params 0) ⟨1 + params.length, stack, 0⟩
        (by show params.length < 1 + params.length; omega) hn henv hvalued
    | _ => exact absurd hcomplete id
  | _ => exact absurd hcomplete id

theorem valued_of_lowerRoot (hcomplete : func.CompleteFunction)
    (h : Unreported (lowerRoot stack func).history) : ValuedFunction stack func := by
  cases func with
  | function info name returnType params body isPrototype =>
    cases body with
    | block bodyInfo statements =>
      have henv : EnvFits params.length stack (paramEnv [] params 0) :=
        envFits_params params 0 (fun name e he => by simp at he) (by omega)
      exact valuedAll_of_unreported (p := params.length) statements (paramEnv [] params 0)
        ⟨1 + params.length, stack, 0⟩ (by show params.length < 1 + params.length; omega) henv
        hcomplete.2 h
    | _ => exact absurd hcomplete id
  | _ => exact absurd hcomplete id

end

section

variable {fresh : IRFunction} {func : ASTNode} {errors : ErrorContext}
  {filename : Option String}

/-- What `ir_gen` returns without an error takes what is counted on the tree. -/
theorem irGen_takes (hcomplete : func.CompleteFunction) {s : GenState}
    (h : irGen fresh func errors filename = .ok (true, s)) (herrors : s.f.errors = errors) :
    ValuedFunction fresh.stackCount func ∧ HasRoom fresh.stackCount func ∧
      s.f.labelCount = (sizeFunction fresh.stackCount func).labels ∧
      callNames s.f.instructions = (sizeFunction fresh.stackCount func).calls := by
  obtain ⟨hgen, hcode, hlimit⟩ := irGen_returns h
  obtain ⟨-, hinsts, hcounters, hdrops⟩ := irGen_wellFormed h herrors
  have hquiet : Unreported (lowerRoot fresh.stackCount func).history := hdrops
  have hvalued := valued_of_lowerRoot hcomplete hquiet
  have hsized := lowerRoot_sized hcomplete hlimit hvalued
  have hok := hquiet.hasVregs
  have hregs := hsized.room.mp hok
  have hlabel := hsized.label hok
  rw [Nat.zero_add] at hregs hlabel
  refine ⟨hvalued, ⟨hregs, ?_, ?_⟩, ?_, ?_⟩
  · rw [← hsized.length hok]
    exact hcode
  · have hnull : func.isNull = false := by
      cases func with
      | null => exact absurd hcomplete id
      | _ => rfl
    rw [irGen_eq hnull] at h
    have htabled := genRoot_tabled errors filename hcomplete hlimit hquiet
    cases hrun : genRoot func (initState fresh func errors filename) with
    | error stop =>
      rw [hrun] at h
      cases h
    | ok r => exact (htabled.of_ok hrun).2
  · rw [← hlabel]
    exact congrArg Counters.label hcounters
  · rw [hinsts]
    exact hsized.calls hok

/-- `ir_gen` returns a complete function without an error exactly where every expression in it
has a value and it is within the limits. -/
theorem irGen_succeeds_iff (hcomplete : func.CompleteFunction) :
    (∃ s, irGen fresh func errors filename = .ok (true, s) ∧ s.f.errors = errors) ↔
      ValuedFunction fresh.stackCount func ∧ HasRoom fresh.stackCount func := by
  constructor
  · rintro ⟨s, h, herrors⟩
    obtain ⟨hvalued, hroom, -, -⟩ := irGen_takes hcomplete h herrors
    exact ⟨hvalued, hroom⟩
  · rintro ⟨hvalued, hroom⟩
    have hnull : func.isNull = false := by
      cases func with
      | null => exact absurd hcomplete id
      | _ => rfl
    have hlimit : 1 + func.params.length ≤ maxVregsPerFunction := by
      refine Nat.le_trans ?_ hroom.regs
      cases func with
      | function info name returnType params body isPrototype =>
        cases body with
        | block _ _ => exact Nat.le_add_right _ _
        | _ => exact absurd hcomplete id
      | _ => exact absurd hcomplete id
    have hsized := lowerRoot_sized hcomplete hlimit hvalued
    have hok : ¬ OutOfVregs (lowerRoot fresh.stackCount func).history :=
      hsized.room.mpr (by rw [Nat.zero_add]; exact hroom.regs)
    have hquiet := hsized.unreported hok
    have htabled := genRoot_tabled errors filename hcomplete hlimit hquiet
    have hspec := rootSpec_init fresh func errors filename
    rw [irGen_eq hnull]
    cases hrun : genRoot func (initState fresh func errors filename) with
    | error stop =>
      have hstop := htabled.of_error hrun
      rw [hroom.names] at hstop
      cases hstop
    | ok r =>
      obtain ⟨generated, s'⟩ := r
      obtain ⟨rfl, -⟩ := htabled.of_ok hrun
      obtain ⟨st', ⟨hs', -⟩ | ⟨hfalse, -⟩⟩ := hspec.of_ok hrun
      · have hgen := @GeneratedFrom.of_after (initState fresh func errors filename)
          (lowerRoot fresh.stackCount func) st' rfl rfl rfl
        have hs : (initState fresh func errors filename).after
            (lowerRoot fresh.stackCount func).code (lowerRoot fresh.stackCount func).history
            (lowerRoot fresh.stackCount func).counters st' = s' := hs'.symm
        rw [hs] at hgen
        have hcount : ¬ s'.f.totalCount ≥ maxIrInstructionsPerFunction := by
          have hlength := hsized.length hok
          have hinsts := hroom.insts
          rw [hgen.total, hlength]
          omega
        refine ⟨s', ?_, hgen.errors.trans (noteHistory_unreported hquiet _ _ _)⟩
        show Except.ok (checkLimit true s') = _
        rw [checkLimit, if_neg (by simpa using hcount)]
      · cases hfalse

end

end TinyCompile.Ir
