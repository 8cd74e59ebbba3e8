import TinyCompile.Ir.Lower

set_option autoImplicit false

/-!
# Ir: the generator computes the lowering

`Ensures` is the weakest precondition of the generator's monad.  Every `gen_*`
function is shown to append exactly the lowered instructions, to move the
counters as the lowering does, to leave a symbol table that binds the names in
scope, and to report exactly what its history records.
-/

namespace TinyCompile.Ir

open TinyCompile.Source

/-! ## Running a computation -/

/-- A computation that returns, followed by another one. -/
theorem bind_run {α β : Type} {m : GenM α} {k : α → GenM β} {s s' : GenState} {a : α}
    (h : m s = .ok (a, s')) : (m >>= k) s = k a s' := by
  have hbind : (m >>= k) s = (m s).bind fun p => k p.1 p.2 := rfl
  rw [hbind, h]
  rfl

/-- From `s` the computation returns with `P`, or stops for a reason in `E`. -/
def Ensures {α : Type} (m : GenM α) (s : GenState) (P : α → GenState → Prop)
    (E : Stop → Prop) : Prop :=
  match m s with
  | .ok (a, s') => P a s'
  | .error stop => E stop

section Ensures

variable {α β : Type} {m : GenM α} {s : GenState} {P Q : α → GenState → Prop}
  {E E' : Stop → Prop}

theorem ensures_pure (a : α) : Ensures (pure a) s P E ↔ P a s := Iff.rfl

theorem ensures_bind {k : α → GenM β} {R : β → GenState → Prop} :
    Ensures (m >>= k) s R E ↔ Ensures m s (fun a s' => Ensures (k a) s' R E) E := by
  have hbind : (m >>= k) s = (m s).bind fun p => k p.1 p.2 := rfl
  unfold Ensures
  rw [hbind]
  cases m s with
  | error stop => exact Iff.rfl
  | ok p => exact Iff.rfl

theorem ensures_of_eq {a : α} {s' : GenState} (h : m s = .ok (a, s')) :
    Ensures m s P E ↔ P a s' := by
  simp only [Ensures, h]

theorem Ensures.imp (h : Ensures m s P E) (hP : ∀ a s', P a s' → Q a s')
    (hE : ∀ stop, E stop → E' stop) : Ensures m s Q E' := by
  unfold Ensures at *
  split at h
  · exact hP _ _ h
  · exact hE _ h

/-- What holds of a computation that did return. -/
theorem Ensures.of_ok {a : α} {s' : GenState} (h : Ensures m s P E) (hrun : m s = .ok (a, s')) :
    P a s' := by
  rwa [ensures_of_eq hrun] at h

theorem Ensures.of_error {stop : Stop} (h : Ensures m s P E) (hrun : m s = .error stop) :
    E stop := by
  simpa only [Ensures, hrun] using h

end Ensures

/-! ## Advancing the function being built -/

/-- `emit` on several instructions. -/
def emitAll (f : IRFunction) (code : List IRInstruction) : IRFunction := code.foldl emit f

/-- What `error_add` is called with when the generator gives up; nothing where it
returns silently. -/
def Drop.message (name : StringView) : Drop → Option (Nat × Nat × String)
  | .missingNode => none
  | .undefinedVariable info var =>
      some (info.line, info.column, "undefined variable '" ++ svText var ++ "'")
  | .undefinedTarget info var =>
      some (info.line, info.column, "assignment to undefined variable '" ++ svText var ++ "'")
  | .statementInExpression info =>
      some (info.line, info.column, "statement node in expression context")
  | .vregLimit => some (0, 0, vregLimitMessage name)
  | .returnWithoutExpression => none

/-- The error an event stands for, added to the context of a function. -/
def noteEvent (name : StringView) (filename : Option String) (errors : ErrorContext) :
    Event → ErrorContext
  | .drop reason =>
      match reason.message name with
      | some (line, column, message) =>
          errorAdd errors .codegen .error filename line column message
      | none => errors
  | _ => errors

/-- The errors of a history, added to the context of a function. -/
def noteHistory (name : StringView) (filename : Option String) (errors : ErrorContext)
    (history : List Event) : ErrorContext :=
  history.foldl (noteEvent name filename) errors

namespace IRFunction

/-- The function after `code` was emitted, `history` happened and the counters
moved to `c`. -/
def advance (f : IRFunction) (code : List IRInstruction) (history : List Event)
    (c : Counters) : IRFunction :=
  { chunks := (emitAll f code).chunks, totalCount := (emitAll f code).totalCount
    vregCount := c.vreg, stackCount := c.stack, labelCount := c.label
    name := f.name, errors := noteHistory f.name f.filename f.errors history
    filename := f.filename }

/-- The counters of a function. -/
def counters (f : IRFunction) : Counters := ⟨f.vregCount, f.stackCount, f.labelCount⟩

end IRFunction

/-- What is emitted depends on the chunks and their total only. -/
theorem emit_congr {f g : IRFunction} (inst : IRInstruction) (hchunks : f.chunks = g.chunks)
    (htotal : f.totalCount = g.totalCount) :
    (emit f inst).chunks = (emit g inst).chunks ∧
      (emit f inst).totalCount = (emit g inst).totalCount := by
  unfold emit
  rw [htotal]
  split
  · exact ⟨hchunks, htotal⟩
  · exact ⟨by rw [hchunks], rfl⟩

theorem emitAll_congr {f g : IRFunction} (code : List IRInstruction)
    (hchunks : f.chunks = g.chunks) (htotal : f.totalCount = g.totalCount) :
    (emitAll f code).chunks = (emitAll g code).chunks ∧
      (emitAll f code).totalCount = (emitAll g code).totalCount := by
  induction code generalizing f g with
  | nil => exact ⟨hchunks, htotal⟩
  | cons inst code ih =>
    obtain ⟨h₁, h₂⟩ := emit_congr inst hchunks htotal
    exact ih h₁ h₂

theorem emitAll_append (f : IRFunction) (code code' : List IRInstruction) :
    emitAll f (code ++ code') = emitAll (emitAll f code) code' := by
  simp [emitAll]

@[simp] theorem noteHistory_nil (name : StringView) (filename : Option String)
    (errors : ErrorContext) : noteHistory name filename errors [] = errors := rfl

theorem noteHistory_append (name : StringView) (filename : Option String)
    (errors : ErrorContext) (h h' : List Event) :
    noteHistory name filename errors (h ++ h') =
      noteHistory name filename (noteHistory name filename errors h) h' := by
  simp [noteHistory]

namespace IRFunction

/-- Two advances in a row. -/
theorem advance_advance (f : IRFunction) (code code' : List IRInstruction)
    (h h' : List Event) (c c' : Counters) :
    (f.advance code h c).advance code' h' c' = f.advance (code ++ code') (h ++ h') c' := by
  have hcode := emitAll_congr (f := f.advance code h c) (g := emitAll f code) code' rfl rfl
  rw [← emitAll_append] at hcode
  unfold advance at hcode ⊢
  rw [hcode.1, hcode.2, noteHistory_append]

end IRFunction

/-! ## Advancing the generator's state -/

namespace GenState

/-- The state after `code` was emitted and `history` happened, with counters `c`
and symbol table `st`. -/
def after (s : GenState) (code : List IRInstruction) (history : List Event) (c : Counters)
    (st : SymbolTable) : GenState :=
  ⟨s.f.advance code history c, st, s.history ++ history⟩

@[simp] theorem after_symbolTable (s : GenState) (code : List IRInstruction)
    (history : List Event) (c : Counters) (st : SymbolTable) :
    (s.after code history c st).symbolTable = st := rfl

@[simp] theorem after_counters (s : GenState) (code : List IRInstruction)
    (history : List Event) (c : Counters) (st : SymbolTable) :
    (s.after code history c st).f.counters = c := rfl

@[simp] theorem after_vregCount (s : GenState) (code : List IRInstruction)
    (history : List Event) (c : Counters) (st : SymbolTable) :
    (s.after code history c st).f.vregCount = c.vreg := rfl

theorem after_after (s : GenState) (code code' : List IRInstruction) (h h' : List Event)
    (c c' : Counters) (st st' : SymbolTable) :
    (s.after code h c st).after code' h' c' st' = s.after (code ++ code') (h ++ h') c' st' := by
  unfold after
  rw [IRFunction.advance_advance, List.append_assoc]

@[simp] theorem after_nil (s : GenState) : s.after [] [] s.f.counters s.symbolTable = s := by
  simp [after, IRFunction.advance, emitAll, IRFunction.counters]

/-- The state after an expression. -/
def afterExpr (s : GenState) (o : ExprOut) : GenState :=
  s.after o.code o.history { s.f.counters with vreg := o.next } s.symbolTable

@[simp] theorem afterExpr_symbolTable (s : GenState) (o : ExprOut) :
    (s.afterExpr o).symbolTable = s.symbolTable := rfl

@[simp] theorem afterExpr_vregCount (s : GenState) (o : ExprOut) :
    (s.afterExpr o).f.vregCount = o.next := rfl

end GenState

/-- One expression after another. -/
def ExprOut.andThen (o o' : ExprOut) : ExprOut :=
  ⟨o.code ++ o'.code, o'.reg, o'.next, o.history ++ o'.history⟩

theorem GenState.afterExpr_afterExpr (s : GenState) (o o' : ExprOut) :
    (s.afterExpr o).afterExpr o' = s.afterExpr (o.andThen o') := by
  unfold afterExpr
  rw [after_after]
  rfl

theorem finish_eq_andThen (o : ExprOut) (inst : Nat → IRInstruction) :
    finish o.code o.next o.history inst = o.andThen (finish [] o.next [] inst) := by
  unfold finish ExprOut.andThen
  split <;> simp

/-! ## The primitive steps -/

section Primitives

variable {α : Type} {s : GenState} {P : Unit → GenState → Prop} {E : Stop → Prop}

theorem emitInst_run (inst : IRInstruction) (s : GenState) :
    emitInst inst s = .ok ((), s.after [inst] [] s.f.counters s.symbolTable) := by
  show Except.ok ((), { s with f := emit s.f inst }) = _
  have hemit : emit s.f inst = s.f.advance [inst] [] s.f.counters := by
    unfold IRFunction.advance emitAll IRFunction.counters
    simp only [List.foldl_cons, List.foldl_nil, noteHistory_nil]
    unfold emit
    split <;> rfl
  simp only [GenState.after, List.append_nil, hemit]

theorem ensures_emitInst (inst : IRInstruction) :
    Ensures (emitInst inst) s P E ↔ P () (s.after [inst] [] s.f.counters s.symbolTable) :=
  ensures_of_eq (emitInst_run inst s)

/-- Recording what is not an error. -/
theorem record_run {e : Event} (s : GenState)
    (h : noteEvent s.f.name s.f.filename s.f.errors e = s.f.errors) :
    record e s = .ok ((), s.after [] [e] s.f.counters s.symbolTable) := by
  show Except.ok ((), { s with history := s.history ++ [e] }) = _
  have hadvance : s.f.advance [] [e] s.f.counters = s.f := by
    unfold IRFunction.advance noteHistory
    simp only [List.foldl_cons, List.foldl_nil, h]
    rfl
  simp only [GenState.after, hadvance]

/-- Giving up silently. -/
theorem giveUp_run (reason : Drop) (s : GenState) (h : reason.message s.f.name = none) :
    giveUp reason s = .ok (0, s.after [] [.drop reason] s.f.counters s.symbolTable) := by
  have hrecord := record_run (e := .drop reason) s (by simp [noteEvent, h])
  exact bind_run hrecord

/-- The state in which the generator gives up with an error. -/
theorem after_drop_eq (reason : Drop) {line column : Nat} {message : String} (s : GenState)
    (h : reason.message s.f.name = some (line, column, message)) :
    s.after [] [.drop reason] s.f.counters s.symbolTable =
      ⟨s.f.error line column message, s.symbolTable, s.history ++ [.drop reason]⟩ := by
  have hadvance : s.f.advance [] [.drop reason] s.f.counters =
      s.f.error line column message := by
    unfold IRFunction.advance noteHistory
    simp only [List.foldl_cons, List.foldl_nil, noteEvent, h]
    rfl
  simp only [GenState.after, hadvance]

/-- Giving up with an error at a node. -/
theorem reportError_giveUp_run (reason : Drop) {info : NodeInfo} {message : String}
    (s : GenState)
    (h : reason.message s.f.name = some (info.line, info.column, message)) :
    (reportError info message >>= fun _ => giveUp reason) s =
      .ok (0, s.after [] [.drop reason] s.f.counters s.symbolTable) := by
  rw [after_drop_eq reason s h]
  rfl

/-- A register is missing. -/
theorem allocVreg_giveUp_run {reg : Nat → GenM Nat} (s : GenState)
    (h : s.f.vregCount ≥ maxVregsPerFunction) :
    (do
      let some r ← allocVreg | giveUp .vregLimit
      reg r : GenM Nat) s =
      .ok (0, s.after [] [.drop .vregLimit] s.f.counters s.symbolTable) := by
  have halloc : allocVreg s =
      .ok (none, { s with f := s.f.error 0 0 (vregLimitMessage s.f.name) }) := by
    show Except.ok ((irAllocVreg s.f).1, { s with f := (irAllocVreg s.f).2 }) = _
    simp only [irAllocVreg, h, if_true]
  rw [after_drop_eq .vregLimit s rfl]
  rw [bind_run halloc]
  rfl

/-- A fresh register. -/
theorem allocVreg_run (s : GenState) (h : ¬ s.f.vregCount ≥ maxVregsPerFunction) :
    allocVreg s = .ok (some s.f.vregCount,
      s.after [] [] { s.f.counters with vreg := s.f.vregCount + 1 } s.symbolTable) := by
  show Except.ok ((irAllocVreg s.f).1, { s with f := (irAllocVreg s.f).2 }) = _
  simp only [irAllocVreg, h, if_false, GenState.after, List.append_nil]
  rfl

/-- One instruction into a fresh register, which may be missing. -/
theorem finish_run (inst : Nat → IRInstruction) (s : GenState) :
    (do
      let some reg ← allocVreg | giveUp .vregLimit
      emitInst (inst reg)
      return reg : GenM Nat) s =
      .ok ((finish [] s.f.vregCount [] inst).reg,
        s.afterExpr (finish [] s.f.vregCount [] inst)) := by
  by_cases h : s.f.vregCount ≥ maxVregsPerFunction
  · rw [allocVreg_giveUp_run s h]
    simp only [finish, h, if_true, GenState.afterExpr]
    rfl
  · have hemit := emitInst_run (inst s.f.vregCount)
      (s.after [] [] { s.f.counters with vreg := s.f.vregCount + 1 } s.symbolTable)
    rw [GenState.after_after] at hemit
    rw [bind_run (allocVreg_run s h)]
    show (emitInst (inst s.f.vregCount) >>= _) _ = _
    rw [bind_run hemit]
    simp only [finish, h, if_false, GenState.afterExpr]
    rfl

theorem ensures_finish {inst : Nat → IRInstruction} {Q : Nat → GenState → Prop} :
    Ensures (do
      let some reg ← allocVreg | giveUp .vregLimit
      emitInst (inst reg)
      return reg) s Q E ↔
      Q (finish [] s.f.vregCount [] inst).reg
        (s.afterExpr (finish [] s.f.vregCount [] inst)) :=
  ensures_of_eq (finish_run inst s)

end Primitives

/-! ## Symbol tables and scopes -/

/-- The symbol table binds exactly the names in scope. -/
structure SymbolTable.Binds (st : SymbolTable) (env : Env) : Prop where
  consistent : st.Consistent
  binds : ∀ name, st.bindingOf name = (env.lookup name).map (·.binding)

theorem SymbolTable.binds_init : SymbolTable.init.Binds [] := by
  refine ⟨SymbolTable.consistent_init, ?_⟩
  intro name
  have hnone : symbolTableLookup SymbolTable.init name = none := by
    rw [Option.eq_none_iff_forall_ne_some]
    intro s hs
    have hkey := SymbolTable.consistent_init.lookup_iff.mp hs
    simp [SymbolTable.keyAt, SymbolTable.init] at hkey
  simp [SymbolTable.bindingOf, hnone]

theorem SymbolTable.Binds.bind {st st' : SymbolTable} {env : Env} {name : StringView}
    {e : Entry} (h : st.Binds env) (hbind : st.bind name e.binding = some st') :
    st'.Binds ((name, e) :: env) := by
  refine ⟨h.consistent.bind hbind, ?_⟩
  intro other
  rw [SymbolTable.bindingOf_bind h.consistent hbind, h.binds, List.lookup_cons]
  by_cases hname : other = name
  · simp [hname]
  · have hbeq : (other == name) = false := by simpa using hname
    simp [hname, hbeq]

/-- A name in scope has an entry in the table. -/
theorem SymbolTable.Binds.lookup_some {st : SymbolTable} {env : Env} {name : StringView}
    {e : Entry} (h : st.Binds env) (henv : env.lookup name = some e) :
    ∃ sym, symbolTableLookup st name = some sym ∧ st.bindingAt sym = e.binding := by
  have hb := h.binds name
  rw [henv, Option.map_some] at hb
  exact Option.map_eq_some_iff.mp hb

theorem SymbolTable.Binds.lookup_none {st : SymbolTable} {env : Env} {name : StringView}
    (h : st.Binds env) (henv : env.lookup name = none) : symbolTableLookup st name = none := by
  have hb := h.binds name
  rw [henv, Option.map_none] at hb
  exact Option.map_eq_none_iff.mp hb

/-! ## Expressions -/

/-- Only a null pointer has no register and no annotation. -/
theorem valueType?_of_lowerExpr {env : Env} {node : ASTNode} {next : Nat}
    (h : (lowerExpr env node next).reg ≠ 0) : node.valueType? = some (typeOf node) := by
  cases node with
  | null => exact absurd rfl h
  | _ => rfl

theorem valueTypeOf_eq {node : ASTNode} (h : node.valueType? = some (typeOf node)) :
    valueTypeOf node = pure (typeOf node) := by
  simp only [valueTypeOf, h]

/-- The state after the arguments of a call. -/
def GenState.afterArgs (s : GenState) (a : ArgsOut) : GenState :=
  s.after a.code a.history { s.f.counters with vreg := a.next } s.symbolTable

/-- Arguments that all have a register are annotated. -/
theorem emitArgs_run {pairs : List (ASTNode × Nat)} (i : Nat) (s : GenState)
    (h : ∀ p ∈ pairs, p.1.valueType? = some (typeOf p.1)) :
    emitArgs pairs i s = .ok ((), s.after (argInsts pairs i) [] s.f.counters s.symbolTable) := by
  induction pairs generalizing i s with
  | nil =>
    rw [argInsts, GenState.after_nil]
    rfl
  | cons p pairs ih =>
    obtain ⟨arg, reg⟩ := p
    have harg := valueTypeOf_eq (h (arg, reg) (by simp))
    simp only [emitArgs, harg, pure_bind]
    rw [bind_run (emitInst_run _ s), ih _ _ (fun p hp => h p (by simp [hp]))]
    rw [GenState.after_counters, GenState.after_symbolTable, GenState.after_after]
    rfl

/-- The registers of lowered arguments stand beside annotated arguments. -/
theorem lowerArgs_annotated {env : Env} {args : List ASTNode} {next : Nat} {regs : List Nat}
    (h : (lowerArgs env args next).regs = some regs) :
    ∀ p ∈ args.zip regs, p.1.valueType? = some (typeOf p.1) := by
  induction args generalizing next regs with
  | nil => simp
  | cons arg rest ih =>
    simp only [lowerArgs] at h
    split at h
    · exact absurd h (by simp)
    · rename_i hreg
      obtain ⟨regs', hregs', rfl⟩ := Option.map_eq_some_iff.mp h
      intro p hp
      rcases List.mem_cons.mp hp with rfl | hp
      · exact valueType?_of_lowerExpr hreg
      · exact ih hregs' p hp

section Expressions

variable {env : Env}

-- Both blocks recur on the tree and are rewritten with in every case below.
attribute [local simp] genExpression genArgs lowerExpr lowerArgs

/-- What `gen_expression` must do from a state that binds the scope. -/
def ExprSpec (env : Env) (node : ASTNode) (s : GenState) : Prop :=
  Ensures (genExpression node) s
    (fun reg s' => reg = (lowerExpr env node s.f.vregCount).reg ∧
      s' = s.afterExpr (lowerExpr env node s.f.vregCount))
    (fun stop => stop = .argumentOverflow ∧ ¬ node.CompleteExpr)

/-- What the argument loop must do. -/
def ArgsSpec (env : Env) (args : List ASTNode) (i : Nat) (s : GenState) : Prop :=
  Ensures (genArgs args i) s
    (fun regs s' => regs = (lowerArgs env args s.f.vregCount).regs ∧
      s' = s.afterArgs (lowerArgs env args s.f.vregCount))
    (fun stop => stop = .argumentOverflow ∧
      ¬ (i + args.length ≤ maxParamsPerFunction ∧ CompleteArgs args))

theorem genMisplaced_run (info : NodeInfo) (s : GenState) :
    genMisplaced info s =
      .ok (0, s.afterExpr ⟨[], 0, s.f.vregCount, [.drop (.statementInExpression info)]⟩) :=
  reportError_giveUp_run (.statementInExpression info) s rfl

theorem exprSpec_number (info : NodeInfo) (value : StringView) (s : GenState) :
    ExprSpec env (.number info value) s := by
  unfold ExprSpec
  simp only [genExpression, genNumber]
  exact ensures_finish.mpr ⟨rfl, rfl⟩

theorem exprSpec_identifier (info : NodeInfo) (name : StringView) (s : GenState)
    (hst : s.symbolTable.Binds env) : ExprSpec env (.identifier info name) s := by
  unfold ExprSpec
  simp only [genExpression, genIdentifier]
  cases henv : env.lookup name with
  | none =>
    have hlower : lowerExpr env (.identifier info name) s.f.vregCount =
        ⟨[], 0, s.f.vregCount, [.drop (.undefinedVariable info name)]⟩ := by
      simp only [lowerExpr, henv]
    have hlookup : lookupSymbol name s = .ok (none, s) := by
      show Except.ok (symbolTableLookup s.symbolTable name, s) = _
      rw [hst.lookup_none henv]
    rw [hlower, ensures_bind, ensures_of_eq hlookup]
    rw [ensures_of_eq (reportError_giveUp_run (.undefinedVariable info name) s rfl)]
    exact ⟨rfl, rfl⟩
  | some e =>
    obtain ⟨sym, hsym, hbinding⟩ := hst.lookup_some henv
    have hlookup : lookupSymbol name s = .ok (some sym, s) := by
      show Except.ok (symbolTableLookup s.symbolTable name, s) = _
      rw [hsym]
    have hget : (get : GenM GenState) s = .ok (s, s) := rfl
    rw [ensures_bind, ensures_of_eq hlookup, ensures_bind, ensures_of_eq hget]
    simp only [hbinding]
    rw [ensures_bind, ensures_of_eq (record_run (e := .resolved info.addr e.binding) s rfl)]
    simp only [lowerExpr, henv]
    split
    · have hfinish := finish_eq_andThen ⟨[], 0, s.f.vregCount, [.resolved info.addr e.binding]⟩
      simp only at hfinish
      refine ensures_finish.mpr ?_
      rw [hfinish, ← GenState.afterExpr_afterExpr]
      exact ⟨rfl, rfl⟩
    · rw [ensures_pure]
      exact ⟨rfl, rfl⟩

/-- `gen_unary` after its operand. -/
theorem exprSpec_unary {op : UnaryOp} {info : NodeInfo} {operand : ASTNode} {s : GenState}
    (ih : ExprSpec env operand s) : ExprSpec env (.unary op info operand) s := by
  unfold ExprSpec
  simp only [genExpression, genUnary]
  rw [ensures_bind]
  refine ih.imp ?_ fun stop h => h
  rintro reg s' ⟨rfl, rfl⟩
  simp only [lowerExpr]
  split
  · rename_i hreg
    rw [ensures_pure]
    exact ⟨hreg.symm, rfl⟩
  · refine ensures_finish.mpr ?_
    rw [finish_eq_andThen, ← GenState.afterExpr_afterExpr]
    exact ⟨rfl, rfl⟩

/-- `gen_binary_op` after its operands. -/
theorem exprSpec_binary {op : BinaryOp} {info : NodeInfo} {left right : ASTNode}
    {s : GenState} (ihl : ExprSpec env left s)
    (ihr : ExprSpec env right (s.afterExpr (lowerExpr env left s.f.vregCount))) :
    ExprSpec env (.binary op info left right) s := by
  unfold ExprSpec
  simp only [genExpression, genBinaryOp]
  rw [ensures_bind]
  refine ihl.imp ?_ fun stop h => ⟨h.1, fun hc => h.2 hc.1⟩
  rintro reg s' ⟨rfl, rfl⟩
  simp only [lowerExpr]
  split
  · rename_i hreg
    rw [ensures_pure]
    exact ⟨hreg.symm, rfl⟩
  · rename_i hleft
    rw [ensures_bind]
    refine ihr.imp ?_ fun stop h => ⟨h.1, fun hc => h.2 hc.2⟩
    rintro reg s' ⟨rfl, rfl⟩
    rw [GenState.afterExpr_vregCount, GenState.afterExpr_afterExpr]
    split
    · rename_i hreg
      rw [ensures_pure]
      exact ⟨rfl, rfl⟩
    · rw [valueTypeOf_eq (valueType?_of_lowerExpr hleft)]
      simp only [pure_bind]
      have hfinish := finish_eq_andThen ((lowerExpr env left s.f.vregCount).andThen
        (lowerExpr env right (lowerExpr env left s.f.vregCount).next))
      simp only [ExprOut.andThen] at hfinish
      refine ensures_finish.mpr ?_
      rw [hfinish]
      refine ⟨rfl, ?_⟩
      exact GenState.afterExpr_afterExpr ..

/-- `gen_call` after its arguments. -/
theorem exprSpec_call {info : NodeInfo} {functionName : StringView} {args : List ASTNode}
    {s : GenState} (ih : ArgsSpec env args 0 s) :
    ExprSpec env (.call info functionName args) s := by
  unfold ExprSpec
  simp only [genExpression, genCall]
  rw [ensures_bind]
  refine ih.imp ?_ ?_
  · rintro regs s' ⟨rfl, rfl⟩
    simp only [lowerExpr]
    cases hregs : (lowerArgs env args s.f.vregCount).regs with
    | none =>
      simp only []
      rw [ensures_pure]
      exact ⟨rfl, rfl⟩
    | some regs =>
      simp only []
      rw [ensures_bind, ensures_of_eq (emitArgs_run 0 _ (lowerArgs_annotated hregs))]
      refine ensures_finish.mpr ?_
      rw [GenState.afterArgs, GenState.after_after]
      set a := lowerArgs env args s.f.vregCount
      have hfinish := finish_eq_andThen
        ⟨a.code ++ argInsts (args.zip regs) 0, 0, a.next, a.history⟩
      simp only at hfinish
      rw [hfinish, List.append_nil]
      refine ⟨rfl, ?_⟩
      exact GenState.after_after ..
  · rintro stop ⟨hstop, hfit⟩
    refine ⟨hstop, fun hc => hfit ⟨?_, hc.2⟩⟩
    rw [Nat.zero_add]
    exact hc.1

mutual

/-- `gen_expression` computes `lowerExpr`. -/
theorem genExpression_ensures : ∀ (node : ASTNode) (s : GenState),
    s.symbolTable.Binds env → ExprSpec env node s
  | .null, s, _ => (ensures_of_eq (giveUp_run .missingNode s rfl)).mpr ⟨rfl, rfl⟩
  | .number info value, s, _ => exprSpec_number info value s
  | .identifier info name, s, hst => exprSpec_identifier info name s hst
  | .unary _ _ operand, s, hst => exprSpec_unary (genExpression_ensures operand s hst)
  | .binary _ _ left right, s, hst =>
      exprSpec_binary (genExpression_ensures left s hst) (genExpression_ensures right _ hst)
  | .call _ _ args, s, hst => exprSpec_call (genArgs_ensures args 0 s hst)
  | .varDecl info _ _ _, s, _ => (ensures_of_eq (genMisplaced_run info s)).mpr ⟨rfl, rfl⟩
  | .assignment info _ _, s, _ => (ensures_of_eq (genMisplaced_run info s)).mpr ⟨rfl, rfl⟩
  | .returnStmt info _, s, _ => (ensures_of_eq (genMisplaced_run info s)).mpr ⟨rfl, rfl⟩
  | .ifStmt info _ _ _, s, _ => (ensures_of_eq (genMisplaced_run info s)).mpr ⟨rfl, rfl⟩
  | .whileStmt info _ _, s, _ => (ensures_of_eq (genMisplaced_run info s)).mpr ⟨rfl, rfl⟩
  | .block info _, s, _ => (ensures_of_eq (genMisplaced_run info s)).mpr ⟨rfl, rfl⟩
  | .function info _ _ _ _ _, s, _ =>
      (ensures_of_eq (genMisplaced_run info s)).mpr ⟨rfl, rfl⟩
  | .translationUnit info _, s, _ => (ensures_of_eq (genMisplaced_run info s)).mpr ⟨rfl, rfl⟩

/-- The argument loop computes `lowerArgs`. -/
theorem genArgs_ensures : ∀ (args : List ASTNode) (i : Nat) (s : GenState),
    s.symbolTable.Binds env → ArgsSpec env args i s
  | [], i, s, _ => by
      unfold ArgsSpec
      simp only [genArgs, lowerArgs]
      rw [ensures_pure]
      exact ⟨rfl, (GenState.after_nil s).symm⟩
  | arg :: rest, i, s, hst => by
      unfold ArgsSpec
      simp only [genArgs]
      rw [ensures_bind]
      refine (genExpression_ensures arg s hst).imp ?_ ?_
      · rintro reg s' ⟨rfl, rfl⟩
        split
        · rename_i hfull
          refine ⟨rfl, fun hc => ?_⟩
          rw [List.length_cons] at hc
          omega
        · simp only [lowerArgs]
          split
          · rw [ensures_pure]
            exact ⟨rfl, rfl⟩
          · rw [ensures_bind]
            refine Ensures.imp (genArgs_ensures rest (i + 1)
              (s.afterExpr (lowerExpr env arg s.f.vregCount)) hst) ?_ ?_
            · rintro regs s' ⟨rfl, rfl⟩
              rw [GenState.afterExpr_vregCount]
              cases (lowerArgs env rest (lowerExpr env arg s.f.vregCount).next).regs with
              | none =>
                simp only []
                rw [ensures_pure]
                exact ⟨rfl, GenState.after_after ..⟩
              | some regs =>
                simp only []
                rw [ensures_pure]
                exact ⟨rfl, GenState.after_after ..⟩
            · rintro stop ⟨hstop, hfit⟩
              refine ⟨hstop, fun hc => hfit ⟨?_, hc.2.2⟩⟩
              have := hc.1
              rw [List.length_cons] at this
              omega
      · rintro stop ⟨hstop, hfit⟩
        exact ⟨hstop, fun hc => hfit hc.2.1⟩

end

end Expressions

/-! ## Statements -/

/-- The state after a statement, with the symbol table it leaves. -/
def GenState.afterStmt (s : GenState) (o : StmtOut) (st : SymbolTable) : GenState :=
  s.after o.code o.history o.counters st

/-- One statement after another. -/
def StmtOut.andThen (o o' : StmtOut) : StmtOut :=
  ⟨o.code ++ o'.code, o'.env, o'.counters, o.history ++ o'.history⟩

theorem GenState.afterStmt_afterStmt (s : GenState) (o o' : StmtOut) (st st' : SymbolTable) :
    (s.afterStmt o st).afterStmt o' st' = s.afterStmt (o.andThen o') st' :=
  after_after ..

@[simp] theorem GenState.afterStmt_counters (s : GenState) (o : StmtOut) (st : SymbolTable) :
    (s.afterStmt o st).f.counters = o.counters := rfl

@[simp] theorem GenState.afterStmt_symbolTable (s : GenState) (o : StmtOut)
    (st : SymbolTable) : (s.afterStmt o st).symbolTable = st := rfl

/-- The table a statement leaves binds the scope behind it and can be restored to
whatever the table before it could be restored to. -/
structure SymbolTable.Leaves (st : SymbolTable) (env : Env) (st' : SymbolTable) : Prop where
  binds : st'.Binds env
  since : ∀ st₀ : SymbolTable, st₀.Since st → st₀.Since st'

theorem SymbolTable.Leaves.trans {st st' st'' : SymbolTable} {env env' : Env}
    (h : st.Leaves env st') (h' : st'.Leaves env' st'') : st.Leaves env' st'' :=
  ⟨h'.binds, fun st₀ h₀ => h'.since st₀ (h.since st₀ h₀)⟩

theorem SymbolTable.Binds.leaves {st : SymbolTable} {env : Env} (h : st.Binds env) :
    st.Leaves env st :=
  ⟨h, fun _ h₀ => h₀⟩

section Statements

variable {env : Env}

attribute [local simp] genStatement genStatements lowerStmt lowerStmts

/-- What a computation that lowers to `o` must do. -/
def StmtEnsures (m : GenM Unit) (s : GenState) (o : StmtOut) (complete : Prop) : Prop :=
  Ensures m s
    (fun _ s' => ∃ st', s.symbolTable.Leaves o.env st' ∧ s' = s.afterStmt o st')
    (fun stop => stop = .symbolTableOverflow ∨ ¬ complete)

/-- What `gen_statement` must do from a state that binds the scope. -/
def StmtSpec (env : Env) (node : ASTNode) (s : GenState) : Prop :=
  StmtEnsures (genStatement node) s (lowerStmt env node s.f.counters) node.CompleteStmt

/-- What the statement loop must do. -/
def StmtsSpec (env : Env) (nodes : List ASTNode) (s : GenState) : Prop :=
  StmtEnsures (genStatements nodes) s (lowerStmts env nodes s.f.counters) (CompleteStmts nodes)

theorem newLabel_run (s : GenState) :
    newLabel s = .ok (s.f.labelCount,
      s.after [] [] { s.f.counters with label := s.f.labelCount + 1 } s.symbolTable) := by
  show Except.ok (s.f.labelCount,
    ({ s with f := { s.f with labelCount := s.f.labelCount + 1 } } : GenState)) = _
  rw [GenState.after, List.append_nil]
  rfl

theorem newStackSlot_run (s : GenState) :
    newStackSlot s = .ok (s.f.stackCount,
      s.after [] [] { s.f.counters with stack := s.f.stackCount + 1 } s.symbolTable) := by
  show Except.ok (s.f.stackCount,
    ({ s with f := { s.f with stackCount := s.f.stackCount + 1 } } : GenState)) = _
  rw [GenState.after, List.append_nil]
  rfl

/-- An expression in statement position. -/
theorem stmtSpec_expr {node : ASTNode} {s : GenState} (hst : s.symbolTable.Binds env)
    (hgen : genStatement node = discard (genExpression node))
    (hlower : lowerStmt env node s.f.counters =
      exprStmt env (lowerExpr env node s.f.vregCount) s.f.counters)
    (hcomplete : node.CompleteStmt → node.CompleteExpr) : StmtSpec env node s := by
  unfold StmtSpec StmtEnsures
  have hdiscard : discard (genExpression node) = genExpression node >>= fun _ => pure () := by
    rw [bind_pure_comp]
    rfl
  rw [hgen, hlower, hdiscard, ensures_bind]
  refine (genExpression_ensures node s hst).imp ?_ fun stop h => .inr fun hc => h.2 (hcomplete hc)
  rintro reg s' ⟨-, rfl⟩
  rw [ensures_pure]
  exact ⟨s.symbolTable, hst.leaves, rfl⟩

/-- A value and the instruction that uses it. -/
theorem stmtEnsures_value {m : GenM Nat} {s : GenState} {o : ExprOut} {complete : Prop}
    (inst : Nat → IRInstruction) (hst : s.symbolTable.Binds env)
    (hm : Ensures m s (fun reg s' => reg = o.reg ∧ s' = s.afterExpr o)
      (fun stop => stop = .argumentOverflow ∧ ¬ complete)) :
    StmtEnsures (do
        let reg ← m
        if reg = 0 then return ()
        emitInst (inst reg)) s
      ⟨o.code ++ if o.reg = 0 then [] else [inst o.reg], env,
        { s.f.counters with vreg := o.next }, o.history⟩ complete := by
  unfold StmtEnsures
  rw [ensures_bind]
  refine hm.imp ?_ fun stop h => .inr h.2
  rintro reg s' ⟨rfl, rfl⟩
  split
  · rw [ensures_pure]
    refine ⟨s.symbolTable, hst.leaves, ?_⟩
    rw [List.append_nil]
    rfl
  · rw [ensures_emitInst]
    refine ⟨s.symbolTable, hst.leaves, ?_⟩
    refine (GenState.after_after ..).trans ?_
    rw [List.append_nil]
    rfl

/-- Two statements in a row. -/
theorem StmtEnsures.andThen {m k : GenM Unit} {s : GenState} {o o' : StmtOut}
    {complete : Prop} (hm : StmtEnsures m s o complete)
    (hk : ∀ st', s.symbolTable.Leaves o.env st' →
      StmtEnsures k (s.afterStmt o st') o' complete) :
    StmtEnsures (m >>= fun _ => k) s (o.andThen o') complete := by
  unfold StmtEnsures
  rw [ensures_bind]
  refine Ensures.imp hm ?_ fun stop h => h
  rintro _ s' ⟨st', hleaves, rfl⟩
  refine Ensures.imp (hk st' hleaves) ?_ fun stop h => h
  rintro _ s'' ⟨st'', hleaves', rfl⟩
  exact ⟨st'', hleaves.trans hleaves', GenState.afterStmt_afterStmt ..⟩

/-- A statement that is part of another one, from known counters. -/
theorem StmtSpec.part {node : ASTNode} {s : GenState} {c : Counters} {complete : Prop}
    (h : StmtSpec env node s) (hc : s.f.counters = c) (hcomplete : complete → node.CompleteStmt) :
    StmtEnsures (genStatement node) s (lowerStmt env node c) complete := by
  subst hc
  exact Ensures.imp h (fun _ _ h => h) fun _ h => h.imp id fun hn hc => hn (hcomplete hc)

theorem stmtEnsures_emitInst {inst : IRInstruction} {s : GenState} {c : Counters}
    {complete : Prop} (hst : s.symbolTable.Binds env) (hc : s.f.counters = c) :
    StmtEnsures (emitInst inst) s ⟨[inst], env, c, []⟩ complete := by
  subst hc
  unfold StmtEnsures
  rw [ensures_emitInst]
  exact ⟨s.symbolTable, hst.leaves, rfl⟩

theorem stmtEnsures_pure {s : GenState} {complete : Prop} (hst : s.symbolTable.Binds env) :
    StmtEnsures (pure ()) s ⟨[], env, s.f.counters, []⟩ complete := by
  unfold StmtEnsures
  rw [ensures_pure]
  exact ⟨s.symbolTable, hst.leaves, (GenState.after_nil s).symm⟩

theorem stmtSpec_return {info : NodeInfo} {expression : ASTNode} {s : GenState}
    (hst : s.symbolTable.Binds env) : StmtSpec env (.returnStmt info expression) s := by
  unfold StmtSpec
  simp only [genStatement, genReturn, lowerStmt]
  refine stmtEnsures_value (fun reg =>
    ({ opcode := .ret, type := info.valueType, src1 := reg } : IRInstruction)) hst ?_
  unfold genReturned lowerReturned
  split
  · rename_i hnull
    rw [ensures_of_eq (giveUp_run .returnWithoutExpression s rfl)]
    exact ⟨rfl, rfl⟩
  · rename_i hnull
    refine (genExpression_ensures expression s hst).imp (fun _ _ h => h) ?_
    exact fun stop h => ⟨h.1, fun hc => h.2 (hc.resolve_left hnull)⟩

theorem genInitializer_ensures (varType : DataType) (initializer : ASTNode) {s : GenState}
    (hst : s.symbolTable.Binds env) :
    Ensures (genInitializer varType initializer) s
      (fun reg s' => reg = (lowerInit env varType initializer s.f.vregCount).reg ∧
        s' = s.afterExpr (lowerInit env varType initializer s.f.vregCount))
      (fun stop => stop = .argumentOverflow ∧
        ¬ (initializer.isNull = true ∨ initializer.CompleteExpr)) := by
  unfold genInitializer lowerInit
  split
  · exact ensures_finish.mpr ⟨rfl, rfl⟩
  · rename_i hnull
    refine (genExpression_ensures initializer s hst).imp (fun _ _ h => h) ?_
    exact fun stop h => ⟨h.1, fun hc => h.2 (hc.resolve_left hnull)⟩

theorem stmtSpec_assignment {info : NodeInfo} {varName : StringView} {value : ASTNode}
    {s : GenState} (hst : s.symbolTable.Binds env) :
    StmtSpec env (.assignment info varName value) s := by
  unfold StmtSpec
  simp only [genStatement, genAssignment, lowerStmt]
  cases henv : env.lookup varName with
  | none =>
    have hlookup : lookupSymbol varName s = .ok (none, s) := by
      show Except.ok (symbolTableLookup s.symbolTable varName, s) = _
      rw [hst.lookup_none henv]
    unfold StmtEnsures
    rw [ensures_bind, ensures_of_eq hlookup]
    have hreport := after_drop_eq (.undefinedTarget info varName) s rfl
    refine ⟨s.symbolTable, hst.leaves, ?_⟩
    exact hreport.symm
  | some e =>
    obtain ⟨sym, hsym, hbinding⟩ := hst.lookup_some henv
    have hlookup : lookupSymbol varName s = .ok (some sym, s) := by
      show Except.ok (symbolTableLookup s.symbolTable varName, s) = _
      rw [hsym]
    have hget : ∀ s : GenState, (get : GenM GenState) s = .ok (s, s) := fun _ => rfl
    unfold StmtEnsures
    rw [ensures_bind, ensures_of_eq hlookup]
    simp only []
    rw [ensures_bind, ensures_of_eq (hget s), hbinding]
    rw [ensures_bind, ensures_of_eq (record_run (e := .resolved info.addr e.binding) s rfl)]
    rw [ensures_bind]
    set s₁ := s.after [] [.resolved info.addr e.binding] s.f.counters s.symbolTable with hs₁
    refine (genExpression_ensures value s₁ hst).imp ?_ fun stop h => .inr h.2
    rintro reg s' ⟨rfl, rfl⟩
    have hvreg : s₁.f.vregCount = s.f.counters.vreg := rfl
    rw [hvreg]
    split
    · rw [ensures_pure]
      refine ⟨s.symbolTable, hst.leaves, ?_⟩
      refine (GenState.after_after ..).trans ?_
      simp only [List.append_nil]
      rfl
    · rw [ensures_bind, ensures_of_eq (hget _), GenState.afterExpr_symbolTable]
      have hb : s₁.symbolTable.bindingAt sym = e.binding := hbinding
      simp only [hb]
      rw [ensures_emitInst]
      refine ⟨s.symbolTable, hst.leaves, ?_⟩
      rw [hs₁, GenState.afterExpr, GenState.after_after, GenState.after_after]
      rw [List.append_nil]
      rfl

/-- `gen_block` restores the table. -/
theorem stmtSpec_block {info : NodeInfo} {statements : List ASTNode} {s : GenState}
    (hst : s.symbolTable.Binds env) (ih : StmtsSpec env statements s) :
    StmtSpec env (.block info statements) s := by
  unfold StmtSpec StmtEnsures
  simp only [genStatement, genBlock, lowerStmt]
  have hget : (get : GenM GenState) s = .ok (s, s) := rfl
  rw [ensures_bind, ensures_of_eq hget, ensures_bind]
  refine Ensures.imp ih ?_ fun stop h => h
  rintro _ s' ⟨st', hleaves, rfl⟩
  refine ⟨s.symbolTable, hst.leaves, ?_⟩
  have hrestore := (hleaves.since s.symbolTable (SymbolTable.Since.refl _)).restore
  show (⟨_, symbolTableRestore st' _, _⟩ : GenState) = _
  rw [hrestore]
  rfl

/-- Adding a local to the table and marking its entry is one bind. -/
theorem addSymbol_run (name : StringView) (vreg : Nat) (s : GenState) : addSymbol name vreg s =
    (match symbolTableAdd s.symbolTable name vreg with
      | some st => set { s with symbolTable := st }
      | none => throw Stop.symbolTableOverflow : GenM Unit) s := rfl

theorem ensures_addLocal {k : GenM Unit} {s : GenState} {varName : StringView} {index : Nat}
    {P : Unit → GenState → Prop} {E : Stop → Prop}
    (hE : s.symbolTable.bind varName ⟨index, true⟩ = none → E .symbolTableOverflow)
    (hk : ∀ st', s.symbolTable.bind varName ⟨index, true⟩ = some st' →
      Ensures k (s.after [] [] s.f.counters st') P E) :
    Ensures (do
      addSymbol varName index
      if let some sym ← lookupSymbol varName then
        modify fun s => { s with symbolTable := setIsStack s.symbolTable sym }
      k) s P E := by
  rw [ensures_bind]
  cases hadd : symbolTableAdd s.symbolTable varName index with
  | none =>
    have hrun : addSymbol varName index s = .error .symbolTableOverflow := by
      rw [addSymbol_run, hadd]
      rfl
    simpa only [Ensures, hrun] using hE (by simp [SymbolTable.bind, hadd])
  | some st =>
    have hrun : addSymbol varName index s = .ok ((), { s with symbolTable := st }) := by
      rw [addSymbol_run, hadd]
      rfl
    have hafter : ∀ st' : SymbolTable,
        s.after [] [] s.f.counters st' = { s with symbolTable := st' } := by
      intro st'
      rw [GenState.after, List.append_nil]
      rfl
    have hlookup : lookupSymbol varName { s with symbolTable := st } =
        .ok (symbolTableLookup st varName, { s with symbolTable := st }) := rfl
    rw [ensures_of_eq hrun, ensures_bind, ensures_of_eq hlookup]
    cases hsym : symbolTableLookup st varName with
    | none =>
      have := hk st (by simp [SymbolTable.bind, hadd, hsym])
      rwa [hafter] at this
    | some sym =>
      have := hk (setIsStack st sym) (by simp [SymbolTable.bind, hadd, hsym])
      rwa [hafter] at this

theorem stmtSpec_varDecl {info : NodeInfo} {varName : StringView} {varType : DataType}
    {initializer : ASTNode} {s : GenState} (hst : s.symbolTable.Binds env) :
    StmtSpec env (.varDecl info varName varType initializer) s := by
  unfold StmtSpec StmtEnsures
  simp only [genStatement, genVarDecl, lowerStmt]
  rw [ensures_bind, ensures_of_eq (newStackSlot_run s)]
  refine ensures_addLocal (fun _ => .inl rfl) ?_
  intro st' hbind
  rw [GenState.after_symbolTable] at hbind
  rw [GenState.after_after, List.append_nil, List.append_nil, GenState.after_counters]
  set entry : Entry := ⟨.var info.addr, varType, ⟨s.f.stackCount, true⟩⟩
  have hbinds : st'.Binds ((varName, entry) :: env) := hst.bind hbind
  set s₁ := s.after [] [] { s.f.counters with stack := s.f.stackCount + 1 } st' with hs₁
  have hrecord := record_run (e := .declared info.addr varType s.f.stackCount) s₁ rfl
  rw [ensures_bind, ensures_of_eq hrecord, hs₁, GenState.after_after]
  set s₂ := s.after ([] ++ []) ([] ++ [.declared info.addr varType s.f.stackCount])
    s₁.f.counters s₁.symbolTable with hs₂
  have hleaves : s.symbolTable.Leaves ((varName, entry) :: env) st' :=
    ⟨hbinds, fun st₀ h₀ => h₀.bind hst.consistent hbind⟩
  let inst : Nat → IRInstruction := fun reg =>
    { opcode := .store, type := varType, dest := s.f.stackCount, src1 := reg }
  have hvalue := stmtEnsures_value (s := s₂) inst hbinds
    (genInitializer_ensures varType initializer hbinds)
  refine Ensures.imp hvalue ?_ fun stop h => h
  rintro _ s' ⟨st'', hleaves', rfl⟩
  refine ⟨st'', hleaves.trans hleaves', ?_⟩
  rw [hs₂]
  refine (GenState.after_after ..).trans ?_
  rfl

/-- A condition is lowered before anything else of its statement. -/
theorem stmtEnsures_condition {condition : ASTNode} {s : GenState} {o : StmtOut}
    {complete : Prop} {k : Nat → DataType → GenM Unit} (hst : s.symbolTable.Binds env)
    (hcomplete : complete → condition.CompleteExpr)
    (hk : condition.valueType? = some (typeOf condition) →
      Ensures (k (lowerExpr env condition s.f.vregCount).reg (typeOf condition))
        (s.afterExpr (lowerExpr env condition s.f.vregCount))
        (fun _ s' => ∃ st', s.symbolTable.Leaves o.env st' ∧ s' = s.afterStmt o st')
        (fun stop => stop = .symbolTableOverflow ∨ ¬ complete)) :
    StmtEnsures (do
      let condReg ← genExpression condition
      let condType ← valueTypeOf condition
      k condReg condType) s o complete := by
  unfold StmtEnsures
  rw [ensures_bind]
  refine (genExpression_ensures condition s hst).imp ?_ fun stop h =>
    .inr fun hc => h.2 (hcomplete hc)
  rintro reg s' ⟨rfl, rfl⟩
  by_cases htype : condition.valueType? = some (typeOf condition)
  · rw [valueTypeOf_eq htype, pure_bind]
    exact hk htype
  · have hnull : condition = .null := by
      cases condition with
      | null => rfl
      | _ => exact absurd rfl htype
    subst hnull
    exact .inr fun hc => hcomplete hc

/-- A statement and one more instruction. -/
theorem StmtEnsures.thenEmit {m : GenM Unit} {s : GenState} {o : StmtOut} {complete : Prop}
    (hm : StmtEnsures m s o complete) (inst : IRInstruction) :
    StmtEnsures (m >>= fun _ => emitInst inst) s
      ⟨o.code ++ [inst], o.env, o.counters, o.history ++ []⟩ complete :=
  @StmtEnsures.andThen _ _ _ _ ⟨[inst], o.env, o.counters, []⟩ _ hm fun _ h =>
    stmtEnsures_emitInst h.binds (GenState.afterStmt_counters ..)

/-- What follows a prefix that was generated already. -/
theorem StmtEnsures.from_after {m : GenM Unit} {s : GenState} {code : List IRInstruction}
    {history : List Event} {c : Counters} {o o' : StmtOut} {complete : Prop}
    (hm : StmtEnsures m (s.after code history c s.symbolTable) o complete)
    (ho : o' = ⟨code ++ o.code, o.env, o.counters, history ++ o.history⟩) :
    Ensures m (s.after code history c s.symbolTable)
      (fun _ s' => ∃ st', s.symbolTable.Leaves o'.env st' ∧ s' = s.afterStmt o' st')
      (fun stop => stop = .symbolTableOverflow ∨ ¬ complete) := by
  subst ho
  refine Ensures.imp hm ?_ fun stop h => h
  rintro _ s' ⟨st', hleaves, rfl⟩
  exact ⟨st', hleaves, GenState.after_after ..⟩

theorem stmtSpec_if {info : NodeInfo} {condition thenBranch elseBranch : ASTNode}
    {s : GenState} (hst : s.symbolTable.Binds env)
    (iht : ∀ s : GenState, s.symbolTable.Binds env → StmtSpec env thenBranch s)
    (ihe : ∀ (env : Env) (s : GenState), s.symbolTable.Binds env → StmtSpec env elseBranch s) :
    StmtSpec env (.ifStmt info condition thenBranch elseBranch) s := by
  unfold StmtSpec
  simp only [genStatement, genIf, lowerStmt]
  refine stmtEnsures_condition hst (fun hc => hc.1) fun htype => ?_
  have hv : s.f.counters.vreg = s.f.vregCount := rfl
  rw [hv]
  set o := lowerExpr env condition s.f.vregCount
  have hlabel : newLabel (s.afterExpr o) = .ok (s.f.counters.label,
      s.after o.code o.history ⟨o.next, s.f.counters.stack, s.f.counters.label + 1⟩
        s.symbolTable) := by
    rw [newLabel_run, GenState.afterExpr, GenState.after_after, List.append_nil,
      List.append_nil]
    rfl
  split
  · rw [ensures_bind, ensures_of_eq hlabel]
    set s₁ := s.after o.code o.history ⟨o.next, s.f.counters.stack, s.f.counters.label + 1⟩
      s.symbolTable
    have hs₁ : s₁.symbolTable.Binds env := hst
    split
    · refine (stmtEnsures_pure hs₁).from_after ?_
      simp only [List.append_nil]
      rfl
    · refine StmtEnsures.from_after (.andThen (stmtEnsures_emitInst hs₁ rfl) fun _ h₁ =>
        .thenEmit ((iht _ h₁.binds).part (GenState.afterStmt_counters ..) fun hc :
          (ASTNode.ifStmt info condition thenBranch elseBranch).CompleteStmt => hc.2.1) _) ?_
      simp only [StmtOut.andThen, List.append_assoc, List.nil_append, List.append_nil]
      rfl
  · rename_i helse
    rw [ensures_bind, ensures_of_eq hlabel, ensures_bind, ensures_of_eq (newLabel_run _)]
    rw [GenState.after_symbolTable, GenState.after_counters, GenState.after_after,
      List.append_nil, List.append_nil]
    set s₁ := s.after o.code o.history ⟨o.next, s.f.counters.stack, s.f.counters.label + 2⟩
      s.symbolTable
    have hs₁ : s₁.symbolTable.Binds env := hst
    split
    · refine (stmtEnsures_pure hs₁).from_after ?_
      simp only [List.append_nil]
      rfl
    · refine StmtEnsures.from_after (.andThen (stmtEnsures_emitInst hs₁ rfl) fun _ h₁ =>
        .andThen ((iht _ h₁.binds).part (GenState.afterStmt_counters ..) fun hc :
          (ASTNode.ifStmt info condition thenBranch elseBranch).CompleteStmt => hc.2.1)
        fun _ h₂ => .andThen (stmtEnsures_emitInst h₂.binds (GenState.afterStmt_counters ..))
        fun _ h₃ => .andThen (stmtEnsures_emitInst h₃.binds (GenState.afterStmt_counters ..))
        fun _ h₄ => .thenEmit ((ihe _ _ h₄.binds).part (GenState.afterStmt_counters ..) fun hc :
          (ASTNode.ifStmt info condition thenBranch elseBranch).CompleteStmt =>
            hc.2.2.resolve_left helse) _) ?_
      simp only [StmtOut.andThen, List.append_assoc, List.nil_append, List.append_nil]
      rfl

theorem stmtSpec_while {info : NodeInfo} {condition body : ASTNode} {s : GenState}
    (hst : s.symbolTable.Binds env)
    (ih : ∀ s : GenState, s.symbolTable.Binds env → StmtSpec env body s) :
    StmtSpec env (.whileStmt info condition body) s := by
  unfold StmtSpec StmtEnsures
  simp only [genStatement, genWhile, lowerStmt]
  rw [ensures_bind, ensures_of_eq (newLabel_run _)]
  rw [ensures_bind, ensures_of_eq (newLabel_run _)]
  rw [GenState.after_symbolTable, GenState.after_after]
  by_cases htype : condition.valueType? = some (typeOf condition)
  · rw [valueTypeOf_eq htype, pure_bind, ensures_bind, ensures_emitInst]
    rw [GenState.after_symbolTable, GenState.after_after, ensures_bind]
    have hv : s.f.counters.vreg = s.f.vregCount := rfl
    rw [hv]
    set s₁ := s.after [labelInst .label s.f.counters.label] []
      ⟨s.f.vregCount, s.f.counters.stack, s.f.counters.label + 2⟩ s.symbolTable with hs₁
    refine Ensures.imp (genExpression_ensures condition s₁ hst) ?_ fun stop h =>
      .inr fun hc => h.2 hc.1
    have hv₁ : s₁.f.vregCount = s.f.vregCount := rfl
    rintro reg s' ⟨rfl, rfl⟩
    rw [hv₁]
    set o := lowerExpr env condition s.f.vregCount
    rw [hs₁, GenState.afterExpr, GenState.after_symbolTable, GenState.after_after,
      List.nil_append]
    set s₂ := s.after ([labelInst .label s.f.counters.label] ++ o.code) o.history
      ⟨o.next, s.f.counters.stack, s.f.counters.label + 2⟩ s.symbolTable
    have hs₂ : s₂.symbolTable.Binds env := hst
    split
    · refine (stmtEnsures_pure hs₂).from_after ?_
      simp only [List.append_nil]
      rfl
    · refine StmtEnsures.from_after (.andThen (stmtEnsures_emitInst hs₂ rfl) fun _ h₁ =>
        .andThen ((ih _ h₁.binds).part (GenState.afterStmt_counters ..) fun hc :
          (ASTNode.whileStmt info condition body).CompleteStmt => hc.2)
        fun _ h₂ => .thenEmit
          (stmtEnsures_emitInst h₂.binds (GenState.afterStmt_counters ..)) _) ?_
      simp only [StmtOut.andThen, List.append_assoc, List.nil_append, List.append_nil]
      rfl
  · have hnull : condition = .null := by
      cases condition with
      | null => rfl
      | _ => exact absurd rfl htype
    subst hnull
    exact .inr fun hc => hc.1

mutual

/-- `gen_statement` computes `lowerStmt`. -/
theorem genStatement_ensures : ∀ (env : Env) (node : ASTNode) (s : GenState),
    s.symbolTable.Binds env → StmtSpec env node s
  | _, .null, _, hst => stmtEnsures_pure hst
  | _, .varDecl _ _ _ _, _, hst => stmtSpec_varDecl hst
  | _, .assignment _ _ _, _, hst => stmtSpec_assignment hst
  | _, .returnStmt _ _, _, hst => stmtSpec_return hst
  | env, .block _ statements, s, hst =>
      stmtSpec_block hst (genStatements_ensures env statements s hst)
  | env, .ifStmt _ _ thenBranch elseBranch, _, hst =>
      stmtSpec_if hst (fun s hs => genStatement_ensures env thenBranch s hs)
        (fun env s hs => genStatement_ensures env elseBranch s hs)
  | env, .whileStmt _ _ body, _, hst =>
      stmtSpec_while hst (fun s hs => genStatement_ensures env body s hs)
  | _, .number _ _, _, hst => stmtSpec_expr hst rfl rfl id
  | _, .identifier _ _, _, hst => stmtSpec_expr hst rfl rfl id
  | _, .call _ _ _, _, hst => stmtSpec_expr hst rfl rfl id
  | _, .unary _ _ _, _, hst => stmtSpec_expr hst rfl rfl id
  | _, .binary _ _ _ _, _, hst => stmtSpec_expr hst rfl rfl id
  | _, .function _ _ _ _ _ _, _, hst => stmtSpec_expr hst rfl rfl id
  | _, .translationUnit _ _, _, hst => stmtSpec_expr hst rfl rfl id

/-- The statement loop computes `lowerStmts`. -/
theorem genStatements_ensures : ∀ (env : Env) (nodes : List ASTNode) (s : GenState),
    s.symbolTable.Binds env → StmtsSpec env nodes s
  | _, [], _, hst => stmtEnsures_pure hst
  | env, stmt :: rest, s, hst => by
      have hrest : ∀ st', s.symbolTable.Leaves (lowerStmt env stmt s.f.counters).env st' →
          StmtEnsures (genStatements rest) (s.afterStmt (lowerStmt env stmt s.f.counters) st')
            (lowerStmts (lowerStmt env stmt s.f.counters).env rest
              (lowerStmt env stmt s.f.counters).counters) (CompleteStmts (stmt :: rest)) :=
        fun st' h' => Ensures.imp (genStatements_ensures _ rest _ h'.binds) (fun _ _ h => h)
          fun _ h => h.imp id fun hn hc => hn hc.2
      exact ((genStatement_ensures env stmt s hst).part rfl fun hc => hc.1).andThen hrest

end

end Statements

/-! ## Functions -/

/-- The emitted instructions are counted, and past the limit they are dropped. -/
theorem emitAll_facts (f : IRFunction) (code : List IRInstruction)
    (h : f.totalCount ≤ maxIrInstructionsPerFunction) :
    (emitAll f code).totalCount =
        min maxIrInstructionsPerFunction (f.totalCount + code.length) ∧
      (f.totalCount + code.length ≤ maxIrInstructionsPerFunction →
        (emitAll f code).instructions = f.instructions ++ code) := by
  induction code generalizing f with
  | nil =>
    refine ⟨?_, fun _ => (List.append_nil _).symm⟩
    show f.totalCount = min _ (f.totalCount + 0)
    omega
  | cons inst code ih =>
    by_cases hfull : f.totalCount ≥ maxIrInstructionsPerFunction
    · have hemit : emit f inst = f := by simp only [emit, hfull, if_true]
      obtain ⟨htotal, -⟩ := ih f h
      have hstep : emitAll f (inst :: code) = emitAll (emit f inst) code := rfl
      rw [hstep, hemit, htotal, List.length_cons]
      exact ⟨by omega, fun hle => by omega⟩
    · have hemit : emit f inst =
          { f with chunks := pushTail inst f.chunks, totalCount := f.totalCount + 1 } := by
        simp only [emit, hfull, if_false]
      obtain ⟨htotal, hcode⟩ := ih (emit f inst) (by rw [hemit]; simp only; omega)
      have hstep : emitAll f (inst :: code) = emitAll (emit f inst) code := rfl
      have hone : (emit f inst).totalCount = f.totalCount + 1 := by rw [hemit]
      have hinsts : (emit f inst).instructions = f.instructions ++ [inst] := by
        rw [hemit]
        exact chunkInstructions_pushTail inst f.chunks
      rw [hstep, htotal, hone, List.length_cons]
      refine ⟨by omega, fun hle => ?_⟩
      rw [hcode (by omega), hinsts, List.append_assoc, List.singleton_append]

/-- Adding a name to the table fails or binds it to a register. -/
theorem ensures_addSymbol {s : GenState} {name : StringView} {vreg : Nat}
    {P : Unit → GenState → Prop} {E : Stop → Prop}
    (hE : s.symbolTable.bind name ⟨vreg, false⟩ = none → E .symbolTableOverflow)
    (hP : ∀ st', s.symbolTable.bind name ⟨vreg, false⟩ = some st' →
      P () (s.after [] [] s.f.counters st')) :
    Ensures (addSymbol name vreg) s P E := by
  unfold Ensures
  rw [addSymbol_run]
  cases hadd : symbolTableAdd s.symbolTable name vreg with
  | none => exact hE (by simp [SymbolTable.bind, hadd])
  | some st =>
    have hafter := hP st (by simp [SymbolTable.bind, hadd])
    rw [GenState.after, List.append_nil] at hafter
    exact hafter

/-- The parameter loop allocates the registers `i + 1`, `i + 2`, … and brings the
parameters into scope, or gives up for want of a register. -/
theorem genParams_ensures (env : Env) (params : List Parameter) (i : Nat) (s : GenState)
    (hst : s.symbolTable.Binds env) (hi : s.f.vregCount = 1 + i)
    (hle : 1 + i ≤ maxVregsPerFunction) :
    Ensures (genParams params) s
      (fun generated s' => ∃ st' : SymbolTable,
        if generated then
          st'.Binds (paramEnv env params i) ∧ 1 + i + params.length ≤ maxVregsPerFunction ∧
            s' = s.after [] [] { s.f.counters with vreg := 1 + i + params.length } st'
        else
          s' = s.after [] [.drop .vregLimit]
            { s.f.counters with vreg := maxVregsPerFunction } st')
      (fun stop => stop = .symbolTableOverflow) := by
  induction params generalizing env i s with
  | nil =>
    simp only [genParams]
    rw [ensures_pure]
    refine ⟨s.symbolTable, hst, by simpa using hle, ?_⟩
    have hc : ({ s.f.counters with vreg := 1 + i + ([] : List Parameter).length } : Counters) =
        s.f.counters := by
      simp only [List.length_nil, Nat.add_zero, ← hi]
      rfl
    rw [hc, GenState.after_nil]
  | cons param rest ih =>
    simp only [genParams]
    rw [ensures_bind]
    by_cases hfull : s.f.vregCount ≥ maxVregsPerFunction
    · have halloc : allocVreg s =
          .ok (none, { s with f := s.f.error 0 0 (vregLimitMessage s.f.name) }) := by
        show Except.ok ((irAllocVreg s.f).1, { s with f := (irAllocVreg s.f).2 }) = _
        simp only [irAllocVreg, hfull, if_true]
      rw [ensures_of_eq halloc]
      refine ⟨s.symbolTable, ?_⟩
      have hc : ({ s.f.counters with vreg := maxVregsPerFunction } : Counters) =
          s.f.counters := by
        have : maxVregsPerFunction = s.f.vregCount := by omega
        rw [this]
        rfl
      rw [hc]
      exact (after_drop_eq .vregLimit s rfl).symm
    · rw [ensures_of_eq (allocVreg_run s hfull)]
      simp only []
      rw [ensures_bind]
      refine ensures_addSymbol (fun _ => rfl) fun st' hbind => ?_
      rw [GenState.after_after, List.append_nil, List.append_nil, GenState.after_counters]
      rw [GenState.after_symbolTable, hi, Nat.add_comm 1 i] at hbind
      let entry : Entry := ⟨.param i, param.type, ⟨i + 1, false⟩⟩
      have hbinds : st'.Binds ((param.name, entry) :: env) := hst.bind hbind
      set s₁ := s.after [] [] { s.f.counters with vreg := s.f.vregCount + 1 } st' with hs₁
      have hvreg : s₁.f.vregCount = 1 + (i + 1) := by
        show s.f.vregCount + 1 = _
        omega
      refine Ensures.imp (ih _ (i + 1) s₁ hbinds hvreg (by omega)) ?_ fun stop h => h
      rintro generated s' ⟨st'', h⟩
      refine ⟨st'', ?_⟩
      have hlen : 1 + (i + 1) + rest.length = 1 + i + (param :: rest).length := by
        rw [List.length_cons]
        omega
      cases generated with
      | true =>
        obtain ⟨hbinds', hfit, rfl⟩ := h
        refine ⟨hbinds', by omega, ?_⟩
        rw [hs₁, GenState.after_after, ← hlen]
        rfl
      | false =>
        refine Eq.trans h ?_
        rw [hs₁, GenState.after_after]
        rfl

/-- How a run of the generator on `root` relates to the lowering `o` of it. -/
structure GeneratedFrom (s₀ s : GenState) (o : StmtOut) : Prop where
  history : s.history = o.history
  errors : s.f.errors = noteHistory s₀.f.name s₀.f.filename s₀.f.errors o.history
  counters : s.f.counters = o.counters
  total : s.f.totalCount = min maxIrInstructionsPerFunction o.code.length
  code : o.code.length ≤ maxIrInstructionsPerFunction → s.f.instructions = o.code

/-- The generator's state at the start of `ir_gen`. -/
theorem GeneratedFrom.of_after {s₀ : GenState} {o : StmtOut} {st : SymbolTable}
    (hchunks : s₀.f.chunks = []) (htotal : s₀.f.totalCount = 0) (hhistory : s₀.history = []) :
    GeneratedFrom s₀ (s₀.after o.code o.history o.counters st) o := by
  obtain ⟨hcount, hcode⟩ := emitAll_facts s₀.f o.code (by omega)
  have hinsts : s₀.f.instructions = [] := by rw [IRFunction.instructions, hchunks]; rfl
  rw [htotal, Nat.zero_add] at hcount hcode
  rw [hinsts, List.nil_append] at hcode
  refine ⟨?_, rfl, rfl, hcount, hcode⟩
  show s₀.history ++ o.history = _
  rw [hhistory, List.nil_append]

/-- A root that `ir_gen` is called on after an error-free parse. -/
def CompleteRoot : ASTNode → Prop
  | .function _ _ _ _ (.block _ statements) _ => CompleteStmts statements
  | .function _ _ _ _ _ _ => True
  | .block _ statements => CompleteStmts statements
  | node => node.CompleteExpr

/-- What `genRoot` must do. -/
def RootSpec (root : ASTNode) (s : GenState) : Prop :=
  Ensures (genRoot root) s
    (fun generated s' => ∃ st' : SymbolTable,
      (s' = s.afterStmt (lowerRoot s.f.stackCount root) st' ∧
          1 + root.params.length ≤ maxVregsPerFunction) ∨
        (generated = false ∧ s' = s.after [] [.drop .vregLimit]
          ⟨maxVregsPerFunction, s.f.stackCount, 0⟩ st'))
    (fun stop => stop = .symbolTableOverflow ∨ ¬ CompleteRoot root)

/-- A root that is an expression. -/
theorem rootSpec_expr {root : ASTNode} {s : GenState} (hst : s.symbolTable.Binds [])
    (hcounters : s.f.counters = ⟨1, s.f.stackCount, 0⟩)
    (hgen : genRoot root = (do
      let resultReg ← genExpression root
      if resultReg = 0 then return false
      let type ← valueTypeOf root
      emitInst { opcode := .ret, type := type, src1 := resultReg }
      return true))
    (hlower : ∀ stack, lowerRoot stack root =
      ⟨(lowerExpr [] root 1).code ++
          if (lowerExpr [] root 1).reg = 0 then []
          else [{ opcode := .ret, type := typeOf root, src1 := (lowerExpr [] root 1).reg }],
        [], ⟨(lowerExpr [] root 1).next, stack, 0⟩, (lowerExpr [] root 1).history⟩)
    (hparams : root.params = []) (hcomplete : CompleteRoot root → root.CompleteExpr) :
    RootSpec root s := by
  have hvreg : s.f.vregCount = 1 := congrArg Counters.vreg hcounters
  unfold RootSpec
  rw [hgen, ensures_bind]
  refine (genExpression_ensures root s hst).imp ?_ fun stop h =>
    .inr fun hc => h.2 (hcomplete hc)
  rintro reg s' ⟨rfl, rfl⟩
  rw [hvreg, hlower, hparams]
  have hlimit : 1 + ([] : List Parameter).length ≤ maxVregsPerFunction := by decide
  split
  · rw [ensures_pure]
    refine ⟨s.symbolTable, .inl ⟨?_, hlimit⟩⟩
    rw [List.append_nil, GenState.afterExpr, hcounters]
    rfl
  · rename_i hreg
    rw [valueTypeOf_eq (valueType?_of_lowerExpr hreg), pure_bind, ensures_bind,
      ensures_emitInst, ensures_pure]
    refine ⟨s.symbolTable, .inl ⟨?_, hlimit⟩⟩
    rw [GenState.afterExpr, GenState.after_after, GenState.after_counters, hcounters,
      List.append_nil]
    rfl

/-- `genRoot` computes `lowerRoot`, or gives up at the parameters. -/
theorem genRoot_ensures {root : ASTNode} {s : GenState} (hst : s.symbolTable.Binds [])
    (hcounters : s.f.counters = ⟨1, s.f.stackCount, 0⟩) : RootSpec root s := by
  have hvreg : s.f.vregCount = 1 := congrArg Counters.vreg hcounters
  have hlimit : 1 + 0 ≤ maxVregsPerFunction := by decide
  cases root with
  | function info name returnType params body isPrototype =>
    unfold RootSpec
    simp only [genRoot]
    rw [ensures_bind]
    refine Ensures.imp (genParams_ensures [] params 0 s hst hvreg hlimit) ?_ fun stop h => .inl h
    rintro generated s' ⟨st', h⟩
    cases generated with
    | false =>
      refine ⟨st', .inr ⟨rfl, ?_⟩⟩
      rw [hcounters] at h
      exact h
    | true =>
      obtain ⟨hbinds, hfit, rfl⟩ := h
      rw [hcounters]
      simp only [if_true, Nat.add_zero] at hfit ⊢
      set s₁ := s.after [] [] ⟨1 + params.length, s.f.stackCount, 0⟩ st' with hs₁
      have hs₁binds : s₁.symbolTable.Binds (paramEnv [] params 0) := hbinds
      have hempty : Ensures (pure true : GenM Bool) s₁
          (fun generated s' => ∃ st'' : SymbolTable,
            (s' = s.afterStmt ⟨[], paramEnv [] params 0,
                ⟨1 + params.length, s.f.stackCount, 0⟩, []⟩ st'' ∧
              1 + params.length ≤ maxVregsPerFunction) ∨
            (generated = false ∧ s' = s.after [] [.drop .vregLimit]
              ⟨maxVregsPerFunction, s.f.stackCount, 0⟩ st''))
          (fun stop => stop = .symbolTableOverflow ∨ ¬ True) :=
        (ensures_pure true).mpr ⟨st', .inl ⟨rfl, hfit⟩⟩
      cases body with
      | block bodyInfo statements =>
        rw [ensures_bind]
        refine Ensures.imp (genStatements_ensures _ statements s₁ hs₁binds) ?_ fun stop h => h
        rintro _ s' ⟨st'', -, rfl⟩
        rw [ensures_pure]
        refine ⟨st'', .inl ⟨?_, hfit⟩⟩
        exact GenState.after_after ..
      | _ => exact hempty
  | block info statements =>
    unfold RootSpec
    simp only [genRoot]
    rw [ensures_bind]
    refine Ensures.imp (genStatements_ensures [] statements s hst) ?_ fun stop h => h
    rintro _ s' ⟨st', -, rfl⟩
    rw [ensures_pure]
    rw [hcounters]
    exact ⟨st', .inl ⟨rfl, hlimit⟩⟩
  | _ => exact rootSpec_expr hst hcounters rfl (fun _ => rfl) rfl id

/-! ## The whole generator -/

/-- The check of the instruction limit at the end of `ir_gen`. -/
def checkLimit (generated : Bool) (s : GenState) : Bool × GenState :=
  if generated && decide (s.f.totalCount ≥ maxIrInstructionsPerFunction) then
    (false, { s with f := s.f.error 0 0 (instructionLimitMessage s.f.name) })
  else (generated, s)

theorem irGen_eq {fresh : IRFunction} {root : ASTNode} {errors : ErrorContext}
    {filename : Option String} (hnull : root.isNull = false) :
    irGen fresh root errors filename =
      (genRoot root (initState fresh root errors filename)).map fun p => checkLimit p.1 p.2 := by
  have hrun : (genRoot root).run (initState fresh root errors filename) =
      genRoot root (initState fresh root errors filename) := rfl
  unfold irGen checkLimit
  simp only [hnull, Bool.false_eq_true, if_false, hrun]
  cases genRoot root (initState fresh root errors filename) with
  | error stop => rfl
  | ok p =>
    show (if _ then _ else _ : Except Stop (Bool × GenState)) = .ok (if _ then _ else _)
    split <;> rfl

theorem rootSpec_init (fresh : IRFunction) (root : ASTNode) (errors : ErrorContext)
    (filename : Option String) : RootSpec root (initState fresh root errors filename) :=
  genRoot_ensures SymbolTable.binds_init rfl

/-- `ir_gen` stops early only where the symbol table overflows, provided that no
part of the tree is missing. -/
theorem irGen_error {fresh : IRFunction} {root : ASTNode} {errors : ErrorContext}
    {filename : Option String} {stop : Stop} (h : irGen fresh root errors filename = .error stop)
    (hcomplete : CompleteRoot root) : stop = .symbolTableOverflow := by
  have hnull : root.isNull = false := by
    cases root with
    | null => exact absurd hcomplete id
    | _ => rfl
  rw [irGen_eq hnull] at h
  have hspec := rootSpec_init fresh root errors filename
  cases hrun : genRoot root (initState fresh root errors filename) with
  | ok p =>
    rw [hrun] at h
    exact absurd h (by simp [Except.map])
  | error stop' =>
    rw [hrun] at h
    obtain rfl : stop' = stop := by simpa [Except.map] using h
    exact (hspec.of_error hrun).resolve_right fun hn => hn hcomplete

/-- A function that `ir_gen` returns is the lowering of the root, within the limits. -/
theorem irGen_returns {fresh : IRFunction} {root : ASTNode} {errors : ErrorContext}
    {filename : Option String} {s : GenState}
    (h : irGen fresh root errors filename = .ok (true, s)) :
    GeneratedFrom (initState fresh root errors filename) s
        (lowerRoot fresh.stackCount root) ∧
      (lowerRoot fresh.stackCount root).code.length < maxIrInstructionsPerFunction ∧
      1 + root.params.length ≤ maxVregsPerFunction := by
  have hnull : root.isNull = false := by
    cases hroot : root.isNull with
    | false => rfl
    | true => simp [irGen, hroot] at h
  rw [irGen_eq hnull] at h
  have hspec := rootSpec_init fresh root errors filename
  cases hrun : genRoot root (initState fresh root errors filename) with
  | error stop =>
    rw [hrun] at h
    exact absurd h (by simp [Except.map])
  | ok p =>
    obtain ⟨generated, s₁⟩ := p
    rw [hrun] at h
    have hlimit : checkLimit generated s₁ = (true, s) := by simpa [Except.map] using h
    unfold checkLimit at hlimit
    split at hlimit
    · exact absurd hlimit (by simp)
    · rename_i hfits
      obtain ⟨rfl, rfl⟩ := Prod.mk.inj hlimit
      obtain ⟨st', ⟨hs, hparams⟩ | ⟨hfalse, -⟩⟩ := hspec.of_ok hrun
      · have hgen := @GeneratedFrom.of_after (initState fresh root errors filename)
          (lowerRoot fresh.stackCount root) st' rfl rfl rfl
        have hs' : s₁ = (initState fresh root errors filename).afterStmt
          (lowerRoot fresh.stackCount root) st' := hs
        rw [hs'] at hfits ⊢
        refine ⟨hgen, ?_, hparams⟩
        have htotal := hgen.total
        simp only [Bool.true_and, decide_eq_true_eq] at hfits
        have : (min maxIrInstructionsPerFunction
          (lowerRoot fresh.stackCount root).code.length) < maxIrInstructionsPerFunction := by
          rw [← htotal]
          exact Nat.lt_of_not_le hfits
        omega
      · exact absurd hfalse (by simp)

/-- What the generator gives up on is what the lowering gives up on, or the missing
register of a parameter, whether or not a function is returned. -/
theorem irGen_history {fresh : IRFunction} {root : ASTNode} {errors : ErrorContext}
    {filename : Option String} {generated : Bool} {s : GenState}
    (h : irGen fresh root errors filename = .ok (generated, s)) (hnull : root.isNull = false) :
    (s.history = (lowerRoot fresh.stackCount root).history ∨
        s.history = [.drop .vregLimit]) ∧
      (s.f.errors = noteHistory s.f.name filename errors s.history ∨
        s.f.errors = errorAdd (noteHistory s.f.name filename errors s.history)
          .codegen .error filename 0 0 (instructionLimitMessage s.f.name)) := by
  rw [irGen_eq hnull] at h
  have hspec := rootSpec_init fresh root errors filename
  cases hrun : genRoot root (initState fresh root errors filename) with
  | error stop =>
    rw [hrun] at h
    exact absurd h (by simp [Except.map])
  | ok p =>
    obtain ⟨generated₁, s₁⟩ := p
    rw [hrun] at h
    have hlimit : checkLimit generated₁ s₁ = (generated, s) := by simpa [Except.map] using h
    have hs₁ : (s₁.history = (lowerRoot fresh.stackCount root).history ∨
          s₁.history = [.drop .vregLimit]) ∧ s₁.f.filename = filename ∧
        s₁.f.errors = noteHistory s₁.f.name filename errors s₁.history := by
      obtain ⟨st', ⟨hs, -⟩ | ⟨-, hs⟩⟩ := hspec.of_ok hrun
      · subst hs
        exact ⟨.inl rfl, rfl, rfl⟩
      · subst hs
        exact ⟨.inr rfl, rfl, rfl⟩
    obtain ⟨hhistory, hfile, herrors⟩ := hs₁
    unfold checkLimit at hlimit
    split at hlimit
    · obtain ⟨rfl, rfl⟩ := Prod.mk.inj hlimit
      refine ⟨hhistory, .inr ?_⟩
      simp only [IRFunction.error, hfile, herrors]
    · obtain ⟨rfl, rfl⟩ := Prod.mk.inj hlimit
      exact ⟨hhistory, .inl herrors⟩

/-! ## Runs that record no error -/

/-- The drops of a history that were reported. -/
def reportedDrops (history : List Event) : List Drop :=
  history.filterMap fun e =>
    match e with
    | .drop reason => if (reason.message []).isSome then some reason else none
    | _ => none

theorem noteHistory_nodes_length (name : StringView) (filename : Option String)
    (errors : ErrorContext) (history : List Event) :
    (noteHistory name filename errors history).nodes.length =
      errors.nodes.length + (reportedDrops history).length := by
  induction history generalizing errors with
  | nil => rfl
  | cons e history ih =>
    have hstep : noteHistory name filename errors (e :: history) =
        noteHistory name filename (noteEvent name filename errors e) history := rfl
    rw [hstep, ih]
    cases e with
    | drop reason =>
      cases reason <;> simp [noteEvent, Drop.message, reportedDrops] <;> omega
    | declared node type index => rfl
    | resolved node binding => rfl

/-- When no error is recorded, the generator has given up nowhere but at a missing
node and at a return without expression. -/
theorem drops_of_length {name : StringView} {filename : Option String}
    {errors : ErrorContext} {history : List Event}
    (h : (noteHistory name filename errors history).nodes.length ≤ errors.nodes.length)
    {reason : Drop} (hmem : Event.drop reason ∈ history) :
    reason = .missingNode ∨ reason = .returnWithoutExpression := by
  rw [noteHistory_nodes_length] at h
  have hnone : reportedDrops history = [] := List.length_eq_zero_iff.mp (by omega)
  refine Classical.byContradiction fun hother => ?_
  have hreported : reason ∈ reportedDrops history := by
    refine List.mem_filterMap.mpr ⟨_, hmem, ?_⟩
    cases reason with
    | missingNode => exact absurd (.inl rfl) hother
    | returnWithoutExpression => exact absurd (.inr rfl) hother
    | _ => rfl
  rw [hnone] at hreported
  exact absurd hreported (by simp)

theorem drops_of_no_error {name : StringView} {filename : Option String}
    {errors : ErrorContext} {history : List Event}
    (h : noteHistory name filename errors history = errors) {reason : Drop}
    (hmem : Event.drop reason ∈ history) :
    reason = .missingNode ∨ reason = .returnWithoutExpression :=
  drops_of_length (Nat.le_of_eq (by rw [h])) hmem

theorem adds_noteHistory (name : StringView) (filename : Option String) (errors : ErrorContext)
    (history : List Event) : Adds errors (noteHistory name filename errors history) := by
  induction history generalizing errors with
  | nil => exact .refl errors
  | cons e history ih =>
    refine Adds.trans ?_ (ih (noteEvent name filename errors e))
    cases e with
    | drop reason =>
      unfold noteEvent
      dsimp only
      split
      · exact adds_error errors .codegen (by decide) filename _ _ _
      · exact .refl errors
    | declared node type index => exact .refl errors
    | resolved node binding => exact .refl errors

/-- `ir_gen` removes no error. -/
theorem irGen_errors {fresh : IRFunction} {root : ASTNode} {errors : ErrorContext}
    {filename : Option String} {generated : Bool} {s : GenState}
    (h : irGen fresh root errors filename = .ok (generated, s)) : Adds errors s.f.errors := by
  cases hnull : root.isNull with
  | true =>
    unfold irGen at h
    simp only [hnull, if_true] at h
    cases h
    exact .refl errors
  | false =>
    have hnote := adds_noteHistory s.f.name filename errors s.history
    obtain heq | heq := (irGen_history h hnull).2
    · rwa [heq]
    · rw [heq]
      exact hnote.trans (adds_error _ .codegen (by decide) filename 0 0 _)

end TinyCompile.Ir
