import TinyCompile.Ir.Generated

set_option autoImplicit false

/-!
# Ir: where the stack slots of a function start

`ir_gen` does not set `stack_count`.  The slots of the declarations are consecutive,
from whatever the arena memory of the `IRFunction` held.
-/

namespace TinyCompile.Ir

open TinyCompile.Source

/-- The slots given to declarations, in order. -/
def declaredSlots (history : List Event) : List Nat :=
  history.filterMap fun e =>
    match e with
    | .declared _ _ index => some index
    | _ => none

@[simp] theorem declaredSlots_nil : declaredSlots [] = [] := rfl

@[simp] theorem declaredSlots_append (history history' : List Event) :
    declaredSlots (history ++ history') = declaredSlots history ++ declaredSlots history' := by
  simp [declaredSlots]

@[simp] theorem declaredSlots_declared (node : Nat) (type : DataType) (index : Nat)
    (history : List Event) :
    declaredSlots (.declared node type index :: history) = index :: declaredSlots history := rfl

@[simp] theorem declaredSlots_drop (reason : Drop) (history : List Event) :
    declaredSlots (.drop reason :: history) = declaredSlots history := rfl

@[simp] theorem declaredSlots_resolved (node : Nat) (binding : SymbolTable.Binding)
    (history : List Event) :
    declaredSlots (.resolved node binding :: history) = declaredSlots history := rfl

/-! ## Expressions declare nothing -/

theorem declaredSlots_finish {code : List IRInstruction} {next : Nat} {history : List Event}
    {inst : Nat → IRInstruction} (h : declaredSlots history = []) :
    declaredSlots (finish code next history inst).history = [] := by
  unfold finish
  split
  · simp [h]
  · exact h

mutual

theorem lowerExpr_declares (env : Env) : ∀ (node : ASTNode) (next : Nat),
    declaredSlots (lowerExpr env node next).history = []
  | .null, _ => rfl
  | .number _ _, _ => declaredSlots_finish rfl
  | .identifier _ name, _ => by
      simp only [lowerExpr]
      cases env.lookup name with
      | none => rfl
      | some e =>
        dsimp only
        split
        · exact declaredSlots_finish rfl
        · rfl
  | .call _ _ args, next => by
      have hargs := lowerArgs_declares env args next
      simp only [lowerExpr]
      cases (lowerArgs env args next).regs with
      | none => exact hargs
      | some regs => exact declaredSlots_finish hargs
  | .unary _ _ operand, next => by
      have ho := lowerExpr_declares env operand next
      simp only [lowerExpr]
      split
      · exact ho
      · exact declaredSlots_finish ho
  | .binary _ _ left right, next => by
      have hl := lowerExpr_declares env left next
      have hr := lowerExpr_declares env right (lowerExpr env left next).next
      have hboth : declaredSlots ((lowerExpr env left next).history ++
          (lowerExpr env right (lowerExpr env left next).next).history) = [] := by simp [hl, hr]
      simp only [lowerExpr]
      split
      · exact hl
      · split
        · exact hboth
        · exact declaredSlots_finish hboth
  | .varDecl _ _ _ _, _ | .assignment _ _ _, _ | .returnStmt _ _, _ | .ifStmt _ _ _ _, _
  | .whileStmt _ _ _, _ | .block _ _, _ | .function _ _ _ _ _ _, _
  | .translationUnit _ _, _ => rfl

theorem lowerArgs_declares (env : Env) : ∀ (args : List ASTNode) (next : Nat),
    declaredSlots (lowerArgs env args next).history = []
  | [], _ => rfl
  | arg :: rest, next => by
      have ho := lowerExpr_declares env arg next
      have ha := lowerArgs_declares env rest (lowerExpr env arg next).next
      simp only [lowerArgs]
      split
      · exact ho
      · simp [ho, ha]

end

/-! ## Declarations take the next slot -/

/-- The declarations of a statement take the slots from `stack` on, in order. -/
def TakesSlots (stack : Nat) (o : StmtOut) : Prop :=
  stack ≤ o.counters.stack ∧
    declaredSlots o.history = List.range' stack (o.counters.stack - stack)

/-- A statement without declarations. -/
theorem takesSlots_none {stack : Nat} {o : StmtOut} (hstack : o.counters.stack = stack)
    (h : declaredSlots o.history = []) : TakesSlots stack o :=
  ⟨by omega, by simp [h, hstack]⟩

/-- Two pieces of a statement, one behind the other. -/
theorem TakesSlots.append {stack : Nat} {o o' : StmtOut} (h : TakesSlots stack o)
    (h' : TakesSlots o.counters.stack o') :
    stack ≤ o'.counters.stack ∧ declaredSlots o.history ++ declaredSlots o'.history =
      List.range' stack (o'.counters.stack - stack) := by
  refine ⟨Nat.le_trans h.1 h'.1, ?_⟩
  rw [h.2, h'.2, range'_sub_append h.1 h'.1]

mutual

theorem lowerStmt_takesSlots : ∀ (node : ASTNode) (env : Env) (c : Counters),
    TakesSlots c.stack (lowerStmt env node c)
  | .null, _, _ => takesSlots_none rfl rfl
  | .varDecl info varName varType initializer, env, c => by
      have hinit : declaredSlots (lowerInit ((varName, ⟨.var info.addr, varType,
          ⟨c.stack, true⟩⟩) :: env) varType initializer c.vreg).history = [] := by
        unfold lowerInit
        split
        · exact declaredSlots_finish rfl
        · exact lowerExpr_declares _ initializer _
      refine ⟨Nat.le_succ _, ?_⟩
      simp [lowerStmt, hinit]
  | .assignment _ varName value, env, c => by
      unfold TakesSlots
      simp only [lowerStmt]
      cases env.lookup varName with
      | none => exact takesSlots_none rfl rfl
      | some e => exact takesSlots_none rfl (lowerExpr_declares env value c.vreg)
  | .returnStmt _ expression, env, c => by
      refine takesSlots_none rfl ?_
      simp only [lowerStmt, lowerReturned]
      split
      · rfl
      · exact lowerExpr_declares env expression c.vreg
  | .block _ statements, env, c => lowerStmts_takesSlots statements env c
  | .ifStmt _ condition thenBranch elseBranch, env, c => by
      have hcond := lowerExpr_declares env condition c.vreg
      simp only [lowerStmt]
      split
      · split
        · exact takesSlots_none rfl hcond
        · have ht := lowerStmt_takesSlots thenBranch env
            { c with vreg := (lowerExpr env condition c.vreg).next, label := c.label + 1 }
          exact ⟨ht.1, by simpa [hcond] using ht.2⟩
      · split
        · exact takesSlots_none rfl hcond
        · set c₁ : Counters :=
            { c with vreg := (lowerExpr env condition c.vreg).next, label := c.label + 2 }
          have ht := lowerStmt_takesSlots thenBranch env c₁
          have := ht.append (lowerStmt_takesSlots elseBranch (lowerStmt env thenBranch c₁).env _)
          exact ⟨this.1, by simpa [hcond] using this.2⟩
  | .whileStmt _ condition body, env, c => by
      have hcond := lowerExpr_declares env condition c.vreg
      simp only [lowerStmt]
      split
      · exact takesSlots_none rfl hcond
      · have hb := lowerStmt_takesSlots body env
          { c with vreg := (lowerExpr env condition c.vreg).next, label := c.label + 2 }
        exact ⟨hb.1, by simpa [hcond] using hb.2⟩
  | .number info value, env, c =>
      takesSlots_none rfl (lowerExpr_declares env (.number info value) c.vreg)
  | .identifier info name, env, c =>
      takesSlots_none rfl (lowerExpr_declares env (.identifier info name) c.vreg)
  | .binary op info left right, env, c =>
      takesSlots_none rfl (lowerExpr_declares env (.binary op info left right) c.vreg)
  | .unary op info operand, env, c =>
      takesSlots_none rfl (lowerExpr_declares env (.unary op info operand) c.vreg)
  | .call info functionName args, env, c =>
      takesSlots_none rfl (lowerExpr_declares env (.call info functionName args) c.vreg)
  | .function _ _ _ _ _ _, _, _ => takesSlots_none rfl rfl
  | .translationUnit _ _, _, _ => takesSlots_none rfl rfl

theorem lowerStmts_takesSlots : ∀ (nodes : List ASTNode) (env : Env) (c : Counters),
    TakesSlots c.stack (lowerStmts env nodes c)
  | [], _, _ => takesSlots_none rfl rfl
  | stmt :: rest, env, c => by
      have hs := lowerStmt_takesSlots stmt env c
      have hr := lowerStmts_takesSlots rest (lowerStmt env stmt c).env
        (lowerStmt env stmt c).counters
      have := hs.append hr
      exact ⟨this.1, by simpa [lowerStmts] using this.2⟩

end

/-! ## Functions -/

section

variable {info : NodeInfo} {name : StringView} {returnType : DataType}
  {params : List Parameter} {body : ASTNode} {isPrototype : Bool}

/-- The slots of a returned function are consecutive from the memory the function was
allocated in. -/
theorem irGen_slots {fresh : IRFunction} {errors : ErrorContext} {filename : Option String}
    {g : GenState}
    (h : irGen fresh (.function info name returnType params body isPrototype) errors filename =
      .ok (true, g)) :
    fresh.stackCount ≤ g.f.stackCount ∧
      declaredSlots g.history =
        List.range' fresh.stackCount (g.f.stackCount - fresh.stackCount) := by
  obtain ⟨hgen, -, -⟩ := irGen_returns h
  have hstack := congrArg Counters.stack hgen.counters
  have hstack' : g.f.stackCount = _ := hstack
  rw [hgen.history, hstack']
  cases body with
  | block bodyInfo statements =>
    exact lowerStmts_takesSlots statements (paramEnv [] params 0)
      ⟨1 + params.length, fresh.stackCount, 0⟩
  | _ => exact takesSlots_none rfl rfl

/-- Of the memory a function is allocated in only the stack counter matters. -/
theorem irGen_fresh_congr {fresh fresh' : IRFunction} {errors : ErrorContext}
    {filename : Option String} (h : fresh.stackCount = fresh'.stackCount) :
    irGen fresh (.function info name returnType params body isPrototype) errors filename =
      irGen fresh' (.function info name returnType params body isPrototype) errors filename := by
  have hinit : initState fresh (.function info name returnType params body isPrototype) errors
      filename = initState fresh' (.function info name returnType params body isPrototype) errors
      filename := by
    simp only [initState, initFunction, h]
  unfold irGen
  rw [hinit]

/-- The slots of the declarations are numbered from zero and `stack_count` is their
number. -/
def SlotsFromZero (g : GenState) : Prop :=
  declaredSlots g.history = List.range g.f.stackCount

/-- What the later passes see of two functions is the same. -/
structure SameCode (f f' : IRFunction) : Prop where
  instructions : f.instructions = f'.instructions
  vregCount : f.vregCount = f'.vregCount
  labelCount : f.labelCount = f'.labelCount
  stackCount : f.stackCount = f'.stackCount

/-- `ir_gen` gives the same function in any two pieces of memory, with its slots numbered
from zero, exactly when both hold a zero where `stack_count` will be. -/
theorem irGen_determined_iff {fresh fresh' : IRFunction} {errors : ErrorContext}
    {filename : Option String} {g : GenState}
    (h : irGen fresh (.function info name returnType params body isPrototype) errors filename =
      .ok (true, g)) :
    (SlotsFromZero g ∧
        ∃ g', irGen fresh' (.function info name returnType params body isPrototype) errors
            filename = .ok (true, g') ∧ SameCode g.f g'.f ∧ SlotsFromZero g') ↔
      fresh.stackCount = 0 ∧ fresh'.stackCount = 0 := by
  -- slots that are numbered from zero start at zero
  have hstart : ∀ {fresh : IRFunction} {g : GenState},
      irGen fresh (.function info name returnType params body isPrototype) errors filename =
        .ok (true, g) → (SlotsFromZero g ↔ fresh.stackCount = 0) := by
    intro fresh g h
    obtain ⟨hle, hslots⟩ := irGen_slots h
    unfold SlotsFromZero
    rw [hslots]
    constructor
    · intro heq
      have := congrArg List.length heq
      rw [List.length_range', List.length_range] at this
      omega
    · intro hzero
      rw [hzero, Nat.sub_zero, List.range_eq_range']
  constructor
  · rintro ⟨hg, g', h', -, hg'⟩
    exact ⟨(hstart h).mp hg, (hstart h').mp hg'⟩
  · rintro ⟨hfresh, hfresh'⟩
    have h' := h
    rw [irGen_fresh_congr (hfresh.trans hfresh'.symm)] at h'
    exact ⟨(hstart h).mpr hfresh, g, h', ⟨rfl, rfl, rfl, rfl⟩, (hstart h').mpr hfresh'⟩

end

/-- `{ int x = 2; return x; }`. -/
def localBody : ASTNode :=
  .block (intInfo 1)
    [.varDecl (intInfo 2) (svOf "x") .int (.number (intInfo 3) (svOf "2")),
      .returnStmt (intInfo 4) (.identifier (intInfo 5) (svOf "x"))]

/-- `int main() { int x = 2; return x; }`. -/
def returnLocal : ASTNode := .function (intInfo 0) (svOf "main") .int [] localBody false

/-- Memory that held the counters of another function, which had no slots. -/
def otherCounters : IRFunction := { IRFunction.zeroed with vregCount := 9, labelCount := 4 }

theorem irGen_determined_otherCounters :
    ∃ g, irGen .zeroed returnLocal .init none = .ok (true, g) ∧ SlotsFromZero g ∧
      g.f.stackCount = 1 ∧
      ∃ g', irGen otherCounters returnLocal .init none = .ok (true, g') ∧ SameCode g.f g'.f ∧
        SlotsFromZero g' := by
  obtain ⟨hslots, hsame⟩ := (@irGen_determined_iff (intInfo 0) (svOf "main") .int [] localBody
    false .zeroed otherCounters .init none _ rfl).mpr ⟨rfl, rfl⟩
  exact ⟨_, rfl, hslots, rfl, hsame⟩

/-- Memory that held the digits of a literal. -/
def literalDigits : IRFunction := { IRFunction.zeroed with stackCount := 0x3030303030303030 }

/-- In memory that held the digits of a literal the slot of `x` is not slot zero. -/
theorem irGen_not_determined :
    ∃ g g', irGen .zeroed returnLocal .init none = .ok (true, g) ∧
      irGen literalDigits returnLocal .init none = .ok (true, g') ∧
      g.f.instructions ≠ g'.f.instructions ∧ g.f.stackCount = 1 ∧
      g'.f.stackCount = 0x3030303030303031 ∧
      declaredSlots g'.history = [0x3030303030303030] := by
  refine ⟨_, _, rfl, rfl, ?_, rfl, rfl, rfl⟩
  intro heq
  have := congrArg (fun code => (code.map IRInstruction.dest)[1]?) heq
  exact absurd this (by decide)

end TinyCompile.Ir
