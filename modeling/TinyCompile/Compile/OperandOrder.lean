import TinyCompile.Compile.Exchange

set_option autoImplicit false

/-!
# Compile: where the order of two operands matters

For all other operand types there is a program in which it does: the result of the operation
decides whether a sum has a signed or an unsigned type, and the sum is shifted to the right.
-/

namespace TinyCompile.Compile

open TinyCompile.Machine TinyCompile.Source TinyCompile.Logic TinyCompile.Semantic
  TinyCompile.Ir

instance (node : ASTNode) : Decidable (Operand node) :=
  decidable_of_iff (node.hasCall = false ∧ folds node = true)
    ⟨fun h => ⟨h.1, h.2⟩, fun h => ⟨h.noCall, h.folds⟩⟩

/-- What `OccursIn` asks of one node. -/
def occursAt (addr : Nat) (op : BinaryOp) (leftType rightType : DataType) : ASTNode → Bool
  | .binary op' info left right =>
      decide (info.addr = addr → op' = op ∧ left.valueType? = some leftType ∧
        right.valueType? = some rightType ∧ Operand left ∧ Operand right)
  | _ => true

theorem occursIn_of_all {addr : Nat} {op : BinaryOp} {leftType rightType : DataType}
    {nodes : List ASTNode} (h : nodes.all (occursAt addr op leftType rightType) = true) :
    OccursIn addr op leftType rightType nodes := fun _ _ _ _ hmem =>
  of_decide_eq_true (List.all_eq_true.mp h _ hmem)

/-! ## Running a program -/

/-- Registers and slots that hold zero. -/
def nothing : Call → RunState := fun _ => ⟨fun _ => 0, fun _ => 0, [], []⟩

/-- The program with types and the result of a call, if it is accepted and generated. -/
def sampleRun (call : Call) (ctx : CompilationContext) : Option (CompilationContext × Word) :=
  match compileAnalyzeAll ctx with
  | .ok (ctx₁, true) =>
      match generateAll (fun _ => .zeroed) ctx₁.definitions 0 ctx₁.errors with
      | .ok (program, errors, true) =>
          if errors = ctx₁.errors then
            (runCall program nothing 20 2 call).map fun v => (ctx₁, v)
          else none
      | _ => none
  | _ => none

theorem sampleRun_eq_some {call : Call} {ctx ctx₁ : CompilationContext} {v : Word}
    (h : sampleRun call ctx = some (ctx₁, v)) :
    compileAnalyzeAll ctx = .ok (ctx₁, true) ∧
      ∃ program, Generates (fun _ => .zeroed) ctx₁ program ∧
        CallReturns program nothing call v := by
  unfold sampleRun at h
  split at h
  · rename_i ctx' hanalyze
    split at h
    · rename_i program errors hgenerate
      split at h
      · rename_i herrors
        obtain ⟨v', hrun, heq⟩ := Option.map_eq_some_iff.mp h
        cases heq
        subst herrors
        exact ⟨hanalyze, program, hgenerate, callReturns_of_runCall hrun⟩
      · cases h
    · cases h
  · cases h

/-- A call returns something else when the operands at an address are exchanged. -/
def orderMatters (call : Call) (addr : Nat) (op : BinaryOp) (leftType rightType : DataType)
    (ctx : CompilationContext) : Bool :=
  match sampleRun call ctx, sampleRun call (ctx.exchange addr) with
  | some (ctx₁, v), some (_, v') =>
      (nodesOf ctx₁.units).all (occursAt addr op leftType rightType) && v != v'
  | _, _ => false

theorem not_keepsResults {call : Call} {addr : Nat} {op : BinaryOp}
    {leftType rightType : DataType} {ctx : CompilationContext}
    (h : orderMatters call addr op leftType rightType ctx = true) :
    ∃ ctx₁, compileAnalyzeAll ctx = .ok (ctx₁, true) ∧
      OccursIn addr op leftType rightType (nodesOf ctx₁.units) ∧
      ¬ KeepsResults ctx ctx₁ addr := by
  unfold orderMatters at h
  split at h
  · rename_i ctx₁ v ctx₂ v' hrun hrun'
    obtain ⟨hoccurs, hne⟩ := Bool.and_eq_true_iff.mp h
    obtain ⟨hanalyze, program, hgenerates, hreturns⟩ := sampleRun_eq_some hrun
    obtain ⟨hanalyze', program', hgenerates', hreturns'⟩ := sampleRun_eq_some hrun'
    refine ⟨ctx₁, hanalyze, occursIn_of_all hoccurs, fun hkeeps => ?_⟩
    obtain ⟨ctx₃, hanalyze₃, hsame⟩ := hkeeps
    cases hanalyze'.symm.trans hanalyze₃
    obtain ⟨program₃, hgenerates₃, hiff⟩ := hsame _ program hgenerates
    cases hgenerates'.symm.trans hgenerates₃
    have hv : v = v' := ((hiff nothing call v).mpr hreturns).unique hreturns'
    rw [hv] at hne
    simp at hne
  · cases h

/-! ## The programs -/

/-- A node before analysis. -/
def bareInfo (addr : Nat) : NodeInfo := ⟨addr, .void, 1, 1⟩

/-- The parameter `name` as an operand of a type.  A comparison with `>` has no type. -/
def operandOf (type : DataType) (name : StringView) (addr : Nat) : ASTNode :=
  if type = .void then
    .binary .greater (bareInfo addr) (.identifier (bareInfo (addr + 1)) name)
      (.identifier (bareInfo (addr + 2)) name)
  else .identifier (bareInfo addr) name

/-- The type of the parameter that is made an operand of a type. -/
def paramType (type : DataType) : DataType := if type = .void then .int else type

/-- The type that is larger than `type` or `type'` but not than both, or of one byte, and
whether it stands in front. -/
def addend (type type' : DataType) : DataType × Bool :=
  if typeIsUnsigned type ≠ typeIsUnsigned type' then (.int8, false)
  else if typeIsUnsigned type then (.int, true)
  else (.uint32, true)

/-- `long f(leftType a, rightType b, type c) { return (c + (a op b)) >> 1; }`, or with `c`
behind the operation. -/
def shiftedSum (op : BinaryOp) (leftType rightType : DataType) (third : DataType × Bool) :
    ASTNode :=
  let c : ASTNode := .identifier (bareInfo 30) (svOf "c")
  let value : ASTNode := .binary op (bareInfo 0) (operandOf leftType (svOf "a") 10)
    (operandOf rightType (svOf "b") 20)
  let sum : ASTNode :=
    if third.2 then .binary .add (bareInfo 5) c value else .binary .add (bareInfo 5) value c
  .function (bareInfo 1) (svOf "f") .long
    [⟨svOf "a", paramType leftType⟩, ⟨svOf "b", paramType rightType⟩, ⟨svOf "c", third.1⟩]
    (.block (bareInfo 2)
      [.returnStmt (bareInfo 3)
        (.binary .rshift (bareInfo 4) sum (.number (bareInfo 6) (svOf "1")))]) false

/-- A program of one function. -/
def programOf (func : ASTNode) : CompilationContext :=
  ⟨[⟨⟨"a.c", []⟩, .translationUnit (bareInfo 7) [func], true⟩], 0, .init⟩

/-- The program in which the order of the operands matters. -/
def orderSample (op : BinaryOp) (leftType rightType : DataType) : CompilationContext :=
  programOf (shiftedSum op leftType rightType
    (addend ((resultType op leftType rightType).getD .void)
      ((resultType op rightType leftType).getD .void)))

/-- `f(0, 0, -1)`. -/
def sampleCall : Call := ⟨svOf "f", [0, 0, -1]⟩

theorem orderSample_complete (op : BinaryOp) (leftType rightType : DataType) :
    ∀ unit ∈ (orderSample op leftType rightType).units, unit.Complete := by
  have hoperand : ∀ (type : DataType) (name : StringView) (addr : Nat),
      (operandOf type name addr).CompleteExpr := by
    intro type name addr
    unfold operandOf
    split
    · exact ⟨trivial, trivial⟩
    · trivial
  intro unit hunit
  rw [List.mem_singleton.mp hunit]
  intro _ func hfunc _
  rw [List.mem_singleton.mp hfunc]
  refine ⟨rfl, .inr ⟨?_, trivial⟩, trivial⟩
  split
  · exact ⟨trivial, hoperand _ _ _, hoperand _ _ _⟩
  · exact ⟨⟨hoperand _ _ _, hoperand _ _ _⟩, trivial⟩

theorem not_orderIrrelevant {op : BinaryOp} {leftType rightType : DataType}
    (h : orderMatters sampleCall 0 op leftType rightType (orderSample op leftType rightType)) :
    ¬ OrderIrrelevant op leftType rightType := by
  intro hirrelevant
  obtain ⟨ctx₁, hanalyze, hoccurs, hnot⟩ := not_keepsResults h
  exact hnot (hirrelevant _ ctx₁ 0 (orderSample_complete op leftType rightType) hanalyze hoccurs)

/-! ## The exact condition -/

instance (op : BinaryOp) (leftType rightType : DataType) :
    Decidable (SameResult op leftType rightType) :=
  match hl : resultType op leftType rightType, hr : resultType op rightType leftType with
  | some type, some type' => decidable_of_iff (TypesAlike type type') (by
      unfold SameResult
      rw [hl, hr]
      grind)
  | none, _ => isTrue fun _ _ h => by
      rw [hl] at h
      cases h
  | some _, none => isTrue fun _ _ _ h => by
      rw [hr] at h
      cases h

/-- All types. -/
def allTypes : List DataType :=
  [.void, .int, .long, .int64, .int32, .int16, .int8, .uint64, .uint32, .uint16, .uint8, .char,
    .bool]

theorem mem_allTypes (type : DataType) : type ∈ allTypes := by
  cases type <;> decide

/-- Between operands of two types the order is irrelevant, or it matters in the program. -/
def Decided (op : BinaryOp) : Prop :=
  ∀ leftType ∈ allTypes, ∀ rightType ∈ allTypes,
    SameResult op leftType rightType ∨
      orderMatters sampleCall 0 op leftType rightType (orderSample op leftType rightType)

instance (op : BinaryOp) : Decidable (Decided op) :=
  inferInstanceAs (Decidable (∀ leftType ∈ allTypes, ∀ rightType ∈ allTypes, _))

theorem decided {op : BinaryOp} (hop : commutes op = true) : Decided op := by
  cases op with
  | add | mul | bitAnd | bitOr | bitXor => decide +kernel
  | equal | notEqual =>
    intro leftType _ rightType _
    refine .inl fun type type' h h' => ?_
    cases h
    cases h'
    exact .refl _
  | _ => cases hop

/-- The order of the operands of a commutative operator is irrelevant exactly between types
for which the type of the result has the same size and sign in both orders. -/
theorem orderIrrelevant_iff {op : BinaryOp} (hop : commutes op = true)
    (leftType rightType : DataType) :
    OrderIrrelevant op leftType rightType ↔ SameResult op leftType rightType := by
  refine ⟨fun h => ?_, orderIrrelevant_of_sameResult hop⟩
  obtain hsame | hmatters :=
    decided hop leftType (mem_allTypes leftType) rightType (mem_allTypes rightType)
  · exact hsame
  · exact absurd h (not_orderIrrelevant hmatters)

theorem orderIrrelevant_intLong : OrderIrrelevant .add .int .long :=
  (orderIrrelevant_iff rfl .int .long).mpr (by decide)

/-- A shift of `a & b`, where only `b` is unsigned. -/
def maskedShift : String :=
  "long f(long a, uint64 b) \x7b return (a & b) >> 1; \x7d " ++
    "long main(void) \x7b return f(-1, -1); \x7d"

/-- In the parse of `maskedShift` the operation `a & b` is node number 1. -/
def maskedShiftMatters : Bool :=
  match compileParseAll (oneFile maskedShift) with
  | .ok (ctx, true) => orderMatters ⟨svOf "main", []⟩ 1 .bitAnd .long .uint64 ctx
  | _ => false

theorem maskedShift_orderMatters : ∃ ctx ctx₁,
    compileParseAll (oneFile maskedShift) = .ok (ctx, true) ∧
      compileAnalyzeAll ctx = .ok (ctx₁, true) ∧
      OccursIn 1 .bitAnd .long .uint64 (nodesOf ctx₁.units) ∧ ¬ KeepsResults ctx ctx₁ 1 := by
  have hmatters : maskedShiftMatters = true := by decide +kernel
  unfold maskedShiftMatters at hmatters
  split at hmatters
  · rename_i ctx hparse
    obtain ⟨ctx₁, hmatters⟩ := not_keepsResults hmatters
    exact ⟨ctx, ctx₁, hparse, hmatters⟩
  · cases hmatters

end TinyCompile.Compile
