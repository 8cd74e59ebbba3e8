import TinyCompile.Ir.ExprRuns
import TinyCompile.Semantic.Constants
import TinyCompile.Semantic.Runs

set_option autoImplicit false

/-!
# Ir: constants at compile time and at run time

`evaluate_const_expression` and the code that `gen_expression` emits interpret the same
tree.  The operations on the values are the same; which shift the code uses goes by a type,
and constants only have signed types.
-/

namespace TinyCompile.Ir

open TinyCompile.Machine TinyCompile.Source TinyCompile.Logic TinyCompile.Semantic

/-! ## Constants with types -/

/-- The types of constants. -/
def ConstType (type : DataType) : Prop := type = .int ∨ type = .int64

/-- A tree with types that has a constant value. -/
inductive Constant : ASTNode → Word → Prop
  | number {info : NodeInfo} (text : StringView) (htype : ConstType info.valueType) :
      Constant (.number info text) (svToInt64 text)
  | negate {info : NodeInfo} {operand : ASTNode} {value : Word}
      (htype : ConstType info.valueType) (hoperand : Constant operand value) :
      Constant (.unary .negate info operand) (-value)
  | bitNot {info : NodeInfo} {operand : ASTNode} {value : Word}
      (htype : ConstType info.valueType) (hoperand : Constant operand value) :
      Constant (.unary .bitNot info operand) (~~~value)
  | binary {op : BinaryOp} {info : NodeInfo} {left right : ASTNode} {l r value : Word}
      (htype : ConstType info.valueType) (hleft : Constant left l) (hright : Constant right r)
      (hvalue : constBinary op l r = .ok (some value)) :
      Constant (.binary op info left right) value

theorem Constant.valueType {node : ASTNode} {value : Word} (h : Constant node value) :
    ∃ type, node.valueType? = some type ∧ ConstType type := by
  cases h with
  | number _ htype => exact ⟨_, rfl, htype⟩
  | negate htype _ => exact ⟨_, rfl, htype⟩
  | bitNot htype _ => exact ⟨_, rfl, htype⟩
  | binary htype _ _ _ => exact ⟨_, rfl, htype⟩

theorem constType_numberType (value : Word) : ConstType (numberType value) := by
  unfold numberType
  split
  · exact .inl rfl
  · exact .inr rfl

theorem ConstType.larger {left right : DataType} (h : ConstType left) (h' : ConstType right) :
    ConstType (largerType left right) := by
  unfold largerType
  split
  · exact h
  · exact h'

theorem ConstType.bitwise {left : DataType} (h : ConstType left) :
    ConstType (bitwiseType left) := by
  obtain rfl | rfl := h
  · exact .inl rfl
  · exact .inr rfl

/-- The type of an operation on constants. -/
theorem constType_binary {op : BinaryOp} {left right : ASTNode} {l r : Word} {type : DataType}
    (hop : isConstBinary op = true) (hleft : Constant left l) (hright : Constant right r)
    (htype : binaryType op left right = some type) : ConstType type := by
  obtain ⟨leftType, hl, hlconst⟩ := hleft.valueType
  obtain ⟨rightType, hr, hrconst⟩ := hright.valueType
  unfold binaryType at htype
  rw [hl, hr] at htype
  cases op with
  | add | sub | mul | div =>
    cases htype
    exact hlconst.larger hrconst
  | bitAnd | bitOr | bitXor | lshift | rshift =>
    cases htype
    exact hlconst.bitwise
  | _ => cases hop

/-- Which binary trees have a constant value. -/
theorem evaluate_binary_some {op : BinaryOp} {info : NodeInfo} {left right : ASTNode}
    {value : Word}
    (h : evaluateConstExpression (.binary op info left right) = .ok (some value)) :
    isConstBinary op = true ∧ ∃ l r, evaluateConstExpression left = .ok (some l) ∧
      evaluateConstExpression right = .ok (some r) ∧ constBinary op l r = .ok (some value) := by
  by_cases hop : isConstBinary op = true
  · refine ⟨hop, ?_⟩
    unfold evaluateConstExpression at h
    rw [hop] at h
    obtain ⟨l?, hl, hrest⟩ := ok_of_bind h
    cases l? with
    | none => cases hrest
    | some l =>
      obtain ⟨r?, hr, hend⟩ := ok_of_bind hrest
      cases r? with
      | none => cases hend
      | some r => exact ⟨l, r, hl, hr, hend⟩
  · rw [evaluate_comparison (by simpa using hop)] at h
    cases h

theorem evaluate_unary_some {op : UnaryOp} {info : NodeInfo} {operand : ASTNode} {value : Word}
    (h : evaluateConstExpression (.unary op info operand) = .ok (some value)) :
    ∃ v, evaluateConstExpression operand = .ok (some v) ∧
      (op = .negate ∧ value = -v ∨ op = .bitNot ∧ value = ~~~v) := by
  cases op with
  | not => cases h
  | negate =>
    obtain ⟨v?, hv, hend⟩ := ok_of_bind h
    obtain ⟨v, rfl, rfl⟩ := Option.map_eq_some_iff.mp (Except.ok.inj hend)
    exact ⟨v, hv, .inl ⟨rfl, rfl⟩⟩
  | bitNot =>
    obtain ⟨v?, hv, hend⟩ := ok_of_bind h
    obtain ⟨v, rfl, rfl⟩ := Option.map_eq_some_iff.mp (Except.ok.inj hend)
    exact ⟨v, hv, .inr ⟨rfl, rfl⟩⟩

/-- What is accepted and has a constant value is a constant. -/
theorem constant_of_analyzed : ∀ {node node' : ASTNode} {sa sa' : SemanticAnalyzer} {value : Word},
    Returns (analyzeExpression node) sa (node', true) sa' →
    evaluateConstExpression node' = .ok (some value) → Constant node' value
  | .number info text, _, _, _, _, h, hvalue => by
      obtain ⟨heq, -⟩ := returns_pure.mp h
      cases heq
      cases hvalue
      exact .number text (constType_numberType _)
  | .unary op info operand, _, _, _, _, h, hvalue => by
      obtain ⟨operand', type, hoperand, htype, rfl⟩ := returns_analyzeUnary.mp h
      obtain ⟨v, hv, ⟨rfl, rfl⟩ | ⟨rfl, rfl⟩⟩ := evaluate_unary_some hvalue
      · have ih := constant_of_analyzed hoperand hv
        obtain ⟨type', htype', hconst⟩ := ih.valueType
        cases htype.symm.trans htype'
        exact .negate hconst ih
      · have ih := constant_of_analyzed hoperand hv
        obtain ⟨type', htype', hconst⟩ := ih.valueType
        cases htype.symm.trans htype'
        exact .bitNot hconst ih
  | .binary op info left right, _, _, _, _, h, hvalue => by
      by_cases hcase : binaryCase op = .default
      · have hop : op = .greater := by cases op <;> first | rfl | cases hcase
        subst hop
        obtain ⟨heq, -⟩ := returns_pure.mp h
        cases heq
        cases (evaluate_binary_some hvalue).1
      · obtain ⟨left', right', sa₁, type, hleft, hright, htype, rfl⟩ :=
          (returns_analyzeBinary hcase).mp h
        obtain ⟨hop, l, r, hl, hr, hresult⟩ := evaluate_binary_some hvalue
        have ihl := constant_of_analyzed hleft hl
        have ihr := constant_of_analyzed hright hr
        exact .binary (constType_binary hop ihl ihr htype) ihl ihr hresult
  | .identifier info name, _, _, _, _, h, hvalue => by
      obtain ⟨var, -, rfl, -⟩ := returns_analyzeIdentifier.mp h
      cases hvalue
  | .call info functionName args, _, _, _, _, h, hvalue => by
      obtain ⟨func, args', -, -, -, -, rfl⟩ := returns_analyzeCall.mp h
      cases hvalue
  | .null, _, _, _, _, h, hvalue => by
      obtain ⟨heq, -⟩ := returns_pure.mp h
      cases heq
      cases hvalue
  | .varDecl _ _ _ _, _, _, _, _, h, hvalue
  | .assignment _ _ _, _, _, _, _, h, hvalue
  | .ifStmt _ _ _ _, _, _, _, _, h, hvalue
  | .whileStmt _ _ _, _, _, _, _, h, hvalue
  | .block _ _, _, _, _, _, h, hvalue
  | .returnStmt _ _, _, _, _, _, h, hvalue
  | .function _ _ _ _ _ _, _, _, _, _, h, hvalue
  | .translationUnit _ _, _, _, _, _, h, hvalue => by
      obtain ⟨heq, -⟩ := returns_pure.mp h
      cases heq
      cases hvalue

/-! ## The operations -/

/-- An operation on constants is the one the code performs. -/
theorem evalOp_constBinary {op : BinaryOp} {l r value : Word} {leftType : DataType}
    (htype : ConstType leftType) (h : constBinary op l r = .ok (some value)) :
    evalOp l r (binaryOpcode op leftType) = some value := by
  cases op with
  | add | sub | mul | lshift | bitAnd | bitOr | bitXor =>
    cases h
    rfl
  | rshift =>
    have hsigned : typeIsUnsigned leftType = false := by
      obtain rfl | rfl := htype <;> rfl
    cases h
    unfold binaryOpcode
    simp only [hsigned]
    rfl
  | div =>
    simp only [constBinary] at h
    split at h
    · cases h
    · rename_i hzero
      split at h
      · cases h
      · rename_i htrap
        cases h
        have hne : l ≠ BitVec.intMin 64 ∨ r ≠ -1 := by
          by_cases hmin : l = BitVec.intMin 64
          · exact .inr fun hminus => htrap ⟨hmin, hminus⟩
          · exact .inl hmin
        have hexact : (l.sdiv r).toInt = l.toInt.tdiv r.toInt :=
          BitVec.toInt_sdiv_of_ne_or_ne l r hne
        have hlt : ¬ (r = 0 ∨ 2 ^ 63 ≤ l.toInt.tdiv r.toInt) := by
          rw [← hexact]
          have := (l.sdiv r).toInt_lt
          rintro (h | h)
          · exact hzero h
          · omega
        show quotient l r = _
        unfold quotient
        rw [if_neg hlt, ← hexact, BitVec.ofInt_toInt]
  | _ => cases h

/-- A constant has its value at run time. -/
theorem Constant.evalExpr {node : ASTNode} {value : Word} (h : Constant node value)
    (oracle : Oracle) (env : Env) (m : Store) :
    evalExpr oracle env node m = some (some value, m) := by
  induction h with
  | number text htype => rfl
  | negate htype hoperand ih =>
    rw [Ir.evalExpr, ih]
    rfl
  | bitNot htype hoperand ih =>
    rw [Ir.evalExpr, ih]
    rfl
  | @binary op info left right l r value htype hleft hright hvalue ihl ihr =>
    obtain ⟨type, hltype, hlconst⟩ := hleft.valueType
    have hop : evalOp l r (binaryOpcode op (typeOf left)) = some value := by
      unfold typeOf
      rw [hltype]
      exact evalOp_constBinary hlconst hvalue
    simp only [Ir.evalExpr, Evaluation.withValue, ihl, ihr, hop, Option.bind_some,
      Option.map_some]

/-! ## The code -/

/-- What an expression with a register ends in. -/
theorem finish_of_reg {code : List IRInstruction} {next : Nat} {history : List Event}
    {inst : Nat → IRInstruction} (hreg : (finish code next history inst).reg ≠ 0) :
    finish code next history inst = ⟨code ++ [inst next], next, next + 1, history⟩ ∧ 0 < next := by
  unfold finish at hreg ⊢
  split
  · rename_i hfull
    rw [if_pos hfull] at hreg
    exact absurd rfl hreg
  · rename_i hroom
    rw [if_neg hroom] at hreg
    exact ⟨rfl, Nat.pos_of_ne_zero hreg⟩

/-- The code of an expression leaves a value in its register, and changes no register below
the first one it may take. -/
structure LeavesValue (o : ExprOut) (n : Nat) (value : Word) : Prop where
  le : n ≤ o.reg
  lt : o.reg < o.next
  runs : ∀ (oracle : Oracle) (r : RunState), ∃ r', execAll oracle o.code r = some r' ∧
    r'.regs o.reg = value ∧ KeepsBelow n r r'

/-- One more instruction, on a value that has been computed. -/
theorem LeavesValue.finish {n next : Nat} {value : Word}
    {code : List IRInstruction} {history : List Event} {inst : Nat → IRInstruction}
    (hreg : (finish code next history inst).reg ≠ 0) (hle : n ≤ next)
    (hcode : ∀ (oracle : Oracle) (r : RunState), ∃ r', execAll oracle code r = some r' ∧
      KeepsBelow n r r' ∧ execInst oracle (inst next) r' = some (r'.setReg next value)) :
    LeavesValue (finish code next history inst) n value := by
  obtain ⟨heq, -⟩ := finish_of_reg hreg
  rw [heq]
  refine ⟨hle, Nat.lt_succ_self next, fun oracle r => ?_⟩
  obtain ⟨r', hexec, hkeeps, hinst⟩ := hcode oracle r
  refine ⟨r'.setReg next value, ?_, setReg_regs_same r' next value,
    hkeeps.trans ((keepsBelow_setReg r' value).mono hle)⟩
  rw [execAll_append, hexec, Option.bind_some, execAll_one, hinst]

/-- The code of a constant leaves its value. -/
theorem Constant.leavesValue {node : ASTNode} {value : Word} (h : Constant node value)
    (env : Env) (n : Nat) (hreg : (lowerExpr env node n).reg ≠ 0) :
    LeavesValue (lowerExpr env node n) n value := by
  induction h generalizing n with
  | number text htype =>
    simp only [lowerExpr] at hreg ⊢
    exact .finish hreg (Nat.le_refl n) fun oracle r => ⟨r, rfl, .refl n r, rfl⟩
  | @negate info operand v htype hoperand ih =>
    simp only [lowerExpr] at hreg ⊢
    split
    · rename_i hzero
      rw [if_pos hzero] at hreg
      exact absurd hzero hreg
    · rename_i hne
      rw [if_neg hne] at hreg
      have ho := ih n hne
      refine .finish hreg (Nat.le_trans ho.le (Nat.le_of_lt ho.lt)) fun oracle r => ?_
      obtain ⟨r', hexec, hv, hkeeps⟩ := ho.runs oracle r
      exact ⟨r', hexec, hkeeps, by rw [execInst_unary, hv]; rfl⟩
  | @bitNot info operand v htype hoperand ih =>
    simp only [lowerExpr] at hreg ⊢
    split
    · rename_i hzero
      rw [if_pos hzero] at hreg
      exact absurd hzero hreg
    · rename_i hne
      rw [if_neg hne] at hreg
      have ho := ih n hne
      refine .finish hreg (Nat.le_trans ho.le (Nat.le_of_lt ho.lt)) fun oracle r => ?_
      obtain ⟨r', hexec, hv, hkeeps⟩ := ho.runs oracle r
      exact ⟨r', hexec, hkeeps, by rw [execInst_unary, hv]; rfl⟩
  | @binary op info left right l r value htype hleft hright hvalue ihl ihr =>
    simp only [lowerExpr] at hreg ⊢
    split
    · rename_i hzero
      rw [if_pos hzero] at hreg
      exact absurd hzero hreg
    · rename_i hlne
      rw [if_neg hlne] at hreg
      split
      · rename_i hzero
        rw [if_pos hzero] at hreg
        exact absurd rfl hreg
      · rename_i hrne
        rw [if_neg hrne] at hreg
        have hl := ihl n hlne
        have hr := ihr _ hrne
        have hnext : n ≤ (lowerExpr env left n).next := Nat.le_trans hl.le (Nat.le_of_lt hl.lt)
        refine .finish hreg (Nat.le_trans hnext (Nat.le_trans hr.le (Nat.le_of_lt hr.lt)))
          fun oracle s => ?_
        obtain ⟨s₁, hexec₁, hv₁, hkeeps₁⟩ := hl.runs oracle s
        obtain ⟨s₂, hexec₂, hv₂, hkeeps₂⟩ := hr.runs oracle s₁
        refine ⟨s₂, ?_, hkeeps₁.trans (hkeeps₂.mono hnext), ?_⟩
        · rw [execAll_append, hexec₁]
          exact hexec₂
        · obtain ⟨type, hltype, hlconst⟩ := hleft.valueType
          have hop : evalOp l r (binaryOpcode op (typeOf left)) = some value := by
            unfold typeOf
            rw [hltype]
            exact evalOp_constBinary hlconst hvalue
          -- the right operand leaves the register of the left one alone
          rw [execInst_binary, hkeeps₂ _ hl.lt, hv₁, hv₂, hop]
          rfl

/-- The generator computes `lowerExpr` on a constant, whatever its symbol table is. -/
theorem Constant.exprSpec {node : ASTNode} {value : Word} (h : Constant node value) (env : Env)
    (s : GenState) : ExprSpec env node s := by
  induction h generalizing s with
  | number text htype => exact exprSpec_number _ text s
  | negate htype hoperand ih => exact exprSpec_unary (ih s)
  | bitNot htype hoperand ih => exact exprSpec_unary (ih s)
  | binary htype hleft hright hvalue ihl ihr => exact exprSpec_binary (ihl s) (ihr _)

/-- Nothing that has been emitted is taken back. -/
theorem emitAll_totalCount_le (f : IRFunction) (code : List IRInstruction) :
    f.totalCount ≤ (emitAll f code).totalCount := by
  induction code generalizing f with
  | nil => exact Nat.le_refl _
  | cons inst code ih =>
    have hemit : f.totalCount ≤ (emit f inst).totalCount := by
      unfold emit
      split
      · exact Nat.le_refl _
      · exact Nat.le_succ _
    exact Nat.le_trans hemit (ih (emit f inst))

/-- While there is room, everything is emitted. -/
theorem emitAll_instructions {f : IRFunction} {code : List IRInstruction}
    (h : (emitAll f code).totalCount < maxIrInstructionsPerFunction) :
    (emitAll f code).instructions = f.instructions ++ code := by
  have hle := emitAll_totalCount_le f code
  obtain ⟨htotal, hcode⟩ := emitAll_facts f code (by omega)
  exact hcode (by omega)

/-- The code that `gen_expression` emits for a constant computes the value that
`evaluate_const_expression` finds. -/
theorem constant_runs {node node' : ASTNode} {sa sa' : SemanticAnalyzer} {value : Word}
    (haccepted : analyzeExpression node sa = .ok ((node', true), sa'))
    (hvalue : evaluateConstExpression node' = .ok (some value)) {s s' : GenState} {reg : Nat}
    (hgen : genExpression node' s = .ok (reg, s')) (hreg : reg ≠ 0)
    (hroom : s'.f.totalCount < maxIrInstructionsPerFunction) (oracle : Oracle) (r : RunState) :
    ∃ code r', s'.f.instructions = s.f.instructions ++ code ∧
      execAll oracle code r = some r' ∧ r'.regs reg = value := by
  have hconst := constant_of_analyzed haccepted hvalue
  obtain ⟨rfl, rfl⟩ := (hconst.exprSpec [] s).of_ok hgen
  obtain ⟨r', hexec, hv, -⟩ := (hconst.leavesValue [] s.f.vregCount hreg).runs oracle r
  exact ⟨_, r', emitAll_instructions hroom, hexec, hv⟩

/-- `(0 - 8) >> 1`. -/
def shiftedMinus (minusType shiftType : DataType) (numberType : DataType) : ASTNode :=
  .binary .rshift ⟨0, shiftType, 1, 1⟩
    (.binary .sub ⟨1, minusType, 1, 1⟩ (.number ⟨2, numberType, 1, 1⟩ (svOf "0"))
      (.number ⟨3, numberType, 1, 1⟩ (svOf "8"))) (.number ⟨4, numberType, 1, 1⟩ (svOf "1"))

theorem constant_runs_shiftedMinus : ∃ s' code r',
    genExpression (shiftedMinus .int .int .int) (initState .zeroed .null .init none) =
        .ok (5, s') ∧
      s'.f.instructions = (initState .zeroed .null .init none).f.instructions ++ code ∧
      execAll (fun _ => none) code ⟨fun _ => 0, fun _ => 0, [], []⟩ = some r' ∧
      r'.regs 5 = -4 := by
  have haccepted : analyzeExpression (shiftedMinus .void .void .void)
      (.init "a.c" .init .init) = .ok ((shiftedMinus .int .int .int, true),
        .init "a.c" .init .init) := rfl
  have hgen : ∃ s', genExpression (shiftedMinus .int .int .int)
      (initState .zeroed .null .init none) = .ok (5, s') ∧
      s'.f.totalCount < maxIrInstructionsPerFunction := ⟨_, rfl, by decide⟩
  obtain ⟨s', hgen, hroom⟩ := hgen
  obtain ⟨code, r', hcode, hexec, hv⟩ := constant_runs haccepted rfl hgen (by decide) hroom
    (fun _ => none) ⟨fun _ => 0, fun _ => 0, [], []⟩
  exact ⟨s', code, r', hgen, hcode, hexec, hv⟩

/-! ## Narrowing -/

/-- A value that a type of at most eight bytes holds: converting it to the type does not
change it. -/
def Representable (type : DataType) (v : Word) : Prop :=
  convertLow (typeSize type) (typeIsSigned type) v = v

instance (type : DataType) (v : Word) : Decidable (Representable type v) :=
  inferInstanceAs (Decidable (_ = _))

/-- A narrower type holds a value that passed the range test, if it is signed or the value is
not negative. -/
theorem representable_iff {dest : DataType} {v : Word}
    (hfits : fitsSize (typeSize dest) v = true) :
    Representable dest v ↔ typeIsSigned dest = true ∨ 0 ≤ v.toInt := by
  have hsize : typeSize dest = 1 ∨ typeSize dest = 2 ∨ typeSize dest = 4 := by
    unfold fitsSize at hfits
    split at hfits
    · exact .inl ‹_›
    · exact .inr (.inl ‹_›)
    · exact .inr (.inr ‹_›)
    · cases hfits
  have hrange : -2 ^ (8 * typeSize dest - 1) ≤ v.toInt ∧ v.toInt < 2 ^ (8 * typeSize dest - 1) := by
    unfold fitsSize at hfits
    obtain h | h | h := hsize <;> (rw [h] at hfits ⊢; simp at hfits; omega)
  unfold Representable convertLow
  by_cases hsigned : typeIsSigned dest = true
  · simp only [hsigned, if_true, true_or, iff_true]
    exact (signExtendLow_eq_self_iff hsize v).mpr hrange
  · simp only [hsigned, if_false, false_or, Bool.false_eq_true]
    rw [zeroExtendLow_eq_self_iff hsize v]
    obtain h | h | h := hsize <;> (rw [h] at hrange ⊢; omega)

/-- Where a value of a wider type is accepted without a warning, it is a constant that the
type holds, exactly if the type is signed or the value at run time is not negative. -/
theorem silentNarrowing_iff {node node' : ASTNode} {sa₀ sa₁ sa₂ : SemanticAnalyzer}
    {dest src : DataType} (haccepted : analyzeExpression node sa₀ = .ok ((node', true), sa₁))
    (hwider : typeSize dest < typeSize src)
    (hchecked : checkTypeCompatibility dest src node' sa₁ = .ok (true, sa₂))
    (hsilent : sa₂.errors = sa₁.errors) :
    (∃ v, evaluateConstExpression node' = .ok (some v) ∧ Representable dest v) ↔
      (typeIsSigned dest = true ∨ ∃ v : Word, 0 ≤ v.toInt ∧
        ∀ oracle env m, evalExpr oracle env node' m = some (some v, m)) := by
  obtain ⟨hsame, -⟩ | ⟨-, -, -, hpassed⟩ := returns_checkTypeCompatibility.mp hchecked
  · rw [hsame] at hwider
    exact absurd hwider (Nat.lt_irrefl _)
  rw [if_pos hwider] at hpassed
  obtain ⟨value, hvalue, hpassed⟩ := hpassed
  have hfits : value.any (fitsSize (typeSize dest)) = true := by
    by_contra hnot
    rw [if_neg hnot] at hpassed
    obtain ⟨info, -, rfl⟩ := hpassed
    have hnodes := congrArg (fun errors => errors.nodes.length) hsilent
    simp at hnodes
  obtain ⟨v, rfl, hfits⟩ := (Option.any_eq_true _ _).mp hfits
  have hconst := constant_of_analyzed haccepted hvalue
  have hrun := hconst.evalExpr
  constructor
  · rintro ⟨v', hv', hrepresentable⟩
    cases hvalue.symm.trans hv'
    refine ((representable_iff hfits).mp hrepresentable).imp_right fun hpos => ?_
    exact ⟨v, hpos, hrun⟩
  · intro h
    refine ⟨v, hvalue, (representable_iff hfits).mpr (h.imp_right ?_)⟩
    rintro ⟨v', hpos, hrun'⟩
    have heq := (hrun (fun _ => none) [] ⟨fun _ => 0, fun _ => 0, []⟩).symm.trans
      (hrun' (fun _ => none) [] ⟨fun _ => 0, fun _ => 0, []⟩)
    cases heq
    exact hpos

/-- A number with a type. -/
def numberNode (type : DataType) (text : String) : ASTNode := .number ⟨1, type, 1, 1⟩ (svOf text)

theorem silentNarrowing_hundred :
    (∃ v, evaluateConstExpression (numberNode .int "100") = .ok (some v) ∧
        Representable .char v) ↔
      (typeIsSigned .char = true ∨ ∃ v : Word, 0 ≤ v.toInt ∧
        ∀ oracle env m, evalExpr oracle env (numberNode .int "100") m = some (some v, m)) :=
  @silentNarrowing_iff (numberNode .void "100") _ (.init "a.c" .init .init)
    (.init "a.c" .init .init) (.init "a.c" .init .init) _ .int rfl (by decide) rfl rfl

/-- A `uint8` gets -1 without a warning. -/
theorem minusOne_narrowed : ∃ node' sa,
    analyzeExpression (.unary .negate ⟨0, .void, 1, 1⟩ (numberNode .void "1"))
        (.init "a.c" .init .init) = .ok ((node', true), sa) ∧
      node'.valueType? = some .int ∧ checkTypeCompatibility .uint8 .int node' sa = .ok (true, sa) ∧
      ¬ ∃ v, evaluateConstExpression node' = .ok (some v) ∧ Representable .uint8 v := by
  refine ⟨.unary .negate ⟨0, .int, 1, 1⟩ (numberNode .int "1"), .init "a.c" .init .init,
    rfl, rfl, rfl, ?_⟩
  rintro ⟨v, hv, hrepresentable⟩
  have hminus : evaluateConstExpression (.unary .negate ⟨0, .int, 1, 1⟩ (numberNode .int "1")) =
      .ok (some (-1)) := rfl
  cases hminus.symm.trans hv
  exact absurd hrepresentable (by decide)

end TinyCompile.Ir
