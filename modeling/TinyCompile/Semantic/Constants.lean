import TinyCompile.Machine.Exact
import TinyCompile.Semantic.Analyze

set_option autoImplicit false

/-!
# Semantic: the values of constants

What `evaluate_const_expression` computes, against the value of a constant in unbounded
integers.  The two agree as long as every value fits in 64 bits and every shift is one that
C defines.  Of all the steps that C leaves undefined the code only leaves out the division
by zero.
-/

namespace TinyCompile.Semantic

open TinyCompile.Machine TinyCompile.Source

/-! ## The steps of the evaluation -/

/-- An operation of `evaluate_const_expression` on values it has computed. -/
inductive ConstStep where
  | negate (value : Int)
  | binary (op : BinaryOp) (left right : Int)
  deriving DecidableEq, Repr

/-- C defines the operation on `int64_t`. -/
def ConstStep.Defined : ConstStep → Prop
  | .negate value => InRange (-value)
  | .binary .add left right => InRange (left + right)
  | .binary .sub left right => InRange (left - right)
  | .binary .mul left right => InRange (left * right)
  | .binary .div left right => right ≠ 0 ∧ InRange (left.tdiv right)
  | .binary .lshift left right =>
      (0 ≤ right ∧ right < 64) ∧ 0 ≤ left ∧ InRange (left * 2 ^ right.toNat)
  | .binary .rshift _ right => 0 ≤ right ∧ right < 64
  | .binary _ _ _ => True

instance (step : ConstStep) : Decidable step.Defined := by
  unfold ConstStep.Defined
  split <;> infer_instance

/-- The operations of `evaluate_const_expression` on a tree, in order.  A division by zero is
left out, as in the source, and nothing follows a division that traps. -/
def constSteps : ASTNode → List ConstStep
  | .unary .negate _ operand =>
      constSteps operand ++
        match evaluateConstExpression operand with
        | .ok (some value) => [.negate value.toInt]
        | _ => []
  | .unary .bitNot _ operand => constSteps operand
  | .binary op _ left right =>
      if isConstBinary op then
        constSteps left ++
          match evaluateConstExpression left with
          | .ok (some l) =>
              constSteps right ++
                match evaluateConstExpression right with
                | .ok (some r) => if op = .div ∧ r = 0 then [] else [.binary op l.toInt r.toInt]
                | _ => []
          | _ => []
      else []
  | _ => []

/-! ## Exact values -/

/-- The result of an operation in unbounded integers.  Only the bitwise operators look at the
64 bits. -/
def exactBinary (op : BinaryOp) (left right : Int) : Option Int :=
  match op with
  | .add => some (left + right)
  | .sub => some (left - right)
  | .mul => some (left * right)
  | .div => if right = 0 then none else some (left.tdiv right)
  | .lshift => some (left * 2 ^ right.toNat)
  | .rshift => some (left >>> right.toNat)
  | .bitAnd => some (BitVec.ofInt 64 left &&& BitVec.ofInt 64 right).toInt
  | .bitOr => some (BitVec.ofInt 64 left ||| BitVec.ofInt 64 right).toInt
  | .bitXor => some (BitVec.ofInt 64 left ^^^ BitVec.ofInt 64 right).toInt
  | .equal | .notEqual | .less | .lessEqual | .greater | .greaterEqual => none

/-- The value of a constant in unbounded integers. -/
def constValue : ASTNode → Option Int
  | .number _ value => some (svToInt64 value).toInt
  | .unary .negate _ operand => (constValue operand).map fun value => -value
  | .unary .bitNot _ operand => (constValue operand).map fun value => -value - 1
  | .binary op _ left right =>
      (constValue left).bind fun l => (constValue right).bind fun r => exactBinary op l r
  | _ => none

/-- All operations on the values of the constants in a tree, from left to right up to the
first part that is no constant, are defined. -/
def ConstInRange : ASTNode → Prop
  | .unary .negate _ operand =>
      ConstInRange operand ∧ ∀ value, constValue operand = some value → InRange (-value)
  | .unary .bitNot _ operand => ConstInRange operand
  | .binary op _ left right =>
      isConstBinary op = true → ConstInRange left ∧
        ∀ l, constValue left = some l → ConstInRange right ∧
          ∀ r, constValue right = some r →
            op = .div ∧ r = 0 ∨ (ConstStep.binary op l r).Defined
  | _ => True

/-! ## One operation -/

/-- A word that holds an exact value, if there is one. -/
def word (value : Option Int) : Option Word := value.map (BitVec.ofInt 64)

section

variable {op : BinaryOp} {left right : Int}

/-- A defined operation is exact. -/
theorem constBinary_exact (hl : InRange left) (hr : InRange right)
    (h : op = .div ∧ right = 0 ∨ (ConstStep.binary op left right).Defined) :
    constBinary op (BitVec.ofInt 64 left) (BitVec.ofInt 64 right) =
      .ok (word (exactBinary op left right)) := by
  cases op with
  | add => exact congrArg (fun v => Except.ok (some v)) (BitVec.ofInt_add left right).symm
  | sub => exact congrArg (fun v => Except.ok (some v)) (ofInt_sub left right).symm
  | mul => exact congrArg (fun v => Except.ok (some v)) (BitVec.ofInt_mul left right).symm
  | div =>
    by_cases hzero : right = 0
    · subst hzero
      rfl
    · obtain ⟨-, hrange⟩ : right ≠ 0 ∧ InRange (left.tdiv right) :=
        h.resolve_left fun hdiv => hzero hdiv.2
      have hne : BitVec.ofInt 64 right ≠ 0 := fun heq => hzero (by
        rw [← hr.toInt, heq]
        rfl)
      have hfits : ¬ (BitVec.ofInt 64 left = BitVec.intMin 64 ∧ BitVec.ofInt 64 right = -1) := by
        rintro ⟨hleft, hright⟩
        have hl' := hl.toInt
        have hr' := hr.toInt
        rw [hleft] at hl'
        rw [hright] at hr'
        rw [← hl', ← hr'] at hrange
        exact absurd hrange (by decide)
      simp only [constBinary, hne, hfits, if_false, exactBinary, hzero]
      rw [← ofInt_tdiv hl hr]
      rfl
  | lshift =>
    obtain ⟨⟨hzero, hlt⟩, hpos, hrange⟩ : (0 ≤ right ∧ right < 64) ∧ 0 ≤ left ∧
      InRange (left * 2 ^ right.toNat) := h.resolve_left fun hdiv => by cases hdiv.1
    simp only [constBinary, exactBinary, word, Option.map_some, toNat_shiftAmount hzero hlt,
      ofInt_shiftLeft hpos]
    rfl
  | rshift =>
    obtain ⟨hzero, hlt⟩ : 0 ≤ right ∧ right < 64 := h.resolve_left fun hdiv => by cases hdiv.1
    have hshift : BitVec.ofInt 64 (left >>> right.toNat) =
        (BitVec.ofInt 64 left).sshiftRight right.toNat := by
      conv_lhs => rw [← hl.toInt, ← BitVec.toInt_sshiftRight, BitVec.ofInt_toInt]
    simp only [constBinary, exactBinary, word, Option.map_some, toNat_shiftAmount hzero hlt,
      hshift]
    rfl
  | bitAnd | bitOr | bitXor =>
    simp only [constBinary, exactBinary, word, Option.map_some, BitVec.ofInt_toInt]
    rfl
  | _ => rfl

theorem exactBinary_inRange (hl : InRange left)
    (h : op = .div ∧ right = 0 ∨ (ConstStep.binary op left right).Defined) {value : Int}
    (hvalue : exactBinary op left right = some value) : InRange value := by
  cases op with
  | add | sub | mul =>
    cases hvalue
    exact h.resolve_left fun hdiv => by cases hdiv.1
  | div =>
    simp only [exactBinary] at hvalue
    split at hvalue
    · cases hvalue
    · rename_i hzero
      cases hvalue
      exact (h.resolve_left fun hdiv => hzero hdiv.2).2
  | lshift =>
    cases hvalue
    exact (h.resolve_left fun hdiv => by cases hdiv.1).2.2
  | rshift =>
    cases hvalue
    rw [← hl.toInt, ← BitVec.toInt_sshiftRight]
    exact inRange_toInt _
  | bitAnd | bitOr | bitXor =>
    cases hvalue
    exact inRange_toInt _
  | _ => cases hvalue

end

/-! ## Constants -/

/-- The evaluator computes the exact value, and it fits. -/
structure ExactConst (node : ASTNode) : Prop where
  evaluates : evaluateConstExpression node = .ok (word (constValue node))
  inRange : ∀ value, constValue node = some value → InRange value

section

variable {op : BinaryOp} {info : NodeInfo} {left right : ASTNode} {l r : Int}

theorem evaluate_binary : evaluateConstExpression (.binary op info left right) = (do
    if !isConstBinary op then return none
    let some l ← evaluateConstExpression left | return none
    let some r ← evaluateConstExpression right | return none
    constBinary op l r) := rfl

theorem evaluate_comparison (hop : isConstBinary op = false) :
    evaluateConstExpression (.binary op info left right) = .ok none := by
  rw [evaluate_binary, hop]
  rfl

theorem evaluate_left_none (hop : isConstBinary op = true)
    (hl : evaluateConstExpression left = .ok none) :
    evaluateConstExpression (.binary op info left right) = .ok none := by
  rw [evaluate_binary, hop, hl]
  rfl

theorem evaluate_right_none {value : Word} (hop : isConstBinary op = true)
    (hl : evaluateConstExpression left = .ok (some value))
    (hr : evaluateConstExpression right = .ok none) :
    evaluateConstExpression (.binary op info left right) = .ok none := by
  rw [evaluate_binary, hop, hl, hr]
  rfl

theorem evaluate_both {value value' : Word} (hop : isConstBinary op = true)
    (hl : evaluateConstExpression left = .ok (some value))
    (hr : evaluateConstExpression right = .ok (some value')) :
    evaluateConstExpression (.binary op info left right) = constBinary op value value' := by
  rw [evaluate_binary, hop, hl, hr]
  rfl

theorem constSteps_comparison (hop : isConstBinary op = false) :
    constSteps (.binary op info left right) = [] := by
  unfold constSteps
  rw [hop]
  rfl

theorem ExactConst.word (h : ExactConst left) (hl : constValue left = some l) :
    evaluateConstExpression left = .ok (some (BitVec.ofInt 64 l)) := by
  rw [h.evaluates, hl]
  rfl

theorem ExactConst.none (h : ExactConst left) (hl : constValue left = none) :
    evaluateConstExpression left = .ok none := by
  rw [h.evaluates, hl]
  rfl

theorem constSteps_left_none (hop : isConstBinary op = true) (hleft : ExactConst left)
    (hl : constValue left = none) :
    constSteps (.binary op info left right) = constSteps left := by
  rw [constSteps, if_pos hop, hleft.none hl]
  exact List.append_nil _

theorem constSteps_right_none (hop : isConstBinary op = true) (hleft : ExactConst left)
    (hl : constValue left = some l) (hright : ExactConst right) (hr : constValue right = none) :
    constSteps (.binary op info left right) = constSteps left ++ constSteps right := by
  rw [constSteps, if_pos hop, hleft.word hl, hright.none hr]
  exact congrArg _ (List.append_nil _)

theorem constSteps_both (hop : isConstBinary op = true) (hleft : ExactConst left)
    (hl : constValue left = some l) (hright : ExactConst right)
    (hr : constValue right = some r) :
    constSteps (.binary op info left right) = constSteps left ++ (constSteps right ++
      if op = .div ∧ r = 0 then [] else [.binary op l r]) := by
  have hrange := hright.inRange r hr
  have hzero : BitVec.ofInt 64 r = 0 ↔ r = 0 := by
    constructor
    · intro heq
      rw [← hrange.toInt, heq]
      rfl
    · rintro rfl
      rfl
  rw [constSteps, if_pos hop, hleft.word hl, hright.word hr]
  simp only [hzero, (hleft.inRange l hl).toInt, hrange.toInt]

end

/-- A constant in range is evaluated exactly. -/
theorem exactConst : ∀ node : ASTNode, ConstInRange node → ExactConst node
  | .number _ value, _ => ⟨by simp [evaluateConstExpression, constValue, word]; rfl, by
      rintro _ ⟨⟩
      exact inRange_toInt _⟩
  | .unary .negate _ operand, h => by
      have ih := exactConst operand h.1
      constructor
      · cases hvalue : constValue operand with
        | none => simp [evaluateConstExpression, ih.none hvalue, constValue, hvalue, word]
        | some v =>
          simp [evaluateConstExpression, ih.word hvalue, constValue, hvalue, word, BitVec.ofInt_neg]
      · intro value hvalue
        obtain ⟨v, hv, rfl⟩ := Option.map_eq_some_iff.mp hvalue
        exact h.2 v hv
  | .unary .bitNot _ operand, h => by
      have ih := exactConst operand h
      constructor
      · cases hvalue : constValue operand with
        | none => simp [evaluateConstExpression, ih.none hvalue, constValue, hvalue, word]
        | some v =>
          simp [evaluateConstExpression, ih.word hvalue, constValue, hvalue, word, ofInt_not]
      · intro value hvalue
        obtain ⟨v, hv, rfl⟩ := Option.map_eq_some_iff.mp hvalue
        obtain ⟨hle, hlt⟩ := ih.inRange v hv
        exact ⟨by omega, by omega⟩
  | .unary .not _ _, _ => ⟨rfl, nofun⟩
  | .binary op info left right, h => by
      by_cases hop : isConstBinary op = true
      · obtain ⟨hleft, hrest⟩ := h hop
        have ihl := exactConst left hleft
        cases hl : constValue left with
        | none =>
          have hnone : constValue (.binary op info left right) = none := by
            simp [constValue, hl]
          refine ⟨by rw [evaluate_left_none hop (ihl.none hl), hnone]; rfl, fun value hv => ?_⟩
          rw [hnone] at hv
          cases hv
        | some l =>
          obtain ⟨hright, hdefined⟩ := hrest l hl
          have ihr := exactConst right hright
          cases hr : constValue right with
          | none =>
            have hnone : constValue (.binary op info left right) = none := by
              simp [constValue, hl, hr]
            refine ⟨?_, fun value hv => ?_⟩
            · rw [evaluate_right_none hop (ihl.word hl) (ihr.none hr), hnone]
              rfl
            · rw [hnone] at hv
              cases hv
          | some r =>
            have hboth : constValue (.binary op info left right) = exactBinary op l r := by
              simp [constValue, hl, hr]
            have hd := hdefined r hr
            refine ⟨?_, fun value hv => ?_⟩
            · rw [evaluate_both hop (ihl.word hl) (ihr.word hr), hboth]
              exact constBinary_exact (ihl.inRange l hl) (ihr.inRange r hr) hd
            · rw [hboth] at hv
              exact exactBinary_inRange (ihl.inRange l hl) hd hv
      · have hfalse : isConstBinary op = false := by simpa using hop
        have hnone : constValue (.binary op info left right) = none := by
          have hexact : ∀ l r, exactBinary op l r = none := by
            cases op <;> first | exact fun _ _ => rfl | cases hfalse
          cases hl : constValue left <;> cases hr : constValue right <;>
            simp [constValue, hl, hr, hexact]
        refine ⟨by rw [evaluate_comparison hfalse, hnone]; rfl, fun value hv => ?_⟩
        rw [hnone] at hv
        cases hv
  | .null, _ => ⟨rfl, nofun⟩
  | .identifier _ _, _ => ⟨rfl, nofun⟩
  | .call _ _ _, _ => ⟨rfl, nofun⟩
  | .varDecl _ _ _ _, _ => ⟨rfl, nofun⟩
  | .assignment _ _ _, _ => ⟨rfl, nofun⟩
  | .ifStmt _ _ _ _, _ => ⟨rfl, nofun⟩
  | .whileStmt _ _ _, _ => ⟨rfl, nofun⟩
  | .block _ _, _ => ⟨rfl, nofun⟩
  | .returnStmt _ _, _ => ⟨rfl, nofun⟩
  | .function _ _ _ _ _ _, _ => ⟨rfl, nofun⟩
  | .translationUnit _ _, _ => ⟨rfl, nofun⟩

/-- The steps are defined exactly if all operations on the values of the parts are in range. -/
theorem constSteps_inRange_iff : ∀ node : ASTNode,
    (∀ step ∈ constSteps node, step.Defined) ↔ ConstInRange node
  | .unary .negate _ operand => by
      have ih := constSteps_inRange_iff operand
      simp only [constSteps, ConstInRange, List.forall_mem_append, ih]
      refine and_congr_right fun hrange => ?_
      have hexact := exactConst operand hrange
      cases hvalue : constValue operand with
      | none => simp [hexact.none hvalue]
      | some v =>
        simp [hexact.word hvalue, ConstStep.Defined, (hexact.inRange v hvalue).toInt]
  | .unary .bitNot _ operand => by
      simp only [constSteps, ConstInRange]
      exact constSteps_inRange_iff operand
  | .binary op info left right => by
      have ihl := constSteps_inRange_iff left
      have ihr := constSteps_inRange_iff right
      by_cases hop : isConstBinary op = true
      · have hleft : (∀ step ∈ constSteps (.binary op info left right), step.Defined) →
            ConstInRange left := by
          intro h
          refine ihl.mp fun step hstep => h step ?_
          rw [constSteps, if_pos hop]
          exact List.mem_append_left _ hstep
        simp only [ConstInRange, hop, forall_const]
        constructor
        · intro h
          have hl' := exactConst left (hleft h)
          refine ⟨hleft h, fun l hl => ?_⟩
          have hright : ConstInRange right := by
            refine ihr.mp fun step hstep => h step ?_
            rw [constSteps, if_pos hop, hl'.word hl]
            exact List.mem_append_right _ (List.mem_append_left _ hstep)
          refine ⟨hright, fun r hr => ?_⟩
          rw [constSteps_both hop hl' hl (exactConst right hright) hr] at h
          by_cases hzero : op = .div ∧ r = 0
          · exact .inl hzero
          · exact .inr (h _ (by simp [hzero]))
        · rintro ⟨hrange, hrest⟩
          have hl' := exactConst left hrange
          cases hl : constValue left with
          | none =>
            rw [constSteps_left_none hop hl' hl]
            exact ihl.mpr hrange
          | some l =>
            obtain ⟨hrange', hdefined⟩ := hrest l hl
            have hr' := exactConst right hrange'
            cases hr : constValue right with
            | none =>
              rw [constSteps_right_none hop hl' hl hr' hr]
              exact List.forall_mem_append.mpr ⟨ihl.mpr hrange, ihr.mpr hrange'⟩
            | some r =>
              rw [constSteps_both hop hl' hl hr' hr]
              refine List.forall_mem_append.mpr ⟨ihl.mpr hrange,
                List.forall_mem_append.mpr ⟨ihr.mpr hrange', ?_⟩⟩
              split
              · exact nofun
              · rename_i hzero
                exact List.forall_mem_singleton.mpr ((hdefined r hr).resolve_left hzero)
      · have hfalse : isConstBinary op = false := by simpa using hop
        rw [constSteps_comparison hfalse]
        exact ⟨fun _ hop' => absurd hop' hop, fun _ => nofun⟩
  | .unary .not _ _ => ⟨fun _ => trivial, fun _ => nofun⟩
  | .number _ _ => ⟨fun _ => trivial, fun _ => nofun⟩
  | .null => ⟨fun _ => trivial, fun _ => nofun⟩
  | .identifier _ _ => ⟨fun _ => trivial, fun _ => nofun⟩
  | .call _ _ _ => ⟨fun _ => trivial, fun _ => nofun⟩
  | .varDecl _ _ _ _ => ⟨fun _ => trivial, fun _ => nofun⟩
  | .assignment _ _ _ => ⟨fun _ => trivial, fun _ => nofun⟩
  | .ifStmt _ _ _ _ => ⟨fun _ => trivial, fun _ => nofun⟩
  | .whileStmt _ _ _ => ⟨fun _ => trivial, fun _ => nofun⟩
  | .block _ _ => ⟨fun _ => trivial, fun _ => nofun⟩
  | .returnStmt _ _ => ⟨fun _ => trivial, fun _ => nofun⟩
  | .function _ _ _ _ _ _ => ⟨fun _ => trivial, fun _ => nofun⟩
  | .translationUnit _ _ => ⟨fun _ => trivial, fun _ => nofun⟩

/-- The evaluation of a constant performs no operation that C leaves undefined exactly if all
operations on the values of its parts are in range, and then it computes the value of the
constant in unbounded integers. -/
theorem constSteps_defined_iff (node : ASTNode) :
    ((∀ step ∈ constSteps node, step.Defined) ↔ ConstInRange node) ∧
      (ConstInRange node → ExactConst node) :=
  ⟨constSteps_inRange_iff node, exactConst node⟩

/-- `(0 - 9223372036854775807 - 1) / (0 - 1)`. -/
def overflowingQuotient : ASTNode :=
  let number (addr : Nat) (text : String) : ASTNode := .number ⟨addr, .void, 1, 1⟩ (svOf text)
  let minus (addr : Nat) (left right : ASTNode) : ASTNode :=
    .binary .sub ⟨addr, .void, 1, 1⟩ left right
  .binary .div ⟨0, .void, 1, 1⟩
    (minus 1 (minus 2 (number 3 "0") (number 4 "9223372036854775807")) (number 5 "1"))
    (minus 6 (number 7 "0") (number 8 "1"))

/-- The evaluation divides the least number by -1, which traps. -/
theorem overflowingQuotient_traps :
    evaluateConstExpression overflowingQuotient = .error .divisionOverflow ∧
      ¬ ∀ step ∈ constSteps overflowingQuotient, step.Defined := by
  decide +kernel

end TinyCompile.Semantic
