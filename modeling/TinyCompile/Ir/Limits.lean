import TinyCompile.Ir.Literals
import TinyCompile.Machine.Bits
import TinyCompile.Source.Exact

set_option autoImplicit false

/-!
# Ir: the integers that the code computes with

The code computes in signed words of 64 bits.  A local variable keeps as many bytes as a
store of its type writes, and a load reads them as a signed number, also where the type is
unsigned; an operand of `>` is loaded with all its bytes.  Within these limits the operations
are the ones of C.
-/

namespace TinyCompile.Ir

open TinyCompile.Machine TinyCompile.Source TinyCompile.Parser

/-! ## Limits -/

/-- The values that come back from a slot, by the type of the store and the load. -/
def slotContains (type : DataType) (z : Int) : Bool :=
  decide (-2 ^ (8 * storedBytes (typeSize type) - 1) ≤ z ∧
    z < 2 ^ (8 * storedBytes (typeSize type) - 1))

/-- The values that are kept. -/
def compiledLimits : Limits where
  expression type z := type.contains z && decide (InRange z)
  stored type isLocal z :=
    type.contains z && decide (InRange z) && (!isLocal || slotContains type z)
  unseen type isLocal := !isLocal || storedBytes (typeSize type) == 8

/-- C allows for everything that is kept. -/
theorem compiledLimits_within : compiledLimits.Within cLimits where
  expression h := ((Bool.and_eq_true _ _).mp h).1
  stored h := ((Bool.and_eq_true _ _).mp ((Bool.and_eq_true _ _).mp h).1).1
  unseen _ := rfl

section

variable {type : DataType} {isLocal : Bool} {z : Int}

theorem expression_inRange (h : compiledLimits.expression type z = true) : InRange z :=
  of_decide_eq_true ((Bool.and_eq_true _ _).mp h).2

theorem stored_inRange (h : compiledLimits.stored type isLocal z = true) : InRange z :=
  of_decide_eq_true ((Bool.and_eq_true _ _).mp ((Bool.and_eq_true _ _).mp h).1).2

theorem stored_slotContains (h : compiledLimits.stored type true z = true) :
    slotContains type z = true := ((Bool.and_eq_true _ _).mp h).2

theorem storedBytes_cases (size : Nat) :
    storedBytes size = 1 ∨ storedBytes size = 4 ∨ storedBytes size = 8 := by
  unfold storedBytes
  split <;> omega

/-- All bytes of a word. -/
theorem signExtendLow_eight (v : Word) : signExtendLow 8 v = v := by simp [signExtendLow]

/-- A value of a slot is read back as it was stored. -/
theorem slotContains_load (h : slotContains type z = true) (hz : InRange z) (old : Word) :
    loadSlot (typeSize type) (storeSlot (typeSize type) old (BitVec.ofInt 64 z)) =
      BitVec.ofInt 64 z := by
  have hbounds := of_decide_eq_true h
  rw [loadSlot_storeSlot]
  obtain hsize | hsize | hsize := storedBytes_cases (typeSize type)
  · rw [hsize] at hbounds ⊢
    exact (signExtendLow_eq_self_iff (by omega) _).mpr (by rwa [hz.toInt])
  · rw [hsize] at hbounds ⊢
    exact (signExtendLow_eq_self_iff (by omega) _).mpr (by rwa [hz.toInt])
  · rw [hsize]
    exact signExtendLow_eight _

/-- A slot of eight bytes is read alike whatever the type says. -/
theorem loadSlot_void (h : storedBytes (typeSize type) = 8) (slot : Word) :
    loadSlot (typeSize .void) slot = loadSlot (typeSize type) slot := by
  unfold loadSlot
  rw [h]
  rfl

end

/-! ## Literals -/

theorem literalValue_word {text : StringView} {v : Value} (h : literalValue text = some v) :
    svToInt64 text = BitVec.ofInt 64 v.value ∧ InRange v.value := by
  unfold literalValue at h
  dsimp only at h
  split at h
  · rename_i hnumeral
    rw [svToInt64_numeral ((Bool.and_eq_true _ _).mp hnumeral).1]
    generalize digitsValue text = n at h
    have hvalue : n < 2 ^ 63 ∧ v.value = n := by
      split at h
      · cases h
        exact ⟨by omega, rfl⟩
      · split at h
        · cases h
          exact ⟨by omega, rfl⟩
        · cases h
    obtain ⟨hlt, hv⟩ := hvalue
    have hrange : InRange v.value := by
      rw [hv]
      constructor <;> omega
    refine ⟨?_, hrange⟩
    apply BitVec.eq_of_toInt_eq
    rw [saturate_toInt, hrange.toInt, hv]
    omega
  · cases h

/-! ## Operators -/

section

variable {a b : Int}

theorem ofInt_eq_zero_iff (ha : InRange a) : BitVec.ofInt 64 a = 0 ↔ a = 0 := by
  rw [← BitVec.toInt_inj, ha.toInt]
  rfl

theorem truth_ofInt (r : Bool) : truth r = BitVec.ofInt 64 (cond r 1 0) := by
  cases r <;> rfl

theorem inRange_cond (r : Bool) : InRange (cond r 1 0) := by
  cases r <;> decide

/-- A quotient that is in range. -/
theorem quotient_ofInt (ha : InRange a) (hb : InRange b) (hne : b ≠ 0)
    (hrange : InRange (a.tdiv b)) :
    quotient (BitVec.ofInt 64 a) (BitVec.ofInt 64 b) = some (BitVec.ofInt 64 (a.tdiv b)) := by
  unfold quotient
  rw [ha.toInt, hb.toInt, if_neg]
  rw [not_or, ofInt_eq_zero_iff hb]
  exact ⟨hne, not_le.mpr hrange.2⟩

end

section

variable {a b c : Value}

/-- A unary operation on a word that holds the operand. -/
theorem unary_word {op : UnaryOp} (h : compiledLimits.unary op a = some c)
    (ha : InRange a.value) :
    evalOp (BitVec.ofInt 64 a.value) 0 (unaryOpcode op) = some (BitVec.ofInt 64 c.value) ∧
      InRange c.value := by
  cases op with
  | negate =>
    obtain ⟨hallowed, rfl⟩ := Limits.value_eq_some h
    exact ⟨congrArg some BitVec.ofInt_neg.symm, expression_inRange hallowed⟩
  | bitNot =>
    obtain ⟨hallowed, rfl⟩ := Limits.value_eq_some h
    exact ⟨congrArg some (ofInt_not a.value).symm, expression_inRange hallowed⟩
  | not =>
    obtain ⟨hallowed, rfl⟩ := Limits.value_eq_some h
    refine ⟨congrArg some ?_, expression_inRange hallowed⟩
    rw [← truth_ofInt]
    exact congrArg truth (decide_eq_decide.mpr (ofInt_eq_zero_iff ha))

/-- An operation whose result, where it is in range, is what a word operation computes. -/
theorem converted_word {result : Option Int} {w : Option Word}
    (h : compiledLimits.converted a b result = some c)
    (hw : ∀ z, result = some z → InRange z → w = some (BitVec.ofInt 64 z)) :
    w = some (BitVec.ofInt 64 c.value) ∧ InRange c.value := by
  obtain ⟨hc, hallowed⟩ := Limits.converted_eq_some h
  have hrange := expression_inRange hallowed
  exact ⟨hw c.value hc hrange, hrange⟩

/-- A comparison of words that hold the operands. -/
theorem compared_word {r : Bool} {p : Prop} [Decidable p]
    (h : compiledLimits.compared a b r = some c) (hr : r = decide p) :
    some (truth (decide p)) = some (BitVec.ofInt 64 c.value) ∧ InRange c.value := by
  rw [Limits.compared_eq_some h, ← truth_ofInt, hr]
  exact ⟨rfl, inRange_cond _⟩

/-- A shift of a word, where C defines it. -/
theorem shifted_word {z : Int} {w : Word} (h : compiledLimits.shifted a b z = some c)
    (hw : 0 ≤ a.value → (BitVec.ofInt 64 b.value).toNat % 64 = b.value.toNat →
      w = BitVec.ofInt 64 z) :
    some w = some (BitVec.ofInt 64 c.value) ∧ InRange c.value := by
  obtain ⟨ha, hb, hlt, hc, hallowed⟩ := Limits.shifted_eq_some h
  rw [hw ha (toNat_shiftAmount hb hlt), hc]
  exact ⟨rfl, hc ▸ expression_inRange hallowed⟩

/-- An operation on words that hold the operands.  Which shift to the right the type selects
makes no difference. -/
theorem binary_word {op : BinaryOp} (type : DataType) (h : compiledLimits.binary op a b = some c)
    (ha : InRange a.value) (hb : InRange b.value) :
    evalOp (BitVec.ofInt 64 a.value) (BitVec.ofInt 64 b.value) (binaryOpcode op type) =
        some (BitVec.ofInt 64 c.value) ∧ InRange c.value := by
  have hle : ∀ x y : Int, InRange x → InRange y →
      ((BitVec.ofInt 64 x).toInt ≤ (BitVec.ofInt 64 y).toInt ↔ x ≤ y) := by
    intro x y hx hy
    rw [hx.toInt, hy.toInt]
  have hlt : ∀ x y : Int, InRange x → InRange y →
      ((BitVec.ofInt 64 x).toInt < (BitVec.ofInt 64 y).toInt ↔ x < y) := by
    intro x y hx hy
    rw [hx.toInt, hy.toInt]
  cases op with
  | add =>
    refine converted_word h fun z hz _ => ?_
    rw [← Option.some.inj hz, BitVec.ofInt_add]
    rfl
  | sub =>
    refine converted_word h fun z hz _ => ?_
    rw [← Option.some.inj hz, ofInt_sub]
    rfl
  | mul =>
    refine converted_word h fun z hz _ => ?_
    rw [← Option.some.inj hz, BitVec.ofInt_mul]
    rfl
  | div =>
    refine converted_word h fun z hz hrange => ?_
    split at hz
    · cases hz
    · rename_i hne
      obtain rfl := Option.some.inj hz
      exact quotient_ofInt ha hb hne hrange
  | bitAnd =>
    refine converted_word h fun z hz _ => ?_
    rw [← Option.some.inj hz, ofInt_land]
    rfl
  | bitOr =>
    refine converted_word h fun z hz _ => ?_
    rw [← Option.some.inj hz, ofInt_lor]
    rfl
  | bitXor =>
    refine converted_word h fun z hz _ => ?_
    rw [← Option.some.inj hz, ofInt_xor]
    rfl
  | equal =>
    refine compared_word h ?_
    rw [ha.toInt, hb.toInt]
    rfl
  | notEqual =>
    refine compared_word h ?_
    rw [ha.toInt, hb.toInt, decide_not]
    rfl
  | less => exact compared_word h (decide_eq_decide.mpr (hlt _ _ ha hb)).symm
  | lessEqual => exact compared_word h (decide_eq_decide.mpr (hle _ _ ha hb)).symm
  | greater => exact compared_word h (decide_eq_decide.mpr (hlt _ _ hb ha)).symm
  | greaterEqual => exact compared_word h (decide_eq_decide.mpr (hle _ _ hb ha)).symm
  | lshift =>
    refine shifted_word h fun hpos hamount => ?_
    rw [hamount, ofInt_shiftLeft hpos]
  | rshift =>
    show evalOp _ _ (if typeIsUnsigned type then .urshift else .rshift) = _ ∧ _
    split
    · refine shifted_word h fun hpos hamount => ?_
      rw [hamount, ofInt_ushiftRight ha hpos]
    · refine shifted_word h fun _ hamount => ?_
      rw [hamount, ofInt_sshiftRight ha]

end

end TinyCompile.Ir
