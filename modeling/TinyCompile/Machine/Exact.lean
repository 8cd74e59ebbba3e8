import TinyCompile.Machine.Memory

set_option autoImplicit false

/-!
# Machine: exact arithmetic on words

Where the mathematical result of an operation on signed words fits in a word, the operation
on words computes it.
-/

namespace TinyCompile.Machine

/-- The integers a signed word holds. -/
def InRange (value : Int) : Prop := -2 ^ 63 ≤ value ∧ value < 2 ^ 63

instance (value : Int) : Decidable (InRange value) := inferInstanceAs (Decidable (_ ∧ _))

theorem inRange_toInt (v : Word) : InRange v.toInt := ⟨v.le_toInt, v.toInt_lt⟩

theorem InRange.toInt {value : Int} (h : InRange value) : (BitVec.ofInt 64 value).toInt = value :=
  BitVec.toInt_ofInt_eq_self (by decide) h.1 h.2

section

variable {a b : Int}

theorem ofInt_sub (a b : Int) :
    BitVec.ofInt 64 (a - b) = BitVec.ofInt 64 a - BitVec.ofInt 64 b := by
  rw [Int.sub_eq_add_neg, BitVec.ofInt_add, BitVec.ofInt_neg, BitVec.sub_eq_add_neg]

theorem ofInt_not (a : Int) : BitVec.ofInt 64 (-a - 1) = ~~~BitVec.ofInt 64 a := by
  rw [ofInt_sub, BitVec.ofInt_neg, BitVec.neg_eq_not_add]
  exact BitVec.add_sub_cancel _ _

/-- The amount of a shift is taken as it is. -/
theorem toNat_shiftAmount (hb : 0 ≤ b) (hlt : b < 64) :
    (BitVec.ofInt 64 b).toNat % 64 = b.toNat := by
  rw [BitVec.toNat_ofInt]
  omega

theorem ofInt_shiftLeft (ha : 0 ≤ a) (n : Nat) :
    BitVec.ofInt 64 (a * 2 ^ n) = BitVec.ofInt 64 a <<< n := by
  obtain ⟨m, rfl⟩ := Int.eq_ofNat_of_zero_le ha
  have hcast : (m : Int) * 2 ^ n = ((m * 2 ^ n : Nat) : Int) := by push_cast; rfl
  rw [hcast, BitVec.ofInt_natCast, BitVec.ofInt_natCast]
  apply BitVec.eq_of_toNat_eq
  rw [BitVec.toNat_shiftLeft, BitVec.toNat_ofNat, BitVec.toNat_ofNat, Nat.shiftLeft_eq,
    Nat.mod_mul_mod]

theorem ofInt_tdiv (ha : InRange a) (hb : InRange b) :
    BitVec.ofInt 64 (a.tdiv b) = (BitVec.ofInt 64 a).sdiv (BitVec.ofInt 64 b) := by
  apply BitVec.eq_of_toInt_eq
  rw [BitVec.toInt_sdiv, ha.toInt, hb.toInt, BitVec.toInt_ofInt]

end

end TinyCompile.Machine
