import TinyCompile.Machine.Exact
import TinyCompile.Machine.Word

set_option autoImplicit false

/-!
# Machine: bits and shifts of integers

The bitwise operations and the shifts on words, for words that hold given integers.
-/

namespace TinyCompile.Machine

variable {a b : Int}

/-! ## Bits -/

/-- The bits of a word that holds an integer are the low bits of the integer. -/
theorem getLsbD_ofInt (n : Nat) (a : Int) (k : Nat) :
    (BitVec.ofInt n a).getLsbD k = (decide (k < n) && a.testBit k) := by
  cases a with
  | ofNat m =>
    show (BitVec.ofInt n (m : Int)).getLsbD k = (decide (k < n) && m.testBit k)
    rw [BitVec.ofInt_natCast, BitVec.getLsbD_ofNat]
  | negSucc m =>
    show (BitVec.ofInt n (Int.negSucc m)).getLsbD k = (decide (k < n) && !m.testBit k)
    rw [BitVec.ofInt_negSucc_eq_not_ofNat, BitVec.getLsbD_not, BitVec.getLsbD_ofNat]
    cases decide (k < n) <;> rfl

theorem ofInt_land (a b : Int) :
    BitVec.ofInt 64 (Int.land a b) = BitVec.ofInt 64 a &&& BitVec.ofInt 64 b := by
  apply BitVec.eq_of_getLsbD_eq
  intro k hk
  rw [BitVec.getLsbD_and, getLsbD_ofInt, getLsbD_ofInt, getLsbD_ofInt, Int.testBit_land]
  simp [hk]

theorem ofInt_lor (a b : Int) :
    BitVec.ofInt 64 (Int.lor a b) = BitVec.ofInt 64 a ||| BitVec.ofInt 64 b := by
  apply BitVec.eq_of_getLsbD_eq
  intro k hk
  rw [BitVec.getLsbD_or, getLsbD_ofInt, getLsbD_ofInt, getLsbD_ofInt, Int.testBit_lor]
  simp [hk]

theorem ofInt_xor (a b : Int) :
    BitVec.ofInt 64 (Int.xor a b) = BitVec.ofInt 64 a ^^^ BitVec.ofInt 64 b := by
  apply BitVec.eq_of_getLsbD_eq
  intro k hk
  rw [BitVec.getLsbD_xor, getLsbD_ofInt, getLsbD_ofInt, getLsbD_ofInt, Int.testBit_lxor]
  simp [hk]

/-! ## Shifts to the right -/

theorem ofInt_sshiftRight (ha : InRange a) (n : Nat) :
    BitVec.ofInt 64 (a / 2 ^ n) = (BitVec.ofInt 64 a).sshiftRight n := by
  have hshift : a / 2 ^ n = ((BitVec.ofInt 64 a).sshiftRight n).toInt := by
    rw [BitVec.toInt_sshiftRight, ha.toInt, Int.shiftRight_eq_div_pow]
    push_cast
    rfl
  rw [hshift, BitVec.ofInt_toInt]

/-- Of an integer that is not negative, both shifts to the right are the same. -/
theorem ofInt_ushiftRight (ha : InRange a) (hpos : 0 ≤ a) (n : Nat) :
    BitVec.ofInt 64 (a / 2 ^ n) = BitVec.ofInt 64 a >>> n := by
  obtain ⟨m, rfl⟩ := Int.eq_ofNat_of_zero_le hpos
  have hlt : m < 2 ^ 64 := by
    have := ha.2
    omega
  have hcast : (m : Int) / 2 ^ n = ((m / 2 ^ n : Nat) : Int) := by push_cast; rfl
  rw [hcast, BitVec.ofInt_natCast, BitVec.ofInt_natCast]
  apply BitVec.eq_of_toNat_eq
  rw [BitVec.toNat_ushiftRight, BitVec.toNat_ofNat, BitVec.toNat_ofNat, Nat.mod_eq_of_lt hlt,
    Nat.shiftRight_eq_div_pow]
  exact Nat.mod_eq_of_lt (Nat.lt_of_le_of_lt (Nat.div_le_self _ _) hlt)

end TinyCompile.Machine
