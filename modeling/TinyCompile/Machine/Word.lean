import TinyCompile.Machine.Memory

set_option autoImplicit false

/-!
# Machine: arithmetic on words

Truth values, signed division that may trap, and the values an integer type of a given
size holds.
-/

namespace TinyCompile.Machine

/-- The word of a truth value. -/
def truth (b : Bool) : Word := if b then 1 else 0

/-- The quotient of signed words, truncated; `none` where there is none in 64 bits. -/
def quotient (a b : Word) : Option Word :=
  if b = 0 ∨ 2 ^ 63 ≤ a.toInt.tdiv b.toInt then none
  else some (BitVec.ofInt 64 (a.toInt.tdiv b.toInt))

theorem le_tdiv (a b : Word) : -2 ^ 63 ≤ a.toInt.tdiv b.toInt := by
  have ha := BitVec.le_toInt a
  have ha' := BitVec.toInt_lt (x := a)
  have habs : (a.toInt.tdiv b.toInt).natAbs ≤ a.toInt.natAbs := by
    rw [Int.natAbs_tdiv]
    exact Nat.div_le_self _ _
  omega

/-- The `n` low bytes of `v`, zero-extended to a word. -/
def zeroExtendLow (n : Nat) (v : Word) : Word := (v.setWidth (8 * n)).setWidth 64

/-- `v` converted to an integer type of `n` bytes. -/
def convertLow (n : Nat) (signed : Bool) (v : Word) : Word :=
  if signed then signExtendLow n v else zeroExtendLow n v

theorem zeroExtendLow_toNat (n : Nat) (v : Word) (h : n ≤ 8) :
    (zeroExtendLow n v).toNat = v.toNat % 2 ^ (8 * n) := by
  have hdvd : 2 ^ (8 * n) ∣ 2 ^ 64 := Nat.pow_dvd_pow 2 (by omega)
  simp only [zeroExtendLow, BitVec.toNat_setWidth]
  exact Nat.mod_eq_of_lt (Nat.lt_of_lt_of_le (Nat.mod_lt _ (Nat.two_pow_pos _))
    (Nat.le_of_dvd (by decide) hdvd))

/-! ## Values that a conversion keeps -/

theorem signExtendLow_eq_self_iff {n : Nat} (hn : n = 1 ∨ n = 2 ∨ n = 4) (v : Word) :
    signExtendLow n v = v ↔ -2 ^ (8 * n - 1) ≤ v.toInt ∧ v.toInt < 2 ^ (8 * n - 1) := by
  have hlow : (signExtendLow n v).toInt = (v.setWidth (8 * n)).toInt := by
    unfold signExtendLow
    exact BitVec.toInt_signExtend_of_le (by omega)
  have hmod : (v.setWidth (8 * n)).toInt = v.toInt.bmod (2 ^ (8 * n)) := by
    rw [BitVec.toInt_setWidth, BitVec.toInt_eq_toNat_bmod]
    refine (Int.bmod_bmod_of_dvd ?_).symm
    exact Nat.pow_dvd_pow 2 (by omega)
  rw [← BitVec.toInt_inj, hlow, hmod]
  constructor
  · intro heq
    rw [← heq]
    obtain rfl | rfl | rfl := hn <;> (simp only [Int.bmod_def]; omega)
  · intro hrange
    obtain rfl | rfl | rfl := hn <;> (simp only [Int.bmod_def]; omega)

theorem zeroExtendLow_eq_self_iff {n : Nat} (hn : n = 1 ∨ n = 2 ∨ n = 4) (v : Word) :
    zeroExtendLow n v = v ↔ 0 ≤ v.toInt ∧ v.toInt < 2 ^ (8 * n) := by
  rw [← BitVec.toNat_inj, zeroExtendLow_toNat n v (by omega), BitVec.toInt_eq_toNat_cond]
  have hlt := v.isLt
  obtain rfl | rfl | rfl := hn <;> (split <;> omega)

end TinyCompile.Machine
