import TinyCompile.Machine.Word
import TinyCompile.X86.Exec

set_option autoImplicit false

/-!
# X86: what short instruction sequences compute

A condition behind `cmp` decides the signed order, `setcc` and `movzx` make a 0 or 1
of it, and `cqo` with `idiv` divides signed words.
-/

namespace TinyCompile.X86

open TinyCompile.Machine

/-! ## Comparisons -/

/-- The relation between two signed numbers that a condition behind `cmp` tests. -/
def Cond.compares (a b : Int) : Cond → Bool
  | .e => decide (a = b)
  | .ne => decide (a ≠ b)
  | .l => decide (a < b)
  | .ge => decide (b ≤ a)
  | .le => decide (a ≤ b)
  | .g => decide (b < a)

/-- The zero flag of a difference. -/
theorem cmp_zf (a b : Word) : (AluOp.eval .cmp a b).2.zf = decide (a = b) := by
  show (a - b == 0) = decide (a = b)
  grind

/-- The sign flag of a difference, corrected by the overflow flag. -/
theorem cmp_sf (a b : Word) :
    ((AluOp.eval .cmp a b).2.sf != (AluOp.eval .cmp a b).2.of) = decide (a.toInt < b.toInt) := by
  have hsf : (AluOp.eval .cmp a b).2.sf = (a - b).msb := rfl
  have hof : (AluOp.eval .cmp a b).2.of = (a.msb != b.msb && (a - b).msb != a.msb) := rfl
  rw [hsf, hof]
  simp only [BitVec.msb_eq_decide, BitVec.toInt_eq_toNat_cond, BitVec.toNat_sub]
  have ha := a.isLt
  have hb := b.isLt
  grind

theorem cmp_holds (c : Cond) (a b : Word) :
    c.holds (AluOp.eval .cmp a b).2 = c.compares a.toInt b.toInt := by
  have hz := cmp_zf a b
  have hs := cmp_sf a b
  have heq : (a = b) ↔ a.toInt = b.toInt := BitVec.toInt_inj.symm
  cases c with
  | e =>
    simp only [Cond.holds, Cond.compares, hz, heq]
  | ne =>
    simp only [Cond.holds, Cond.compares, hz, heq, decide_not]
  | l => exact hs
  | ge =>
    have hnot : ∀ x y : Bool, (x == y) = !(x != y) := by decide
    simp only [Cond.holds, Cond.compares, hnot, hs, ← decide_not, Int.not_lt]
  | le =>
    simp only [Cond.holds, Cond.compares, hz, hs, heq, ← Bool.decide_or]
    congr 1
    apply propext
    omega
  | g =>
    have hnot : ∀ x y : Bool, (x == y) = !(x != y) := by decide
    simp only [Cond.holds, Cond.compares, hnot, hz, hs, heq, ← decide_not, ← Bool.decide_and]
    congr 1
    apply propext
    omega

/-- `setcc` and `movzx` on one register leave a 0 or a 1 in it. -/
theorem zeroExtend_flag (old : Word) (b : Bool) :
    ((replaceLow 1 old (if b then 1 else 0)).setWidth 8).setWidth 64 = truth b := by
  rw [replaceLow_setWidth (n := 1) old _ (by omega)]
  cases b <;> rfl

/-! ## Division -/

/-- `cqo` extends the dividend by its sign. -/
theorem dividend_cqo (a : Word) :
    dividend (if a.msb then BitVec.allOnes 64 else 0) a = a.toInt := by
  unfold dividend
  rw [BitVec.toInt_eq_msb_cond a]
  cases h : a.msb with
  | true =>
    simp
    omega
  | false => simp

/-- `idiv` behind `cqo`: the quotient is in `rax`, and only `rdx` changes beside it. -/
theorem execIdiv_eq {s : State} {a b q : Word} (hrax : s.regs .rax = a)
    (hrdx : s.regs .rdx = if a.msb then BitVec.allOnes 64 else 0) (hq : quotient a b = some q) :
    ∃ s', execIdiv s b = some s' ∧ s'.regs .rax = q ∧ s'.mem = s.mem ∧
      ∀ r, r ≠ .rax → r ≠ .rdx → s'.regs r = s.regs r := by
  have hmin := le_tdiv a b
  unfold quotient at hq
  split at hq
  · cases hq
  · rename_i hok
    obtain rfl := Option.some.inj hq
    have hzero : ¬ b = 0 := fun h => hok (.inl h)
    have hsmall : ¬ 2 ^ 63 ≤ a.toInt.tdiv b.toInt := fun h => hok (.inr h)
    have hrange : ¬ (a.toInt.tdiv b.toInt < -2 ^ 63 ∨ 2 ^ 63 ≤ a.toInt.tdiv b.toInt) := by
      omega
    unfold execIdiv
    rw [hrax, hrdx, dividend_cqo]
    simp only [hzero, if_false, hrange]
    generalize BitVec.ofInt 64 (a.toInt.tdiv b.toInt) = q
    generalize BitVec.ofInt 64 (a.toInt.tmod b.toInt) = m
    refine ⟨_, rfl, ?_, rfl, fun r hax hdx => ?_⟩
    · show ((s.setReg .rax q).setReg .rdx m).regs .rax = q
      rw [State.setReg_of_ne _ _ (by decide), State.setReg_same]
    · show ((s.setReg .rax q).setReg .rdx m).regs r = s.regs r
      rw [State.setReg_of_ne _ _ hdx, State.setReg_of_ne _ _ hax]

end TinyCompile.X86
