import TinyCompile.Machine.Memory

set_option autoImplicit false

/-!
# Machine: consecutive words

`n` words of eight bytes from an address up, as a list.  A stack that grows down is such a
list: a push puts a word in front.
-/

namespace TinyCompile.Machine

/-- The `n` words from `a` up. -/
def wordsAt (m : Mem) (a : Word) : Nat → List Word
  | 0 => []
  | n + 1 => read64 m a :: wordsAt m (a + 8) n

@[simp] theorem wordsAt_zero (m : Mem) (a : Word) : wordsAt m a 0 = [] := rfl

theorem wordsAt_succ (m : Mem) (a : Word) (n : Nat) :
    wordsAt m a (n + 1) = read64 m a :: wordsAt m (a + 8) n := rfl

@[simp] theorem wordsAt_length (m : Mem) (a : Word) (n : Nat) : (wordsAt m a n).length = n := by
  induction n generalizing a with
  | zero => rfl
  | succ n ih => rw [wordsAt_succ, List.length_cons, ih]

/-- The address eight bytes on. -/
theorem add_eight_mul (a : Word) (n : Nat) :
    a + 8 + BitVec.ofNat 64 (8 * n) = a + BitVec.ofNat 64 (8 * (n + 1)) := by
  rw [BitVec.add_assoc, Nat.mul_succ, Nat.add_comm (8 * n) 8, BitVec.ofNat_add]
  rfl

theorem wordsAt_add (m : Mem) (a : Word) (j k : Nat) :
    wordsAt m a (j + k) = wordsAt m a j ++ wordsAt m (a + BitVec.ofNat 64 (8 * j)) k := by
  induction j generalizing a with
  | zero => simp
  | succ j ih => rw [Nat.succ_add, wordsAt_succ, ih, wordsAt_succ, add_eight_mul, List.cons_append]

theorem getElem_wordsAt (m : Mem) (a : Word) (n i : Nat) (h : i < (wordsAt m a n).length) :
    (wordsAt m a n)[i] = read64 m (a + BitVec.ofNat 64 (8 * i)) := by
  induction n generalizing a i with
  | zero => simp at h
  | succ n ih =>
    cases i with
    | zero => simp [wordsAt_succ]
    | succ i =>
      simp only [wordsAt_succ, List.getElem_cons_succ]
      rw [ih, add_eight_mul]

/-- Writing an apart range leaves the words. -/
theorem wordsAt_writeLow_apart {m : Mem} {a b v : Word} {n k : Nat} (h : Apart b k a (8 * n))
    (hn : 8 * n ≤ 2 ^ 64) : wordsAt (writeLow m b k v) a n = wordsAt m a n := by
  induction n generalizing a with
  | zero => rfl
  | succ n ih =>
    have hhead : Apart b k a 8 := h.mono (Nat.le_refl k) (by omega)
    rw [wordsAt_succ, wordsAt_succ, read64_writeLow_apart hhead]
    cases n with
    | zero => rfl
    | succ n =>
      have htail : Apart b k (a + 8) (8 * (n + 1)) := by
        obtain ⟨h₁, h₂⟩ := h
        by_cases hab : b = a
        · subst hab
          simp at h₁ h₂
        · constructor <;> bv_omega
      rw [ih htail (by omega)]

/-- A word written below some words is in front of them. -/
theorem wordsAt_writeLow_cons (m : Mem) (a v : Word) {n : Nat} (hn : 8 * (n + 1) ≤ 2 ^ 64) :
    wordsAt (writeLow m a 8 v) a (n + 1) = v :: wordsAt m (a + 8) n := by
  have hapart : Apart a 8 (a + 8) (8 * n) := by
    constructor <;> bv_omega
  rw [wordsAt_succ, read64_writeLow_same, wordsAt_writeLow_apart hapart (by omega)]

end TinyCompile.Machine
