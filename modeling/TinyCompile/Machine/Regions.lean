import TinyCompile.Machine.Words

set_option autoImplicit false

/-!
# Machine: regions that keep their bytes

Two memories that agree on the bytes from an address up.  What is read inside the region is
the same in both, and a write outside of it keeps the agreement.
-/

namespace TinyCompile.Machine

/-- The `n` bytes from `a` up are the same. -/
def SameBytes (a : Word) (n : Nat) (m m' : Mem) : Prop := ∀ x, (x - a).toNat < n → m' x = m x

section

variable {a b v : Word} {n k : Nat} {m m' m'' : Mem}

theorem SameBytes.refl (a : Word) (n : Nat) (m : Mem) : SameBytes a n m m := fun _ _ => rfl

theorem SameBytes.trans (h : SameBytes a n m m') (h' : SameBytes a n m' m'') :
    SameBytes a n m m'' := fun x hx => (h' x hx).trans (h x hx)

/-- A region inside another one. -/
theorem SameBytes.mono (h : SameBytes a n m m') (hsub : (b - a).toNat + k ≤ n) :
    SameBytes b k m m' := by
  intro x hx
  refine h x ?_
  bv_omega

/-- A write outside of the region. -/
theorem sameBytes_writeLow (h : Apart b k a n) (hk : k ≤ 8) :
    SameBytes a n m (writeLow m b k v) := by
  intro x hx
  obtain ⟨hafter, hbefore⟩ := h
  refine writeBytes_outside _ _ _ _ ?_
  rw [leBytes_length]
  bv_omega

/-- A word is determined by its bytes. -/
theorem read64_congr (h : ∀ i < 8, m (a + BitVec.ofNat 64 i) = m' (a + BitVec.ofNat 64 i)) :
    read64 m a = read64 m' a := by
  have hbytes : readBytes m a 8 = readBytes m' a 8 := by
    refine List.ext_getElem (by simp) fun i h₁ h₂ => ?_
    rw [getElem_readBytes, getElem_readBytes]
    exact h i (by simpa using h₁)
  unfold read64
  rw [hbytes]

/-- A word inside the region. -/
theorem SameBytes.read64 (h : SameBytes a n m m') (hin : (b - a).toNat + 8 ≤ n) :
    read64 m' b = read64 m b := by
  refine read64_congr fun i hi => h _ ?_
  bv_omega

/-- Words inside the region. -/
theorem SameBytes.wordsAt (h : SameBytes a n m m') (hin : (b - a).toNat + 8 * k ≤ n) :
    wordsAt m' b k = wordsAt m b k := by
  induction k generalizing b with
  | zero => rfl
  | succ k ih =>
    have hnext : (b + 8 - a).toNat + 8 * k ≤ n := by
      have hadd : (b + 8 - a).toNat ≤ (b - a).toNat + 8 := by
        rw [show b + 8 - a = b - a + 8 by bv_omega, BitVec.toNat_add]
        exact Nat.mod_le _ _
      omega
    rw [wordsAt_succ, wordsAt_succ, h.read64 (by omega), ih hnext]

end

end TinyCompile.Machine
