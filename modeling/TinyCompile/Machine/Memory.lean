import Mathlib

set_option autoImplicit false

/-!
# Machine: little-endian bytes and byte-addressed memory

Memory is a total map from 64-bit addresses to bytes, and address arithmetic
wraps.  Values of several bytes are read and written least significant byte
first.  Everything here is about an arbitrary memory; nothing mentions a
compiler.
-/

namespace TinyCompile.Machine

/-- One byte. -/
abbrev Byte : Type := BitVec 8

/-- A 64-bit machine word; addresses are words. -/
abbrev Word : Type := BitVec 64

/-- A byte-addressed memory. -/
abbrev Mem : Type := Word → Byte

/-! ## Little-endian numbers -/

/-- The number whose little-endian digits are the given bytes. -/
def leNat : List Byte → Nat
  | [] => 0
  | b :: bs => b.toNat + 256 * leNat bs

/-- The `n` low bytes of `v`, least significant first. -/
def leBytes : Nat → Nat → List Byte
  | 0, _ => []
  | n + 1, v => BitVec.ofNat 8 v :: leBytes n (v / 256)

@[simp] theorem leBytes_length (n v : Nat) : (leBytes n v).length = n := by
  induction n generalizing v with
  | zero => rfl
  | succ n ih => simp [leBytes, ih]

theorem leNat_leBytes (n v : Nat) : leNat (leBytes n v) = v % 256 ^ n := by
  induction n generalizing v with
  | zero => simp [leBytes, leNat, Nat.mod_one]
  | succ n ih =>
    simp only [leBytes, leNat, ih, BitVec.toNat_ofNat]
    have hpow : 256 ^ (n + 1) = 256 * 256 ^ n := Nat.pow_succ'
    rw [hpow, Nat.mod_mul (x := v) (a := 256)]

theorem leNat_lt (bs : List Byte) : leNat bs < 256 ^ bs.length := by
  induction bs with
  | nil => simp [leNat]
  | cons b bs ih =>
    have hb : b.toNat < 256 := b.isLt
    simp only [leNat, List.length_cons, Nat.pow_succ]
    omega

theorem leBytes_leNat (bs : List Byte) : leBytes bs.length (leNat bs) = bs := by
  induction bs with
  | nil => rfl
  | cons b bs ih =>
    have hb : b.toNat < 256 := b.isLt
    have hdiv : (b.toNat + 256 * leNat bs) / 256 = leNat bs := by omega
    have hlow : BitVec.ofNat 8 (b.toNat + 256 * leNat bs) = b := by
      apply BitVec.eq_of_toNat_eq
      simp only [BitVec.toNat_ofNat]
      omega
    simp only [List.length_cons, leNat, leBytes, hdiv, hlow, ih]

theorem leNat_append (as bs : List Byte) :
    leNat (as ++ bs) = leNat as + 256 ^ as.length * leNat bs := by
  induction as with
  | nil => simp [leNat]
  | cons a as ih =>
    simp only [List.cons_append, leNat, ih, List.length_cons, Nat.pow_succ]
    rw [Nat.mul_add, Nat.add_assoc, Nat.mul_right_comm, Nat.mul_comm _ 256]

/-- Reading back the four bytes of a 32-bit value. -/
theorem ofNat_leNat_leBytes_four (v : BitVec 32) :
    BitVec.ofNat 32 (leNat (leBytes 4 v.toNat)) = v := by
  rw [leNat_leBytes]
  apply BitVec.eq_of_toNat_eq
  have h : v.toNat < 2 ^ 32 := v.isLt
  simp only [BitVec.toNat_ofNat]
  omega

/-- Reading back the eight bytes of a word. -/
theorem ofNat_leNat_leBytes_eight (v : Word) :
    BitVec.ofNat 64 (leNat (leBytes 8 v.toNat)) = v := by
  rw [leNat_leBytes]
  apply BitVec.eq_of_toNat_eq
  have h : v.toNat < 2 ^ 64 := v.isLt
  simp only [BitVec.toNat_ofNat]
  omega

/-! ## Reading and writing byte sequences -/

/-- The `n` bytes starting at `a`. -/
def readBytes (m : Mem) (a : Word) : Nat → List Byte
  | 0 => []
  | n + 1 => m a :: readBytes m (a + 1) n

/-- Store bytes one after the other from `a` on. -/
def writeBytes (m : Mem) (a : Word) : List Byte → Mem
  | [] => m
  | b :: bs => writeBytes (Function.update m a b) (a + 1) bs

@[simp] theorem readBytes_length (m : Mem) (a : Word) (n : Nat) :
    (readBytes m a n).length = n := by
  induction n generalizing a with
  | zero => rfl
  | succ n ih => simp [readBytes, ih]

theorem add_ofNat_succ (a : Word) (n : Nat) :
    a + 1 + BitVec.ofNat 64 n = a + BitVec.ofNat 64 (n + 1) := by
  rw [BitVec.add_assoc, Nat.add_comm n 1, BitVec.ofNat_add]
  rfl

theorem add_ofNat_add (a : Word) (n k : Nat) :
    a + BitVec.ofNat 64 n + BitVec.ofNat 64 k = a + BitVec.ofNat 64 (n + k) := by
  apply BitVec.eq_of_toNat_eq
  simp only [BitVec.toNat_add, BitVec.toNat_ofNat]
  omega

theorem getElem_readBytes (m : Mem) (a : Word) (n i : Nat)
    (h : i < (readBytes m a n).length) :
    (readBytes m a n)[i] = m (a + BitVec.ofNat 64 i) := by
  induction n generalizing a i with
  | zero => simp [readBytes] at h
  | succ n ih =>
    cases i with
    | zero => simp [readBytes]
    | succ i =>
      simp only [readBytes, List.getElem_cons_succ]
      rw [ih, add_ofNat_succ]

theorem readBytes_add (m : Mem) (a : Word) (j k : Nat) :
    readBytes m a (j + k) = readBytes m a j ++ readBytes m (a + BitVec.ofNat 64 j) k := by
  induction j generalizing a with
  | zero => simp [readBytes]
  | succ j ih =>
    rw [Nat.succ_add]
    simp only [readBytes, ih, List.cons_append, add_ofNat_succ]

/-- A byte outside the written range keeps its value. -/
theorem writeBytes_outside (m : Mem) (a x : Word) (bs : List Byte)
    (h : bs.length ≤ (x - a).toNat) : writeBytes m a bs x = m x := by
  induction bs generalizing m a with
  | nil => rfl
  | cons b bs ih =>
    have hx : x ≠ a := by
      rintro rfl
      simp at h
    have hstep : bs.length ≤ (x - (a + 1)).toNat := by
      simp only [List.length_cons] at h
      bv_omega
    simp only [writeBytes]
    rw [ih _ _ hstep, Function.update_of_ne hx]

/-- The written range holds the written bytes. -/
theorem writeBytes_inside (m : Mem) (a : Word) (bs : List Byte) (i : Nat)
    (hi : i < bs.length) (hlen : bs.length ≤ 2 ^ 64) :
    writeBytes m a bs (a + BitVec.ofNat 64 i) = bs[i] := by
  induction bs generalizing m a i with
  | nil => simp at hi
  | cons b bs ih =>
    simp only [List.length_cons] at hi hlen
    cases i with
    | zero =>
      have hfar : bs.length ≤ (a + BitVec.ofNat 64 0 - (a + 1)).toNat := by
        have : (a + BitVec.ofNat 64 0 - (a + 1)).toNat = 2 ^ 64 - 1 := by bv_omega
        omega
      simp only [writeBytes, List.getElem_cons_zero]
      rw [writeBytes_outside _ _ _ _ hfar]
      simp
    | succ i =>
      simp only [writeBytes, List.getElem_cons_succ]
      rw [← add_ofNat_succ]
      exact ih _ _ i (by omega) (by omega)

/-- Reading a prefix of what was written. -/
theorem readBytes_writeBytes_take (m : Mem) (a : Word) (bs : List Byte) (k : Nat)
    (hk : k ≤ bs.length) (hlen : bs.length ≤ 2 ^ 64) :
    readBytes (writeBytes m a bs) a k = bs.take k := by
  apply List.ext_getElem
  · simp [hk]
  · intro i h₁ h₂
    rw [getElem_readBytes, writeBytes_inside m a bs i (by simp at h₁; omega) hlen,
      List.getElem_take]

theorem readBytes_writeBytes_same (m : Mem) (a : Word) (bs : List Byte)
    (hlen : bs.length ≤ 2 ^ 64) :
    readBytes (writeBytes m a bs) a bs.length = bs := by
  rw [readBytes_writeBytes_take m a bs _ (Nat.le_refl _) hlen, List.take_length]

/-! ## Disjoint ranges -/

/-- The `n` bytes at `a` and the `k` bytes at `b` do not overlap. -/
def Apart (a : Word) (n : Nat) (b : Word) (k : Nat) : Prop :=
  n ≤ (b - a).toNat ∧ k ≤ (a - b).toNat

theorem Apart.symm {a b : Word} {n k : Nat} (h : Apart a n b k) : Apart b k a n :=
  ⟨h.2, h.1⟩

/-- A smaller range inside an apart range is apart. -/
theorem Apart.mono {a b : Word} {n n' k k' : Nat} (h : Apart a n b k)
    (hn : n' ≤ n) (hk : k' ≤ k) : Apart a n' b k' :=
  ⟨Nat.le_trans hn h.1, Nat.le_trans hk h.2⟩

/-- Each byte of one range is outside an apart range. -/
theorem Apart.outside {a b : Word} {n k i : Nat} (h : Apart a n b k) (hi : i < k)
    (hk : k ≤ 2 ^ 64) : n ≤ (b + BitVec.ofNat 64 i - a).toNat := by
  obtain ⟨h₁, h₂⟩ := h
  by_cases hb : b = a
  · subst hb
    simp at h₂
    omega
  · have hsum : (b - a).toNat + (a - b).toNat = 2 ^ 64 := by bv_omega
    have : (b + BitVec.ofNat 64 i - a).toNat = (b - a).toNat + i := by bv_omega
    omega

/-- Writing one range leaves an apart range as it was. -/
theorem readBytes_writeBytes_apart (m : Mem) (a b : Word) (bs : List Byte) (k : Nat)
    (h : Apart a bs.length b k) (hk : k ≤ 2 ^ 64) :
    readBytes (writeBytes m a bs) b k = readBytes m b k := by
  apply List.ext_getElem
  · simp
  · intro i h₁ h₂
    rw [getElem_readBytes, getElem_readBytes]
    exact writeBytes_outside _ _ _ _ (h.outside (by simpa using h₁) hk)

/-- Two ranges at fixed distances from one base are apart when their distances
are and neither wraps onto the other. -/
theorem apart_of_offsets (p : Word) {x y : Int} {n k : Nat}
    (h : (x + n ≤ y ∧ y + k ≤ x + 2 ^ 64) ∨ (y + k ≤ x ∧ x + n ≤ y + 2 ^ 64))
    (hn : 0 < n) (hk : 0 < k) :
    Apart (p + BitVec.ofInt 64 x) n (p + BitVec.ofInt 64 y) k := by
  have hsub : ∀ u v : Int,
      (p + BitVec.ofInt 64 u - (p + BitVec.ofInt 64 v)).toNat = ((u - v) % 2 ^ 64).toNat := by
    intro u v
    have hadd : BitVec.ofInt 64 u = BitVec.ofInt 64 (u - v) + BitVec.ofInt 64 v := by
      rw [← BitVec.ofInt_add, Int.sub_add_cancel]
    have : p + BitVec.ofInt 64 u - (p + BitVec.ofInt 64 v) = BitVec.ofInt 64 (u - v) := by
      rw [hadd]
      bv_omega
    rw [this, BitVec.toNat_ofInt]
    rfl
  unfold Apart
  rw [hsub, hsub]
  omega

/-! ## Words in memory -/

/-- The 64-bit word at `a`. -/
def read64 (m : Mem) (a : Word) : Word := BitVec.ofNat 64 (leNat (readBytes m a 8))

/-- Store the `n` low bytes of `v` at `a`. -/
def writeLow (m : Mem) (a : Word) (n : Nat) (v : Word) : Mem :=
  writeBytes m a (leBytes n v.toNat)

/-- Replace the `n` low bytes of `old` by those of `v`. -/
def replaceLow (n : Nat) (old v : Word) : Word :=
  BitVec.ofNat 64 (leNat (leBytes n v.toNat ++ (leBytes 8 old.toNat).drop n))

/-- The `n` low bytes of `v`, sign-extended to a word. -/
def signExtendLow (n : Nat) (v : Word) : Word := (v.setWidth (8 * n)).signExtend 64

theorem leBytes_read64 (m : Mem) (a : Word) :
    leBytes 8 (read64 m a).toNat = readBytes m a 8 := by
  have hlt := leNat_lt (readBytes m a 8)
  have hback := leBytes_leNat (readBytes m a 8)
  simp only [readBytes_length] at hlt hback
  have : (read64 m a).toNat = leNat (readBytes m a 8) := by
    simp only [read64, BitVec.toNat_ofNat]
    omega
  rw [this, hback]

theorem read64_writeLow_same (m : Mem) (a v : Word) :
    read64 (writeLow m a 8 v) a = v := by
  have h := readBytes_writeBytes_same m a (leBytes 8 v.toNat) (by simp)
  simp only [leBytes_length] at h
  rw [read64, writeLow, h, ofNat_leNat_leBytes_eight]

theorem read64_writeLow_apart {m : Mem} {a b v : Word} {n : Nat} (h : Apart a n b 8) :
    read64 (writeLow m a n v) b = read64 m b := by
  rw [read64, read64, writeLow, readBytes_writeBytes_apart _ _ _ _ _ (by simpa using h) (by omega)]

/-- Storing low bytes into a word in memory replaces its low bytes. -/
theorem read64_writeLow_low (m : Mem) (a v : Word) {n : Nat} (h0 : 0 < n) (hn : n ≤ 8) :
    read64 (writeLow m a n v) a = replaceLow n (read64 m a) v := by
  have hsplit : ∀ m' : Mem,
      readBytes m' a 8 = readBytes m' a n ++ readBytes m' (a + BitVec.ofNat 64 n) (8 - n) := by
    intro m'
    rw [← readBytes_add]
    congr 1
    omega
  have hrest : (readBytes m a 8).drop n = readBytes m (a + BitVec.ofNat 64 n) (8 - n) := by
    rw [hsplit m, List.drop_append_of_le_length (by simp), List.drop_of_length_le (by simp),
      List.nil_append]
  have hlow : readBytes (writeBytes m a (leBytes n v.toNat)) a n = leBytes n v.toNat := by
    have h := readBytes_writeBytes_same m a (leBytes n v.toNat) (by simp; omega)
    simpa using h
  have hkeep : readBytes (writeBytes m a (leBytes n v.toNat)) (a + BitVec.ofNat 64 n) (8 - n) =
      readBytes m (a + BitVec.ofNat 64 n) (8 - n) := by
    by_cases h8 : n = 8
    · subst h8
      rfl
    · apply readBytes_writeBytes_apart _ _ _ _ _ _ (by omega)
      simp only [Apart, leBytes_length]
      constructor <;> bv_omega
  rw [read64, writeLow, hsplit, hlow, hkeep, replaceLow, leBytes_read64, hrest]

/-- The low bytes of a word whose low bytes were replaced. -/
theorem replaceLow_setWidth {n : Nat} (old v : Word) (hn : n ≤ 8) :
    (replaceLow n old v).setWidth (8 * n) = v.setWidth (8 * n) := by
  have hpow : 2 ^ (8 * n) = 256 ^ n := by
    rw [Nat.pow_mul]
  have hdvd : 256 ^ n ∣ 2 ^ 64 := by
    rw [← hpow]
    exact Nat.pow_dvd_pow 2 (by omega)
  apply BitVec.eq_of_toNat_eq
  simp only [replaceLow, BitVec.toNat_setWidth, BitVec.toNat_ofNat, leNat_append, leBytes_length,
    leNat_leBytes, hpow]
  rw [Nat.mod_mod_of_dvd _ hdvd, Nat.add_mul_mod_self_left, Nat.mod_mod]

end TinyCompile.Machine
