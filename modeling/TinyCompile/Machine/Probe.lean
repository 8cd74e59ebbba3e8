import Mathlib

set_option autoImplicit false

/-!
# Machine: open addressing with linear probing

A table is given by the key each slot holds.  A search walks the probe sequence
of a key and stops at the first slot that is free or holds the key.  The
invariant `Consistent` says that a search for the key of an occupied slot ends
in that slot; under it a search decides membership, whatever the hash function,
the probe sequence and the number of probes.
-/

namespace TinyCompile.Probe

variable {κ : Type} [DecidableEq κ]

/-- The first of `n` probes, from number `i` on, that stops. -/
def searchFrom (stops : Nat → Bool) (probe : Nat → Nat) : Nat → Nat → Option Nat
  | 0, _ => none
  | n + 1, i => if stops (probe i) then some (probe i) else searchFrom stops probe n (i + 1)

theorem searchFrom_eq_some_iff {stops : Nat → Bool} {probe : Nat → Nat} {n i s : Nat} :
    searchFrom stops probe n i = some s ↔
      ∃ k < n, probe (i + k) = s ∧ stops s = true ∧
        ∀ k' < k, stops (probe (i + k')) = false := by
  induction n generalizing i with
  | zero => simp [searchFrom]
  | succ n ih =>
    simp only [searchFrom]
    split
    · rename_i hstop
      simp only [Option.some.injEq]
      constructor
      · rintro rfl
        exact ⟨0, by omega, rfl, hstop, by omega⟩
      · rintro ⟨k, -, hk, -, hbefore⟩
        cases k with
        | zero => exact hk
        | succ k =>
          have := hbefore 0 (by omega)
          simp [hstop] at this
    · rename_i hstop
      rw [ih]
      constructor
      · rintro ⟨k, hk, hs, hstops, hbefore⟩
        refine ⟨k + 1, by omega, by rw [← hs, Nat.add_right_comm, Nat.add_assoc], hstops, ?_⟩
        intro k' hk'
        cases k' with
        | zero => simpa using hstop
        | succ k' =>
          have := hbefore k' (by omega)
          rwa [Nat.add_right_comm, Nat.add_assoc] at this
      · rintro ⟨k, hk, hs, hstops, hbefore⟩
        cases k with
        | zero =>
          subst hs
          exact absurd hstops hstop
        | succ k =>
          refine ⟨k, by omega, by rw [← hs, Nat.add_right_comm, Nat.add_assoc], hstops, ?_⟩
          intro k' hk'
          have := hbefore (k' + 1) (by omega)
          rwa [← Nat.add_assoc, Nat.add_right_comm] at this

/-- A search that stops at the same slots ends in the same slot. -/
theorem searchFrom_congr {stops stops' : Nat → Bool} {probe : Nat → Nat} {n i s : Nat}
    (h : searchFrom stops probe n i = some s) (hs : stops' s = true)
    (hkeep : ∀ s', stops s' = false → stops' s' = false) :
    searchFrom stops' probe n i = some s := by
  rw [searchFrom_eq_some_iff] at h ⊢
  obtain ⟨k, hk, hprobe, -, hbefore⟩ := h
  exact ⟨k, hk, hprobe, hs, fun k' hk' => hkeep _ (hbefore k' hk')⟩

/-- A search for `key` stops at a free slot and at the slot of the key. -/
def stopsAt (keyAt : Nat → Option κ) (key : κ) (s : Nat) : Bool :=
  keyAt s == none || keyAt s == some key

/-- Where the search for a key ends; `none` when all `size` probes are taken. -/
def find (probe : κ → Nat → Nat) (size : Nat) (keyAt : Nat → Option κ) (key : κ) : Option Nat :=
  searchFrom (stopsAt keyAt key) (probe key) size 0

section Tables

variable {probe : κ → Nat → Nat} {size : Nat} {keyAt : Nat → Option κ}

/-- Every occupied slot is found by its own key. -/
def Consistent (probe : κ → Nat → Nat) (size : Nat) (keyAt : Nat → Option κ) : Prop :=
  ∀ s key, keyAt s = some key → find probe size keyAt key = some s

theorem consistent_empty : Consistent probe size (fun _ => none) := by
  intro s key h
  simp at h

theorem find_stops {key : κ} {s : Nat} (h : find probe size keyAt key = some s) :
    keyAt s = none ∨ keyAt s = some key := by
  rw [find, searchFrom_eq_some_iff] at h
  obtain ⟨k, -, -, hstops, -⟩ := h
  simpa [stopsAt] using hstops

/-- A key sits in one slot only. -/
theorem Consistent.slot_unique (h : Consistent probe size keyAt) {s s' : Nat} {key : κ}
    (hs : keyAt s = some key) (hs' : keyAt s' = some key) : s = s' := by
  have := (h s key hs).symm.trans (h s' key hs')
  simpa using this

/-- A search that does not end in the slot of its key says that no slot holds
the key. -/
theorem Consistent.absent (h : Consistent probe size keyAt) {key : κ}
    (hfind : ∀ s, find probe size keyAt key = some s → keyAt s ≠ some key) (s : Nat) :
    keyAt s ≠ some key :=
  fun hs => hfind s (h s key hs) hs

/-- Storing a key in the slot where its search ends keeps the table consistent. -/
theorem Consistent.store (h : Consistent probe size keyAt) {key : κ} {s : Nat}
    (hfind : find probe size keyAt key = some s) :
    Consistent probe size (Function.update keyAt s (some key)) := by
  intro s' key' hs'
  by_cases hslot : s' = s
  · subst hslot
    simp only [Function.update_self, Option.some.injEq] at hs'
    subst hs'
    refine searchFrom_congr hfind (by simp [stopsAt]) ?_
    intro t ht
    have hne : t ≠ s' := by
      rintro rfl
      rcases find_stops hfind with hfree | hkey
      · simp [stopsAt, hfree] at ht
      · simp [stopsAt, hkey] at ht
    simpa [stopsAt, Function.update_of_ne hne] using ht
  · rw [Function.update_of_ne hslot] at hs'
    have hfound := h s' key' hs'
    refine searchFrom_congr hfound (by simp [stopsAt, Function.update_of_ne hslot, hs']) ?_
    intro t ht
    by_cases hts : t = s
    · -- the slot was occupied by another key before, so it already held `key`
      subst hts
      have hold := find_stops hfind
      simp only [stopsAt, Bool.or_eq_false_iff, beq_eq_false_iff_ne] at ht
      have hkey : keyAt t = some key := hold.resolve_left ht.1
      have hne : key ≠ key' := by
        rintro rfl
        exact ht.2 hkey
      simp [stopsAt, hne]
    · simpa [stopsAt, Function.update_of_ne hts] using ht

/-! ### Looking up -/

/-- The slot that holds a key. -/
def lookup (probe : κ → Nat → Nat) (size : Nat) (keyAt : Nat → Option κ) (key : κ) :
    Option Nat :=
  (find probe size keyAt key).filter fun s => (keyAt s).isSome

theorem Consistent.lookup_eq_some_iff (h : Consistent probe size keyAt) {key : κ} {s : Nat} :
    lookup probe size keyAt key = some s ↔ keyAt s = some key := by
  unfold lookup
  rw [Option.filter_eq_some_iff]
  constructor
  · rintro ⟨hfind, hsome⟩
    rcases find_stops hfind with hfree | hkey
    · rw [hfree] at hsome
      cases hsome
    · exact hkey
  · intro hkey
    refine ⟨h s key hkey, ?_⟩
    rw [hkey]
    rfl

/-- A stored key is found where it was stored, and the others where they were. -/
theorem Consistent.lookup_store (h : Consistent probe size keyAt) {key : κ} {s : Nat}
    (hfind : find probe size keyAt key = some s) (other : κ) :
    lookup probe size (Function.update keyAt s (some key)) other =
      if other = key then some s else lookup probe size keyAt other := by
  have h' := h.store hfind
  apply Option.ext
  intro t
  rw [h'.lookup_eq_some_iff]
  by_cases hkey : other = key
  · subst hkey
    rw [if_pos rfl, Option.some.injEq]
    constructor
    · intro ht
      exact h'.slot_unique (Function.update_self ..) ht
    · rintro rfl
      exact Function.update_self ..
  · rw [if_neg hkey, h.lookup_eq_some_iff]
    by_cases hslot : t = s
    · subst hslot
      -- the slot was free or held the stored key
      have hold : keyAt t ≠ some other := by
        intro hother
        rcases find_stops hfind with hfree | hsame
        · rw [hfree] at hother
          cases hother
        · rw [hsame] at hother
          exact hkey (Option.some.inj hother).symm
      rw [Function.update_self]
      simp only [Option.some.injEq, hold, iff_false]
      exact fun heq => hkey heq.symm
    · rw [Function.update_of_ne hslot]

/-! ### Full tables -/

/-- The probes of every key visit exactly the slots of the table. -/
def Covers (probe : κ → Nat → Nat) (size : Nat) : Prop :=
  (∀ key i, probe key i < size) ∧ ∀ key, ∀ s < size, ∃ i < size, probe key i = s

/-- A search fails if and only if every slot is taken by another key. -/
theorem find_eq_none_iff (hcover : Covers probe size) {key : κ} :
    find probe size keyAt key = none ↔ ∀ s < size, keyAt s ≠ none ∧ keyAt s ≠ some key := by
  have hstops : ∀ s, stopsAt keyAt key s = true ↔ keyAt s = none ∨ keyAt s = some key := by
    intro s
    simp [stopsAt]
  constructor
  · intro hnone s hs
    -- otherwise the first probe that stops would be found
    by_contra hstop
    have hexists : ∃ k, k < size ∧ stopsAt keyAt key (probe key k) = true := by
      obtain ⟨i, hi, rfl⟩ := hcover.2 key s hs
      refine ⟨i, hi, (hstops _).mpr ?_⟩
      by_contra hno
      exact hstop ⟨fun h => hno (.inl h), fun h => hno (.inr h)⟩
    classical
    obtain ⟨hk, hfound⟩ := Nat.find_spec hexists
    have hsome : find probe size keyAt key = some (probe key (Nat.find hexists)) := by
      refine searchFrom_eq_some_iff.mpr ⟨Nat.find hexists, hk, by rw [Nat.zero_add], hfound, ?_⟩
      intro k' hk'
      rw [Nat.zero_add, Bool.eq_false_iff]
      exact fun hstop' => Nat.find_min hexists hk' ⟨Nat.lt_trans hk' hk, hstop'⟩
    rw [hnone] at hsome
    cases hsome
  · intro hall
    cases hfind : find probe size keyAt key with
    | none => rfl
    | some s =>
      obtain ⟨k, -, hs, -, -⟩ := searchFrom_eq_some_iff.mp hfind
      obtain ⟨hfree, hkey⟩ := hall s (by rw [← hs]; exact hcover.1 _ _)
      rcases find_stops hfind with h | h
      · exact absurd h hfree
      · exact absurd h hkey

/-- The slots that are taken. -/
def taken (size : Nat) (keyAt : Nat → Option κ) : Finset Nat :=
  (Finset.range size).filter fun s => (keyAt s).isSome

/-- As many slots are taken as there are keys. -/
theorem Consistent.card_taken (h : Consistent probe size keyAt) (hcover : Covers probe size)
    {keys : Finset κ} (hkeys : ∀ key, key ∈ keys ↔ ∃ s, keyAt s = some key) :
    (taken size keyAt).card = keys.card := by
  have himage : (taken size keyAt).image keyAt = keys.image some := by
    ext o
    simp only [taken, Finset.mem_image, Finset.mem_filter, Finset.mem_range]
    constructor
    · rintro ⟨s, ⟨-, hsome⟩, rfl⟩
      obtain ⟨key, hkey⟩ := Option.isSome_iff_exists.mp hsome
      exact ⟨key, (hkeys key).mpr ⟨s, hkey⟩, hkey.symm⟩
    · rintro ⟨key, hmem, rfl⟩
      obtain ⟨s, hs⟩ := (hkeys key).mp hmem
      obtain ⟨k, -, hk, -, -⟩ := searchFrom_eq_some_iff.mp (h s key hs)
      exact ⟨s, ⟨by rw [← hk]; exact hcover.1 _ _, by rw [hs]; rfl⟩, hs⟩
  rw [← Finset.card_image_of_injective keys (Option.some_injective κ), ← himage,
    Finset.card_image_of_injOn]
  intro s hs s' hs' heq
  simp only [taken, Finset.coe_filter, Set.mem_ofPred_eq] at hs
  obtain ⟨key, hkey⟩ := Option.isSome_iff_exists.mp hs.2
  exact h.slot_unique hkey (heq.symm.trans hkey)

/-- A search fails if and only if the key is absent and there is a key for every slot. -/
theorem Consistent.find_eq_none (h : Consistent probe size keyAt) (hcover : Covers probe size)
    {keys : Finset κ} (hkeys : ∀ key, key ∈ keys ↔ ∃ s, keyAt s = some key) (key : κ) :
    find probe size keyAt key = none ↔ key ∉ keys ∧ size ≤ keys.card := by
  have hcard := h.card_taken hcover hkeys
  have hsub : taken size keyAt ⊆ Finset.range size := Finset.filter_subset _ _
  rw [find_eq_none_iff hcover]
  constructor
  · intro hall
    refine ⟨fun hmem => ?_, ?_⟩
    · obtain ⟨s, hs⟩ := (hkeys key).mp hmem
      obtain ⟨k, -, hk, -, -⟩ := searchFrom_eq_some_iff.mp (h s key hs)
      exact (hall s (by rw [← hk]; exact hcover.1 _ _)).2 hs
    · have hfull : taken size keyAt = Finset.range size := by
        refine Finset.Subset.antisymm hsub fun s hs => ?_
        have hs' := Finset.mem_range.mp hs
        exact Finset.mem_filter.mpr ⟨hs, Option.isSome_iff_ne_none.mpr (hall s hs').1⟩
      rw [← hcard, hfull, Finset.card_range]
  · rintro ⟨habsent, hfull⟩ s hs
    have heq : taken size keyAt = Finset.range size :=
      Finset.eq_of_subset_of_card_le hsub (by rw [Finset.card_range, hcard]; exact hfull)
    have hmem : s ∈ taken size keyAt := by
      rw [heq]
      exact Finset.mem_range.mpr hs
    have hsome := (Finset.mem_filter.mp hmem).2
    refine ⟨Option.isSome_iff_ne_none.mp hsome, fun hkey => ?_⟩
    exact habsent ((hkeys key).mpr ⟨s, hkey⟩)

omit [DecidableEq κ] in
/-- Linear probing from a hash visits every slot of a table whose size is a power of two. -/
theorem covers_linear (hash : κ → Nat) (w : Nat) :
    Covers (fun key i => ((hash key &&& (2 ^ w - 1)) + i) &&& (2 ^ w - 1)) (2 ^ w) := by
  have hpos := Nat.two_pow_pos w
  simp only [Covers, Nat.and_two_pow_sub_one_eq_mod]
  refine ⟨fun key i => Nat.mod_lt _ hpos, fun key s hs => ?_⟩
  have hlt := Nat.mod_lt (hash key) hpos
  refine ⟨(s + (2 ^ w - hash key % 2 ^ w)) % 2 ^ w, Nat.mod_lt _ hpos, ?_⟩
  rw [Nat.add_mod_mod]
  have hsum : hash key % 2 ^ w + (s + (2 ^ w - hash key % 2 ^ w)) = s + 2 ^ w := by omega
  rw [hsum, Nat.add_mod_right, Nat.mod_eq_of_lt hs]

end Tables

end TinyCompile.Probe
