import TinyCompile.Jit.Items

set_option autoImplicit false

/-!
# Jit: what is in the buffer

`layout` gives each item its offset.  `Written` is the invariant of the second pass:
the bytes of the items, the label tables, and the patch list, which holds exactly the
jumps to labels that are not defined yet.
-/

namespace TinyCompile.Jit

open TinyCompile.Machine TinyCompile.X86 TinyCompile.Source TinyCompile.Ir

/-! ## Offsets -/

/-- Consecutive items with their offsets, the first of which is `off`. -/
def layout : Nat → List Item → List (Nat × Item)
  | _, [] => []
  | off, item :: rest => (off, item) :: layout (off + item.size) rest

theorem layout_append (off : Nat) (items items' : List Item) :
    layout off (items ++ items') =
      layout off items ++ layout (off + itemsSize items) items' := by
  induction items generalizing off with
  | nil => simp [layout]
  | cons item items ih => simp [layout, ih, Nat.add_assoc]

/-- An entry of a layout lies inside it. -/
theorem layout_bounds {off o : Nat} {items : List Item} {item : Item}
    (h : (o, item) ∈ layout off items) :
    off ≤ o ∧ o + item.size ≤ off + itemsSize items := by
  induction items generalizing off with
  | nil => cases h
  | cons i items ih =>
    rw [itemsSize_cons]
    rcases List.mem_cons.mp h with h | h
    · obtain ⟨rfl, rfl⟩ := Prod.mk.inj h
      omega
    · have := ih h
      omega

/-- Two entries of a layout are the same, or one is behind the other. -/
theorem layout_apart {off o o' : Nat} {items : List Item} {item item' : Item}
    (h : (o, item) ∈ layout off items) (h' : (o', item') ∈ layout off items) :
    (o = o' ∧ item = item') ∨ o + item.size ≤ o' ∨ o' + item'.size ≤ o := by
  induction items generalizing off with
  | nil => cases h
  | cons i items ih =>
    rcases List.mem_cons.mp h with h | h <;> rcases List.mem_cons.mp h' with h' | h'
    · obtain ⟨rfl, rfl⟩ := Prod.mk.inj h
      obtain ⟨rfl, rfl⟩ := Prod.mk.inj h'
      exact .inl ⟨rfl, rfl⟩
    · obtain ⟨rfl, rfl⟩ := Prod.mk.inj h
      exact .inr (.inl (layout_bounds h').1)
    · obtain ⟨rfl, rfl⟩ := Prod.mk.inj h'
      exact .inr (.inr (layout_bounds h).1)
    · exact ih h h'

/-- The item behind some others. -/
theorem mem_layout_split (off : Nat) (pre post : List Item) (item : Item) :
    (off + itemsSize pre, item) ∈ layout off (pre ++ item :: post) := by
  rw [layout_append]
  exact List.mem_append_right _ (by simp [layout])

theorem mem_layout_iff {off o : Nat} {items : List Item} {item : Item} :
    (o, item) ∈ layout off items ↔
      ∃ pre post, items = pre ++ item :: post ∧ o = off + itemsSize pre := by
  constructor
  · intro h
    induction items generalizing off with
    | nil => cases h
    | cons i items ih =>
      rcases List.mem_cons.mp h with h | h
      · obtain ⟨rfl, rfl⟩ := Prod.mk.inj h
        exact ⟨[], items, rfl, by simp⟩
      · obtain ⟨pre, post, rfl, rfl⟩ := ih h
        exact ⟨i :: pre, post, rfl, by rw [itemsSize_cons, Nat.add_assoc]⟩
  · rintro ⟨pre, post, rfl, rfl⟩
    exact mem_layout_split off pre post item

/-! ## Labels and jumps of items -/

/-- The labels among items, in order. -/
def itemLabels (items : List Item) : List Nat :=
  items.filterMap fun item =>
    match item with
    | .label l => some l
    | _ => none

/-- The labels the jumps among items go to. -/
def itemTargets (items : List Item) : List Nat :=
  items.filterMap fun item =>
    match item with
    | .jump _ l => some l
    | _ => none

@[simp] theorem itemLabels_append (items items' : List Item) :
    itemLabels (items ++ items') = itemLabels items ++ itemLabels items' := by
  simp [itemLabels]

@[simp] theorem itemTargets_append (items items' : List Item) :
    itemTargets (items ++ items') = itemTargets items ++ itemTargets items' := by
  simp [itemTargets]

theorem mem_itemLabels {items : List Item} {l : Nat} :
    l ∈ itemLabels items ↔ Item.label l ∈ items := by
  unfold itemLabels
  rw [List.mem_filterMap]
  constructor
  · rintro ⟨item, hitem, hl⟩
    cases item <;> simp at hl
    subst hl
    exact hitem
  · exact fun h => ⟨_, h, rfl⟩

theorem mem_layout_of_mem {off : Nat} {items : List Item} {item : Item} (h : item ∈ items) :
    ∃ o, (o, item) ∈ layout off items := by
  obtain ⟨pre, post, rfl⟩ := List.append_of_mem h
  exact ⟨_, mem_layout_split off pre post item⟩

theorem mem_of_mem_layout {off o : Nat} {items : List Item} {item : Item}
    (h : (o, item) ∈ layout off items) : item ∈ items := by
  obtain ⟨pre, post, rfl, -⟩ := mem_layout_iff.mp h
  simp

/-! ## Reading and writing at offsets -/

/-- The address at an offset. -/
abbrev at' (code : Ptr) (o : Nat) : Ptr := code + BitVec.ofNat 64 o

/-- Writing one range of offsets leaves another as it was. -/
theorem read_write_offsets {mem : Mem} {code : Ptr} {bs : List Byte} {a b k : Nat}
    (h : a + bs.length ≤ b ∨ b + k ≤ a) (ha : a + bs.length < 2 ^ 64) (hb : b + k < 2 ^ 64) :
    readBytes (writeBytes mem (at' code a) bs) (at' code b) k = readBytes mem (at' code b) k := by
  cases k with
  | zero => rfl
  | succ k =>
    cases bs with
    | nil => rfl
    | cons x bs =>
      refine readBytes_writeBytes_apart _ _ _ _ _ ?_ (by omega)
      have hlen : 0 < (x :: bs).length := by simp
      generalize (x :: bs).length = n at *
      unfold Apart at'
      bv_omega

/-! ## The loop over the patches -/

/-- The effect of patching one jump. -/
def patchOne (target : Ptr) (mem : Mem) (p : Patch) : Mem := patchJumpOffset p.loc target mem

/-- The loop keeps the other patches and applies the matching ones in order. -/
theorem resolvePatches_eq (id : Nat) (target : Ptr) (ps : List Patch) (mem : Mem) :
    resolvePatches id target ps mem =
      (ps.filter fun p => p.labelId ≠ id,
        (ps.filter fun p => p.labelId = id).foldl (patchOne target) mem) := by
  induction ps generalizing mem with
  | nil => rfl
  | cons p ps ih =>
    by_cases hp : p.labelId = id
    · simp [resolvePatches, hp, ih, patchOne]
    · simp [resolvePatches, hp, ih]

/-- Patches that do not touch a range leave it as it was. -/
theorem read_patches_apart {target : Ptr} {ps : List Patch} {mem : Mem} {a : Ptr} {k : Nat}
    (hk : k ≤ 2 ^ 64) (h : ∀ p ∈ ps, Apart p.loc 4 a k) :
    readBytes (ps.foldl (patchOne target) mem) a k = readBytes mem a k := by
  induction ps generalizing mem with
  | nil => rfl
  | cons p ps ih =>
    rw [List.foldl_cons, ih fun p' hp' => h p' (by simp [hp'])]
    refine readBytes_writeBytes_apart _ _ _ _ _ ?_ hk
    simpa using h p (by simp)

theorem read_patchOne_same {target : Ptr} {mem : Mem} {p : Patch} :
    readBytes (patchOne target mem p) p.loc 4 = leBytes 4 (relTo p.loc target).toNat := by
  have h := readBytes_writeBytes_same mem p.loc (leBytes 4 (relTo p.loc target).toNat)
    (by simp)
  rwa [leBytes_length] at h

/-- A jump that is patched stays patched. -/
theorem read_patches_kept {target loc : Ptr} {ps : List Patch} {mem : Mem}
    (hmem : readBytes mem loc 4 = leBytes 4 (relTo loc target).toNat)
    (h : ∀ p ∈ ps, p.loc = loc ∨ Apart p.loc 4 loc 4) :
    readBytes (ps.foldl (patchOne target) mem) loc 4 =
      leBytes 4 (relTo loc target).toNat := by
  induction ps generalizing mem with
  | nil => exact hmem
  | cons p ps ih =>
    refine ih ?_ fun p' hp' => h p' (by simp [hp'])
    rcases h p (by simp) with rfl | hap
    · exact read_patchOne_same
    · refine (readBytes_writeBytes_apart _ _ _ _ _ (by simpa using hap) (by omega)).trans hmem

/-- Every matching jump is patched. -/
theorem read_patches_same {target : Ptr} {ps : List Patch} {mem : Mem} {p : Patch}
    (hp : p ∈ ps) (h : ∀ p' ∈ ps, p'.loc = p.loc ∨ Apart p'.loc 4 p.loc 4) :
    readBytes (ps.foldl (patchOne target) mem) p.loc 4 =
      leBytes 4 (relTo p.loc target).toNat := by
  induction ps generalizing mem with
  | nil => cases hp
  | cons q ps ih =>
    have hrest : ∀ p' ∈ ps, p'.loc = p.loc ∨ Apart p'.loc 4 p.loc 4 :=
      fun p' hp' => h p' (by simp [hp'])
    rw [List.foldl_cons]
    rcases List.mem_cons.mp hp with rfl | hp
    · exact read_patches_kept read_patchOne_same hrest
    · exact ih hp hrest

end TinyCompile.Jit
