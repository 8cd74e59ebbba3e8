import TinyCompile.Jit.Layout
import TinyCompile.Jit.PlanCorrect

set_option autoImplicit false

/-!
# Jit: the invariant of the second pass

`Written` relates the items emitted so far to the memory, the label tables and the
patch list, which holds exactly the jumps to labels that are not defined yet.  One
lemma for each kind of item keeps it.
-/

namespace TinyCompile.Jit

open TinyCompile.Machine TinyCompile.X86 TinyCompile.Source TinyCompile.Ir

/-- The bytes of an item that never change: all but the displacement of a jump. -/
def Item.fixed : Item → List Byte
  | .code e => e.bytes
  | .jump c _ => jumpOpcode c
  | .label _ => []
  | .callSite _ => callSiteOpcode ++ leBytes 8 callPlaceholder.toNat

theorem Item.fixed_le (item : Item) : item.fixed.length ≤ item.size := by
  cases item <;> simp [Item.fixed, Item.size]

/-- The offset of the displacement of a jump at offset `o`. -/
abbrev dispOffset (o : Nat) (c : Option Cond) : Nat := o + (jumpOpcode c).length

/-- The items written from `code` on, in a context and a memory. -/
structure Written (code : Ptr) (items : List Item) (ctx : JITContext) (mem : Mem) : Prop where
  fixed : ∀ o item, (o, item) ∈ layout 0 items →
    readBytes mem (at' code o) item.fixed.length = item.fixed
  small : ∀ l, Item.label l ∈ items → l < maxLabels
  defined : ∀ l, ctx.labelDefined l = true ↔ Item.label l ∈ items
  offsets : ∀ o l, (o, Item.label l) ∈ layout 0 items → ctx.labelOffset l = at' code o
  resolved : ∀ o c l o', (o, Item.jump c l) ∈ layout 0 items →
    (o', Item.label l) ∈ layout 0 items →
    readBytes mem (at' code (dispOffset o c)) 4 =
      leBytes 4 (relTo (at' code (dispOffset o c)) (at' code o')).toNat
  waiting : ∀ o c l, (o, Item.jump c l) ∈ layout 0 items → Item.label l ∉ items →
    (⟨l, at' code (dispOffset o c)⟩ : Patch) ∈ ctx.patches
  patches : ∀ p ∈ ctx.patches, Item.label p.labelId ∉ items ∧
    ∃ o c, (o, Item.jump c p.labelId) ∈ layout 0 items ∧ p.loc = at' code (dispOffset o c)

/-- Items without jumps and labels, right behind a reset. -/
theorem written_start {code : Ptr} {items : List Item} {ctx : JITContext} {mem : Mem}
    (hplain : ∀ item ∈ items, ∃ e, item = .code e) (hdefined : ∀ l, ctx.labelDefined l = false)
    (hpatches : ctx.patches = [])
    (hfixed : ∀ o item, (o, item) ∈ layout 0 items →
      readBytes mem (at' code o) item.fixed.length = item.fixed) :
    Written code items ctx mem := by
  have hlabel : ∀ l, Item.label l ∉ items := by
    intro l hl
    obtain ⟨e, he⟩ := hplain _ hl
    cases he
  have hjump : ∀ o c l, (o, Item.jump c l) ∉ layout 0 items := by
    intro o c l hl
    obtain ⟨e, he⟩ := hplain _ (mem_of_mem_layout hl)
    cases he
  exact {
    fixed := hfixed
    small := fun l hl => absurd hl (hlabel l)
    defined := fun l => ⟨fun h => by simp [hdefined l] at h, fun h => absurd h (hlabel l)⟩
    offsets := fun o l hl => absurd (mem_of_mem_layout hl) (hlabel l)
    resolved := fun o c l o' hl => absurd hl (hjump o c l)
    waiting := fun o c l hl => absurd hl (hjump o c l)
    patches := by simp [hpatches] }

section

variable {code : Ptr} {items : List Item} {ctx ctx' : JITContext} {mem mem' : Mem}

/-- A displacement lies inside the items. -/
theorem disp_bounds {o l : Nat} {c : Option Cond} (h : (o, Item.jump c l) ∈ layout 0 items) :
    dispOffset o c + 4 ≤ itemsSize items := by
  have := (layout_bounds h).2
  simp only [Item.size, dispOffset] at *
  omega

/-- Only the bytes of the items and the label tables matter. -/
theorem Written.frame (h : Written code items ctx mem)
    (hmem : ∀ o k, o + k ≤ itemsSize items →
      readBytes mem' (at' code o) k = readBytes mem (at' code o) k)
    (hdefined : ctx'.labelDefined = ctx.labelDefined)
    (hoffset : ctx'.labelOffset = ctx.labelOffset) (hpatches : ctx'.patches = ctx.patches) :
    Written code items ctx' mem' where
  fixed := by
    intro o item hmem'
    have hbound := (layout_bounds hmem').2
    have hle := item.fixed_le
    rw [hmem o _ (by omega)]
    exact h.fixed o item hmem'
  small := h.small
  defined := by
    rw [hdefined]
    exact h.defined
  offsets := by
    rw [hoffset]
    exact h.offsets
  resolved := by
    intro o c l o' hj hl
    rw [hmem _ _ (disp_bounds hj)]
    exact h.resolved o c l o' hj hl
  waiting := by
    rw [hpatches]
    exact h.waiting
  patches := by
    rw [hpatches]
    exact h.patches

theorem mem_layout_snoc {o : Nat} {item item' : Item} :
    (o, item') ∈ layout 0 (items ++ [item]) ↔
      (o, item') ∈ layout 0 items ∨ (o = itemsSize items ∧ item' = item) := by
  rw [layout_append, List.mem_append, Nat.zero_add]
  simp [layout]

/-- Writing behind the items leaves their bytes. -/
theorem read_behind {bs : List Byte} {n : Nat} (hn : n + bs.length < 2 ^ 64)
    {o k : Nat} (hk : o + k ≤ n) :
    readBytes (writeBytes mem (at' code n) bs) (at' code o) k = readBytes mem (at' code o) k :=
  read_write_offsets (.inr hk) hn (by omega)

/-- An item without jump or label is written behind the others. -/
theorem Written.plain (h : Written code items ctx mem) (item : Item)
    (hjump : ∀ c l, item ≠ .jump c l) (hlabel : ∀ l, item ≠ .label l)
    (hfits : itemsSize items + item.fixed.length < 2 ^ 64) :
    Written code (items ++ [item]) ctx
      (writeBytes mem (at' code (itemsSize items)) item.fixed) := by
  have hframe : Written code items ctx
      (writeBytes mem (at' code (itemsSize items)) item.fixed) :=
    h.frame (fun o k hk => read_behind hfits hk) rfl rfl rfl
  have hlabels : ∀ l, Item.label l ∈ items ++ [item] ↔ Item.label l ∈ items := by
    intro l
    simp [(hlabel l).symm]
  have hlayout : ∀ {o l}, (o, Item.label l) ∈ layout 0 (items ++ [item]) →
      (o, Item.label l) ∈ layout 0 items := by
    intro o l hl
    rcases mem_layout_snoc.mp hl with hl | ⟨-, hl⟩
    · exact hl
    · exact absurd hl.symm (hlabel l)
  have hjumps : ∀ {o c l}, (o, Item.jump c l) ∈ layout 0 (items ++ [item]) →
      (o, Item.jump c l) ∈ layout 0 items := by
    intro o c l hj
    rcases mem_layout_snoc.mp hj with hj | ⟨-, hj⟩
    · exact hj
    · exact absurd hj.symm (hjump c l)
  exact {
    fixed := by
      intro o item' hi
      rcases mem_layout_snoc.mp hi with hi | ⟨rfl, rfl⟩
      · exact hframe.fixed o item' hi
      · exact readBytes_writeBytes_same _ _ _ (by omega)
    small := fun l hl => h.small l ((hlabels l).mp hl)
    defined := fun l => by rw [hlabels]; exact h.defined l
    offsets := fun o l hl => h.offsets o l (hlayout hl)
    resolved := fun o c l o' hj hl => hframe.resolved o c l o' (hjumps hj) (hlayout hl)
    waiting := fun o c l hj hl => h.waiting o c l (hjumps hj) fun hm => hl ((hlabels l).mpr hm)
    patches := by
      intro p hp
      obtain ⟨hno, o, c, hj, hloc⟩ := h.patches p hp
      exact ⟨fun hl => hno ((hlabels _).mp hl), o, c, mem_layout_snoc.mpr (.inl hj), hloc⟩ }

/-- A jump is written behind the items; `bs` is its displacement. -/
theorem Written.jump (h : Written code items ctx mem) {c : Option Cond} {l : Nat}
    {bs : List Byte} (hbs : bs.length = 4)
    (hfits : dispOffset (itemsSize items) c + 4 < 2 ^ 64)
    (hdefined : ctx'.labelDefined = ctx.labelDefined)
    (hoffset : ctx'.labelOffset = ctx.labelOffset)
    (hresolved : ∀ o', (o', Item.label l) ∈ layout 0 items →
      bs = leBytes 4 (relTo (at' code (dispOffset (itemsSize items) c)) (at' code o')).toNat)
    (hwaiting : Item.label l ∉ items →
      (⟨l, at' code (dispOffset (itemsSize items) c)⟩ : Patch) ∈ ctx'.patches)
    (hold : ∀ p ∈ ctx.patches, p ∈ ctx'.patches)
    (hnew : ∀ p ∈ ctx'.patches, p ∈ ctx.patches ∨ (Item.label l ∉ items ∧
      p = ⟨l, at' code (dispOffset (itemsSize items) c)⟩)) :
    Written code (items ++ [.jump c l]) ctx'
      (writeBytes mem (at' code (itemsSize items)) (jumpOpcode c ++ bs)) := by
  set n := itemsSize items with hn
  set mem' := writeBytes mem (at' code n) (jumpOpcode c ++ bs) with hmem'
  have hfits' : n + (jumpOpcode c).length + 4 < 2 ^ 64 := hfits
  have hlen : (jumpOpcode c ++ bs).length = (jumpOpcode c).length + 4 := by simp [hbs]
  have hsame : ∀ o k, o + k ≤ n → readBytes mem' (at' code o) k = readBytes mem (at' code o) k :=
    fun o k hk => read_behind (by rw [hlen]; omega) hk
  -- the new bytes
  have hall : readBytes mem' (at' code n) ((jumpOpcode c).length + 4) = jumpOpcode c ++ bs := by
    rw [← hlen]
    exact readBytes_writeBytes_same _ _ _ (by omega)
  rw [readBytes_add] at hall
  obtain ⟨hop, hdisp⟩ := List.append_inj hall (by simp)
  rw [add_ofNat_add] at hdisp
  have hlabels : ∀ l', Item.label l' ∈ items ++ [Item.jump c l] ↔ Item.label l' ∈ items := by
    intro l'
    simp
  have hlayout : ∀ {o l'}, (o, Item.label l') ∈ layout 0 (items ++ [Item.jump c l]) →
      (o, Item.label l') ∈ layout 0 items := by
    intro o l' hl
    rcases mem_layout_snoc.mp hl with hl | ⟨-, hl⟩
    · exact hl
    · cases hl
  exact {
    fixed := by
      intro o item hi
      rcases mem_layout_snoc.mp hi with hi | ⟨rfl, rfl⟩
      · have hbound := (layout_bounds hi).2
        have hle := item.fixed_le
        rw [hsame o _ (by omega)]
        exact h.fixed o item hi
      · exact hop
    small := fun l' hl => h.small l' ((hlabels l').mp hl)
    defined := fun l' => by rw [hlabels, hdefined]; exact h.defined l'
    offsets := fun o l' hl => by rw [hoffset]; exact h.offsets o l' (hlayout hl)
    resolved := by
      intro o c' l' o' hj hl
      rcases mem_layout_snoc.mp hj with hj | ⟨rfl, heq⟩
      · rw [hsame _ _ (disp_bounds hj)]
        exact h.resolved o c' l' o' hj (hlayout hl)
      · obtain ⟨rfl, rfl⟩ := Item.jump.inj heq
        exact hdisp.trans (hresolved o' (hlayout hl))
    waiting := by
      intro o c' l' hj hl
      have hl' : Item.label l' ∉ items := fun hm => hl ((hlabels l').mpr hm)
      rcases mem_layout_snoc.mp hj with hj | ⟨rfl, heq⟩
      · exact hold _ (h.waiting o c' l' hj hl')
      · obtain ⟨rfl, rfl⟩ := Item.jump.inj heq
        exact hwaiting hl'
    patches := by
      intro p hp
      rcases hnew p hp with hp | ⟨hno, rfl⟩
      · obtain ⟨hno, o, c', hj, hloc⟩ := h.patches p hp
        exact ⟨fun hl => hno ((hlabels _).mp hl), o, c', mem_layout_snoc.mpr (.inl hj), hloc⟩
      · exact ⟨fun hl => hno ((hlabels _).mp hl), n, c, mem_layout_snoc.mpr (.inr ⟨rfl, rfl⟩),
          rfl⟩ }

/-- Two displacements are the same one or apart. -/
theorem disp_apart {o o' l l' : Nat} {c c' : Option Cond}
    (h : (o, Item.jump c l) ∈ layout 0 items) (h' : (o', Item.jump c' l') ∈ layout 0 items) :
    (dispOffset o c = dispOffset o' c' ∧ l = l') ∨ dispOffset o c + 4 ≤ dispOffset o' c' ∨
      dispOffset o' c' + 4 ≤ dispOffset o c := by
  rcases layout_apart h h' with ⟨rfl, heq⟩ | hle | hle
  · obtain ⟨rfl, rfl⟩ := Item.jump.inj heq
    exact .inl ⟨rfl, rfl⟩
  · simp only [Item.size, dispOffset] at *
    omega
  · simp only [Item.size, dispOffset] at *
    omega

theorem apart_at {a b n k : Nat} (h : a + n ≤ b ∨ b + k ≤ a) (hn : 0 < n) (hk : 0 < k)
    (ha : a + n < 2 ^ 64) (hb : b + k < 2 ^ 64) : Apart (at' code a) n (at' code b) k := by
  unfold Apart at'
  bv_omega

/-- A label is defined behind the items, and the jumps that wait for it are patched. -/
theorem Written.label (h : Written code items ctx mem) {l : Nat} (hl : l < maxLabels)
    (hno : Item.label l ∉ items) (hfits : itemsSize items < 2 ^ 64) :
    Written code (items ++ [.label l])
      { ctx with
        labelDefined := Function.update ctx.labelDefined l true
        labelOffset := Function.update ctx.labelOffset l (at' code (itemsSize items))
        patches := (resolvePatches l (at' code (itemsSize items)) ctx.patches mem).1 }
      (resolvePatches l (at' code (itemsSize items)) ctx.patches mem).2 := by
  rw [resolvePatches_eq]
  set n := itemsSize items
  set mem' := (ctx.patches.filter fun p => p.labelId = l).foldl (patchOne (at' code n)) mem
    with hmem'
  -- what is patched are displacements of jumps to the label
  have hpatch : ∀ p ∈ ctx.patches.filter fun p => p.labelId = l,
      ∃ o c, (o, Item.jump c l) ∈ layout 0 items ∧ p.loc = at' code (dispOffset o c) := by
    intro p hp
    obtain ⟨hmem, hpl⟩ := List.mem_filter.mp hp
    have hpl' : p.labelId = l := by simpa using hpl
    rw [← hpl']
    exact (h.patches p hmem).2
  have hkept : ∀ o k, 0 < k → o + k ≤ n →
      (∀ o' c, (o', Item.jump c l) ∈ layout 0 items →
        dispOffset o' c + 4 ≤ o ∨ o + k ≤ dispOffset o' c) →
      readBytes mem' (at' code o) k = readBytes mem (at' code o) k := by
    intro o k hk hbound hdisj
    refine read_patches_apart (by omega) fun p hp => ?_
    obtain ⟨o', c, hj, hloc⟩ := hpatch p hp
    have hb := disp_bounds hj
    rw [hloc]
    exact apart_at (hdisj o' c hj) (by omega) hk (by omega) (by omega)
  have hjumps : ∀ {o c l'}, (o, Item.jump c l') ∈ layout 0 (items ++ [Item.label l]) →
      (o, Item.jump c l') ∈ layout 0 items := by
    intro o c l' hj
    rcases mem_layout_snoc.mp hj with hj | ⟨-, hj⟩
    · exact hj
    · cases hj
  exact {
    fixed := by
      intro o item hi
      rcases mem_layout_snoc.mp hi with hi | ⟨rfl, rfl⟩
      · by_cases hempty : item.fixed = []
        · rw [hempty]
          rfl
        · have hbound := (layout_bounds hi).2
          have hle := item.fixed_le
          have hpos := List.length_pos_iff.mpr hempty
          rw [hkept o _ hpos (by omega) ?_]
          · exact h.fixed o item hi
          · intro o' c hj
            rcases layout_apart hj hi with ⟨rfl, rfl⟩ | hlt | hlt
            · simp only [Item.fixed, dispOffset]
              omega
            · simp only [Item.size, dispOffset] at *
              omega
            · simp only [dispOffset]
              omega
      · rfl
    small := by
      intro l' hl'
      rcases List.mem_append.mp hl' with hl' | hl'
      · exact h.small l' hl'
      · obtain rfl : l' = l := by simpa using hl'
        exact hl
    defined := by
      intro l'
      by_cases hll : l' = l
      · simp [hll]
      · simp [hll, h.defined l']
    offsets := by
      intro o l' hout
      rcases mem_layout_snoc.mp hout with ho | ⟨rfl, heq⟩
      · have hll : l' ≠ l := fun hll => hno (hll ▸ mem_of_mem_layout ho)
        simp only [Function.update_of_ne hll]
        exact h.offsets o l' ho
      · rw [Item.label.inj heq]
        exact Function.update_self ..
    resolved := by
      intro o c l' o' hjout hout
      have hj := hjumps hjout
      have hb := disp_bounds hj
      rcases mem_layout_snoc.mp hout with ho | ⟨rfl, heq⟩
      · -- a jump to an earlier label is not touched
        have hll : l' ≠ l := fun hll => hno (hll ▸ mem_of_mem_layout ho)
        rw [hkept _ 4 (by omega) hb ?_]
        · exact h.resolved o c l' o' hj ho
        · intro o'' c' hj'
          rcases disp_apart hj' hj with ⟨-, heq⟩ | hlt
          · exact absurd heq.symm hll
          · omega
      · -- the jump was waiting, so one of the patches is its own
        rw [Item.label.inj heq] at hj
        have hwait := h.waiting o c l hj hno
        refine read_patches_same (List.mem_filter.mpr ⟨hwait, by simp⟩) fun p hp => ?_
        obtain ⟨o'', c', hj', hloc⟩ := hpatch p hp
        have hb' := disp_bounds hj'
        rw [hloc]
        rcases disp_apart hj' hj with ⟨heq, -⟩ | hlt
        · exact .inl (by rw [heq])
        · exact .inr (apart_at hlt (by omega) (by omega) (by omega) (by omega))
    waiting := by
      intro o c l' hj hl'
      have hll : l' ≠ l := by
        rintro rfl
        exact hl' (by simp)
      have hl'' : Item.label l' ∉ items := fun hm => hl' (List.mem_append_left _ hm)
      exact List.mem_filter.mpr ⟨h.waiting o c l' (hjumps hj) hl'', by simpa using hll⟩
    patches := by
      intro p hp
      obtain ⟨hp, hpl⟩ := List.mem_filter.mp hp
      obtain ⟨hpno, o, c, hj, hloc⟩ := h.patches p hp
      refine ⟨?_, o, c, mem_layout_snoc.mpr (.inl hj), hloc⟩
      intro hm
      rcases List.mem_append.mp hm with hm | hm
      · exact hpno hm
      · obtain heq : p.labelId = l := by simpa using hm
        simp [heq] at hpl }

end

end TinyCompile.Jit
