import TinyCompile.Arena.Growth

set_option autoImplicit false

/-!
# Arena: temporary scopes

Whatever is allocated between `arena_temp_begin` and the matching `arena_temp_end`, and
however the blocks grow, the arena is rewound to where it was, provided it had a block.
-/

namespace TinyCompile.Arena

/-- `a->curr->offset`, where there is a block. -/
def Arena.currOffset (a : Arena) : Option Nat := a.blocks.head?.map (·.offset)

/-- What may happen in a temporary scope: allocations, and temporary scopes within. -/
inductive ScopeRun (page : PageSize) : Arena → Arena → Prop
  | done (a : Arena) : ScopeRun page a a
  | alloc {a a₁ a₂ : Arena} {mmap : Mmap page} {size align : Nat} {r : Option Nat}
      (hrun : arenaAllocAligned mmap size align a = .ok (r, a₁))
      (hrest : ScopeRun page a₁ a₂) : ScopeRun page a a₂
  | scope {a a₁ a₂ a₃ : Arena} {temp : ArenaPos} (hbegin : arenaTempBegin a = .ok temp)
      (hinner : ScopeRun page a a₁) (hend : arenaTempEnd temp a₁ = .ok a₂)
      (hrest : ScopeRun page a₂ a₃) : ScopeRun page a a₃

/-- The scope that began in `a` and has come to `a₁` ends with the arena as it was. -/
def Rewinds (a a₁ : Arena) : Prop :=
  ∃ temp a₂, arenaTempBegin a = .ok temp ∧ arenaTempEnd temp a₁ = .ok a₂ ∧
    a₂.curr = a.curr ∧ a₂.currOffset = a.currOffset ∧ arenaTotalUsed a₂ = arenaTotalUsed a

/-! ## Unwinding -/

theorem addr_ne_of_apart {b b' : ArenaBlock} (h : Apart b.addr b.size b'.addr b'.size)
    (hb : 0 < b.size) (hb' : 0 < b'.size) : b.addr ≠ b'.addr := by
  intro heq
  unfold Apart at h
  omega

attribute [local simp] unwind

/-- Unwinding stops at the block of the address. -/
theorem unwind_found (extra : List ArenaBlock) {b : ArenaBlock} {rest : List ArenaBlock}
    (h : WellMapped (extra ++ b :: rest)) :
    unwind (some b.addr) (extra ++ b :: rest) = .ok (some (b :: rest)) := by
  induction extra with
  | nil =>
    unfold unwind
    exact if_pos rfl
  | cons e extra ih =>
    have hb : b ∈ extra ++ b :: rest := List.mem_append_right _ (.head _)
    have hne : e.addr ≠ b.addr :=
      addr_ne_of_apart ((List.pairwise_cons.mp h.apart).1 b hb) (h.bounds e (.head _)).2.1
        (h.bounds b (.tail _ hb)).2.1
    have hmapped : e.mapped = true := h.mapped e (.head _)
    have ih := ih h.tail
    rw [List.cons_append]
    unfold unwind
    rw [if_neg (by simpa using hne), if_neg (by simp [hmapped])]
    cases hmore : extra ++ b :: rest with
    | nil => simp at hmore
    | cons c cs =>
      rw [hmore] at ih
      exact ih

/-- From no block on, nothing is found. -/
theorem unwind_none {blocks : List ArenaBlock} {found : Option (List ArenaBlock)}
    (h : unwind none blocks = .ok found) : found = none := by
  induction blocks with
  | nil => exact (Except.ok.inj h).symm
  | cons b blocks ih =>
    unfold unwind at h
    rw [if_neg nofun] at h
    split at h
    · cases h
    · cases blocks with
      | nil => exact (Except.ok.inj h).symm
      | cons c cs => exact ih h

theorem abandoned_ne_nil {blocks : List ArenaBlock} (h : blocks ≠ []) :
    abandoned blocks ≠ [] := by
  cases blocks with
  | nil => exact absurd rfl h
  | cons b blocks =>
    cases blocks with
    | nil => exact List.cons_ne_nil _ _
    | cons c cs => exact List.cons_ne_nil _ _

/-- The end of a scope takes the blocks in front of the saved one away. -/
theorem arenaTempEnd_found (extra : List ArenaBlock) {b : ArenaBlock} {rest : List ArenaBlock}
    (offset : Nat) (h : WellMapped (extra ++ b :: rest)) :
    arenaTempEnd ⟨some b.addr, offset⟩ ⟨extra ++ b :: rest⟩ =
      .ok ⟨{ b with offset := offset } :: rest⟩ := by
  have hmapped : b.mapped = true := h.of_append.mapped b (.head _)
  unfold arenaTempEnd
  rw [unwind_found extra h]
  show (if _ then _ else _ : Except Fault Arena) = _
  rw [if_neg (by simp [hmapped])]
  rfl

theorem arenaTempBegin_cons {b : ArenaBlock} {rest : List ArenaBlock} (h : b.mapped = true) :
    arenaTempBegin ⟨b :: rest⟩ = .ok ⟨some b.addr, b.offset⟩ := by
  unfold arenaTempBegin
  exact if_neg (by simp [h])

/-! ## Runs of a scope -/

/-- In a scope that begins with a block, blocks are put in front of it, and it may grow;
those behind it stay as they are. -/
theorem ScopeRun.chain {page : PageSize} {a a₁ : Arena} (hrun : ScopeRun page a a₁)
    {b : ArenaBlock} {rest : List ArenaBlock} (hmapped : WellMapped a.blocks)
    (hblocks : a.blocks = b :: rest) : WellMapped a₁.blocks ∧
      ∃ extra b', a₁.blocks = extra ++ b' :: rest ∧ b'.addr = b.addr := by
  induction hrun generalizing b rest with
  | done a => exact ⟨hmapped, [], b, hblocks, rfl⟩
  | alloc hrun _ ih =>
    have hmapped' := hmapped.alloc hrun
    obtain ⟨b', hblocks', haddr⟩ | ⟨new, hblocks'⟩ := alloc_chain hmapped hblocks hrun
    · obtain ⟨hend, extra, b'', heq, haddr'⟩ := ih hmapped' hblocks'
      exact ⟨hend, extra, b'', heq, haddr'.trans haddr⟩
    · obtain ⟨hend, extra, new', heq, -⟩ := ih hmapped' hblocks'
      exact ⟨hend, extra ++ [new'], b, by rw [heq, List.append_assoc]; rfl, rfl⟩
  | @scope a a₁ a₂ a₃ temp hbegin _ hend _ ihinner ihrest =>
    obtain ⟨blocks⟩ := a
    obtain rfl : blocks = b :: rest := hblocks
    cases hbegin.symm.trans (arenaTempBegin_cons (hmapped.mapped b (.head _)))
    obtain ⟨hmapped', extra, b', heq, haddr⟩ := ihinner hmapped rfl
    obtain ⟨blocks₁⟩ := a₁
    obtain rfl : blocks₁ = extra ++ b' :: rest := heq
    rw [← haddr] at hend
    cases hend.symm.trans (arenaTempEnd_found extra b.offset hmapped')
    obtain ⟨hend', extra', b'', heq', haddr'⟩ :=
      ihrest (hmapped'.of_append.setOffset b.offset) rfl
    exact ⟨hend', extra', b'', heq', haddr'.trans haddr⟩

/-- A scope rewinds the arena if and only if it begins with a block, or ends without one. -/
theorem rewinds_iff {page : PageSize} {a a₁ : Arena} (hmapped : WellMapped a.blocks)
    (hrun : ScopeRun page a a₁) : Rewinds a a₁ ↔ a.blocks ≠ [] ∨ a₁.blocks = [] := by
  obtain ⟨blocks⟩ := a
  obtain ⟨blocks₁⟩ := a₁
  cases blocks with
  | nil =>
    constructor
    · rintro ⟨temp, a₂, hbegin, hend, hcurr, -, -⟩
      cases hbegin
      refine .inr (Classical.byContradiction fun hne => ?_)
      unfold arenaTempEnd at hend
      cases hunwind : unwind none blocks₁ with
      | error stop =>
        rw [hunwind] at hend
        cases hend
      | ok found =>
        obtain rfl := unwind_none hunwind
        rw [hunwind] at hend
        cases hend
        have hleft := abandoned_ne_nil hne
        cases hblocks : abandoned blocks₁ with
        | nil => exact hleft hblocks
        | cons c cs => simp [Arena.curr, hblocks] at hcurr
    · rintro (hne | hnil)
      · exact absurd rfl hne
      · obtain rfl : blocks₁ = [] := hnil
        exact ⟨⟨none, 0⟩, ⟨[]⟩, rfl, rfl, rfl, rfl, rfl⟩
  | cons b rest =>
    refine ⟨fun _ => .inl (List.cons_ne_nil _ _), fun _ => ?_⟩
    obtain ⟨hmapped', extra, b', heq, haddr⟩ := hrun.chain hmapped rfl
    obtain rfl : blocks₁ = extra ++ b' :: rest := heq
    have hb : b.mapped = true := hmapped.mapped b (.head _)
    have hb' : b'.mapped = true := hmapped'.of_append.mapped b' (.head _)
    have hend := arenaTempEnd_found extra b.offset hmapped'
    rw [haddr] at hend
    refine ⟨_, _, arenaTempBegin_cons hb, hend, rfl, rfl, ?_⟩
    unfold arenaTotalUsed
    simp only [List.all_cons, List.foldl_cons, hb, hb']

/-! ## A scope that begins without a block -/

/-- What `arena_alloc_aligned` returns can be compared. -/
instance decEqResult (x y : Except Fault (Option Nat × Arena)) : Decidable (x = y) :=
  match x, y with
  | .ok a, .ok b => decidable_of_iff (a = b) ⟨congrArg Except.ok, Except.ok.inj⟩
  | .error e, .error f => decidable_of_iff (e = f) ⟨congrArg Except.error, Except.error.inj⟩
  | .ok _, .error _ => isFalse nofun
  | .error _, .ok _ => isFalse nofun

/-- A kernel that returns one address, where it can. -/
def mmapAt (page : PageSize) (base : Nat) : Mmap page where
  map := fun blocks _ length => if Granted page blocks base length then some base else none
  granted := fun blocks _ length base' h => by
    split at h
    · rename_i hgranted
      obtain rfl := Option.some.inj h
      exact hgranted
    · cases h

/-- Pages of 4096 bytes. -/
def smallPages : PageSize := ⟨4096, ⟨12, rfl⟩, by decide⟩

/-- The block of the first allocation. -/
def firstBlock : ArenaBlock := ⟨65536, 67112960, 32, true⟩

theorem arenaAlloc_first : arenaAlloc (mmapAt smallPages 65536) 8 ⟨[]⟩ =
    .ok (some 65560, ⟨[firstBlock]⟩) := rfl

theorem wellMapped_firstBlock : WellMapped [firstBlock] where
  mapped := by decide
  bounds := by decide
  apart := List.pairwise_singleton _ _

/-- With a block at its begin, a scope with an allocation rewinds. -/
theorem rewinds_iff_firstBlock : Rewinds ⟨[firstBlock]⟩ ⟨[{ firstBlock with offset := 40 }]⟩ ↔
    [firstBlock] ≠ [] ∨ [{ firstBlock with offset := 40 }] = [] := by
  have halloc : arenaAlloc (mmapAt smallPages 65536) 8 ⟨[firstBlock]⟩ =
      .ok (some 65568, ⟨[{ firstBlock with offset := 40 }]⟩) := by decide +kernel
  exact rewinds_iff wellMapped_firstBlock (.alloc halloc (.done _))

/-- A scope around the first allocation of an arena leaves its block and its offset behind. -/
theorem firstScope_kept : ¬ ∀ (page : PageSize) (a a₁ : Arena), WellMapped a.blocks →
    ScopeRun page a a₁ → Rewinds a a₁ := by
  intro h
  have hrun : ScopeRun smallPages ⟨[]⟩ ⟨[firstBlock]⟩ := .alloc arenaAlloc_first (.done _)
  obtain ⟨temp, a₂, hbegin, hend, hcurr, -⟩ := h smallPages _ _ wellMapped_nil hrun
  cases hbegin
  cases hend
  cases hcurr

end TinyCompile.Arena
