import TinyCompile.Arena.Scopes

set_option autoImplicit false

/-!
# Arena: allocations that are still in use

The arena beside the allocations made from it: an allocation is released by the end of the
scope it was made in, or by a reset.  Those that are not released lie below the offsets of
their blocks, so that what is allocated next has no byte in common with them.
-/

namespace TinyCompile.Arena

/-! ## The arena and its users -/

/-- Memory that was returned by `arena_alloc_aligned`. -/
structure Allocation where
  ptr : Nat
  size : Nat
  deriving DecidableEq, Repr

/-- A temporary scope that has begun: the saved position, and those of the allocations made
before it that are not released. -/
structure Scope where
  pos : ArenaPos
  live : List Allocation
  deriving DecidableEq, Repr

/-- The arena, the allocations that are not released, and the open scopes, innermost first. -/
structure State where
  arena : Arena
  live : List Allocation
  scopes : List Scope
  deriving DecidableEq, Repr

/-- The calls; the kernel may behave differently at each. -/
inductive Op (page : PageSize) where
  | alloc (mmap : Mmap page) (size align : Nat)
  | tempBegin
  | tempEnd
  | reset

section

variable {page : PageSize}

/-- One call, with the pointer that it returns. -/
def step (s : State) : Op page → Except Fault (Option Nat × State)
  | .alloc mmap size align => do
      let (r, arena) ← arenaAllocAligned mmap size align s.arena
      match r with
      | none => return (none, { s with arena := arena })
      | some ptr => return (some ptr, { s with arena := arena, live := ⟨ptr, size⟩ :: s.live })
  | .tempBegin => do
      let pos ← arenaTempBegin s.arena
      return (none, { s with scopes := ⟨pos, s.live⟩ :: s.scopes })
  | .tempEnd =>
      match s.scopes with
      | [] => return (none, s)
      | scope :: scopes => do
          let arena ← arenaTempEnd scope.pos s.arena
          return (none, ⟨arena, scope.live, scopes⟩)
  | .reset => do
      let arena ← arenaReset s.arena
      return (none, ⟨arena, [], s.scopes.map fun scope => { scope with live := [] }⟩)

/-- The block in which `arena_alloc_aligned` looks for room. -/
def IsCurrent (mmap : Mmap page) (size : Nat) (s : State) (b : ArenaBlock) : Prop :=
  ∃ rest, arenaFirstBlock mmap size s.arena = some (b :: rest)

/-- A proper call: a power of two for the alignment, a size that does not wrap, and an end
for each begin. -/
def Proper (s : State) : Op page → Prop
  | .alloc mmap size align =>
      align.isPowerOfTwo ∧ align < 2 ^ 64 ∧ size < 2 ^ 64 ∧
        ∀ b, IsCurrent mmap size s b → b.offset + paddingAt b align + size < 2 ^ 64
  | .tempBegin => True
  | .tempEnd => s.scopes ≠ []
  | .reset => True

/-- A call that the arena is up to: the length of a new block does not wrap, and the saved
block is still there, or it is not and there is no block to unmap. -/
def Harmless (s : State) : Op page → Prop
  | .alloc mmap size align =>
      ∀ b, IsCurrent mmap size s b →
        HasRoom size align b ∨ size + align + sizeofArenaBlock < 2 ^ 64
  | .tempEnd =>
      ∀ scope ∈ s.scopes.head?,
        (∀ b ∈ s.arena.blocks, some b.addr = scope.pos.block → scope.pos.offset ≤ b.size) ∧
          ((∀ b ∈ s.arena.blocks, some b.addr ≠ scope.pos.block) → s.arena.blocks.length ≤ 1)
  | _ => True

/-- Every run of proper calls that meet a condition. -/
inductive ArenaRun (page : PageSize) (meets : State → Op page → Prop) : State → Prop
  | init : ArenaRun page meets ⟨⟨[]⟩, [], []⟩
  | step {s s' : State} {op : Op page} {r : Option Nat} (hrun : ArenaRun page meets s)
      (hproper : Proper s op) (hmeets : meets s op) (hstep : step s op = .ok (r, s')) :
      ArenaRun page meets s'

/-- Memory as requested: aligned, in a block behind its header, and apart from all that is
not released. -/
structure Placed (live : List Allocation) (blocks : List ArenaBlock) (size align ptr : Nat) :
    Prop where
  aligned : ptr % align = 0
  inside : ∃ b ∈ blocks, b.addr + sizeofArenaBlock ≤ ptr ∧ ptr + size ≤ b.addr + b.size
  apart : ∀ x ∈ live, Apart ptr size x.ptr x.size

/-- What a call returns. -/
def Op.Returns (op : Op page) (s s' : State) (r : Option Nat) : Prop :=
  match op with
  | .alloc _ size align => ∀ ptr, r = some ptr → Placed s.live s'.arena.blocks size align ptr
  | _ => r = none

/-- The offsets are within the blocks, and each proper call that meets the condition returns
as it should. -/
structure Safe (page : PageSize) (meets : State → Op page → Prop) (s : State) : Prop where
  offsets : ∀ b ∈ s.arena.blocks, b.offset ≤ b.size
  returns : ∀ op, Proper s op → meets s op →
    ∃ r s', step s op = .ok (r, s') ∧ op.Returns s s' r

/-! ## Where the allocations are -/

/-- Every allocation is in a block, behind its header and below its offset. -/
def Below (blocks : List ArenaBlock) (live : List Allocation) : Prop :=
  ∀ x ∈ live, ∃ b ∈ blocks,
    b.addr + sizeofArenaBlock ≤ x.ptr ∧ x.ptr + x.size ≤ b.addr + b.offset

/-- So are those of a scope, once its position is restored; or a reset has released them. -/
def Holds : List ArenaBlock → List Allocation → List Scope → Prop
  | blocks, live, [] => Below blocks live
  | blocks, live, scope :: scopes =>
      Below blocks live ∧
        (scope.live = [] ∧ (∀ outer ∈ scopes, outer.live = []) ∨
          ∃ extra b rest, blocks = extra ++ b :: rest ∧ scope.pos.block = some b.addr ∧
            scope.pos.offset ≤ b.offset ∧
            Holds ({ b with offset := scope.pos.offset } :: rest) scope.live scopes)

theorem Holds.below {blocks : List ArenaBlock} {live : List Allocation} {scopes : List Scope}
    (h : Holds blocks live scopes) : Below blocks live := by
  cases scopes with
  | nil => exact h
  | cons _ _ => exact h.1

theorem holds_nil {blocks : List ArenaBlock} {scopes : List Scope}
    (h : ∀ scope ∈ scopes, scope.live = []) : Holds blocks [] scopes := by
  cases scopes with
  | nil => exact nofun
  | cons scope scopes =>
    exact ⟨nofun, .inl ⟨h scope (.head _), fun outer houter => h outer (.tail _ houter)⟩⟩

/-- Without a block nothing is allocated. -/
theorem Holds.empty {live : List Allocation} {scopes : List Scope} (h : Holds [] live scopes) :
    live = [] ∧ ∀ scope ∈ scopes, scope.live = [] := by
  have hlive : live = [] := by
    cases live with
    | nil => rfl
    | cons x xs =>
      obtain ⟨b, hb, -⟩ := h.below x (.head _)
      cases hb
  refine ⟨hlive, ?_⟩
  cases scopes with
  | nil => exact nofun
  | cons scope scopes =>
    obtain ⟨-, ⟨hscope, houter⟩ | ⟨extra, b, rest, heq, -⟩⟩ := h
    · exact List.forall_mem_cons.mpr ⟨hscope, houter⟩
    · simp at heq

theorem Holds.add {blocks : List ArenaBlock} {live : List Allocation} {scopes : List Scope}
    (h : Holds blocks live scopes) {x : Allocation} (hx : Below blocks [x]) :
    Holds blocks (x :: live) scopes := by
  have hbelow : Below blocks (x :: live) :=
    List.forall_mem_cons.mpr ⟨hx x (.head _), h.below⟩
  cases scopes with
  | nil => exact hbelow
  | cons _ _ => exact ⟨hbelow, h.2⟩

/-- The blocks have grown: a new one in front, or more of the current one in use. -/
inductive Grown : List ArenaBlock → List ArenaBlock → Prop
  | new (b : ArenaBlock) (blocks : List ArenaBlock) : Grown blocks (b :: blocks)
  | more {b b' : ArenaBlock} (rest : List ArenaBlock) (haddr : b'.addr = b.addr)
      (hoffset : b.offset ≤ b'.offset) : Grown (b :: rest) (b' :: rest)

theorem Below.grown {blocks blocks' : List ArenaBlock} {live : List Allocation}
    (h : Below blocks live) (hgrown : Grown blocks blocks') : Below blocks' live := by
  intro x hx
  obtain ⟨c, hc, hlo, hhi⟩ := h x hx
  cases hgrown with
  | new b _ => exact ⟨c, .tail _ hc, hlo, hhi⟩
  | @more b b' rest haddr hoffset =>
    rcases List.mem_cons.mp hc with rfl | hc
    · refine ⟨b', .head _, ?_, ?_⟩ <;> omega
    · exact ⟨c, .tail _ hc, hlo, hhi⟩

theorem Holds.grown {blocks blocks' : List ArenaBlock} {live : List Allocation}
    {scopes : List Scope} (h : Holds blocks live scopes) (hgrown : Grown blocks blocks') :
    Holds blocks' live scopes := by
  induction scopes generalizing blocks blocks' live with
  | nil => exact Below.grown h hgrown
  | cons scope scopes ih =>
    obtain ⟨hbelow, hnone | ⟨extra, b, rest, rfl, hblock, hoffset, hinner⟩⟩ := h
    · exact ⟨hbelow.grown hgrown, .inl hnone⟩
    · refine ⟨hbelow.grown hgrown, .inr ?_⟩
      generalize hblocks : extra ++ b :: rest = blocks at hgrown
      cases hgrown with
      | new new _ =>
        exact ⟨new :: extra, b, rest, by rw [← hblocks]; rfl, hblock, hoffset, hinner⟩
      | @more c c' tail haddr hmore =>
        cases extra with
        | nil =>
          cases hblocks
          refine ⟨[], c', rest, rfl, hblock.trans (congrArg some haddr.symm),
            Nat.le_trans hoffset hmore, ?_⟩
          exact ih hinner (.more _ haddr (Nat.le_refl _))
        | cons e extra =>
          cases hblocks
          exact ⟨c' :: extra, b, rest, rfl, hblock, hoffset, hinner⟩

/-! ## Allocation -/

/-- The blocks are in use behind their headers, up to their offsets. -/
def Filled (blocks : List ArenaBlock) : Prop :=
  ∀ b ∈ blocks, sizeofArenaBlock ≤ b.offset ∧ b.offset ≤ b.size

theorem growthLength_spec (page : PageSize) {size align : Nat}
    (h : size + align + sizeofArenaBlock < 2 ^ 64) :
    growthLength page size align = 0 ∨
      size + align + sizeofArenaBlock ≤ growthLength page size align := by
  unfold sizeofArenaBlock at h
  have hneeded : wrap (size + align) = size + align := wrap_of_lt (by omega)
  have hnext : size + align ≤ nextSize size align ∧
      nextSize size align + sizeofArenaBlock < 2 ^ 64 := by
    unfold nextSize sizeofArenaBlock memarenaDefaultSize
    simp only [hneeded]
    split <;> omega
  unfold growthLength
  rw [wrap_of_lt hnext.2]
  rcases alignToPage_spec page hnext.2 with hzero | hle
  · exact .inl hzero
  · exact .inr (by omega)

/-- A first block that is created has room for its header. -/
theorem Filled.first {mmap : Mmap page} {size : Nat} (align : Nat) {a : Arena}
    {blocks : List ArenaBlock} (h : Filled a.blocks)
    (hfirst : arenaFirstBlock mmap size a = some blocks)
    (hsize : ∀ b rest, blocks = b :: rest → b.offset + paddingAt b align + size < 2 ^ 64) :
    Filled blocks := by
  unfold arenaFirstBlock at hfirst
  split at hfirst
  · obtain ⟨base, hgranted, rfl | ⟨prev, rest, hcons, -⟩⟩ := arenaCreateBlock_cases hfirst
    · have hfits := hsize _ _ rfl
      refine List.forall_mem_cons.mpr ⟨⟨Nat.le_refl _, ?_⟩, nofun⟩
      generalize hcapacity :
        (if size > memarenaDefaultSize then size else memarenaDefaultSize) = capacity
        at hgranted ⊢
      have hlt : capacity + sizeofArenaBlock < 2 ^ 64 := by
        unfold memarenaDefaultSize at hcapacity
        unfold sizeofArenaBlock at hfits ⊢
        simp only at hfits
        split at hcapacity <;> omega
      have hpos := hgranted.lengthPos
      rw [wrap_of_lt hlt] at hpos ⊢
      show sizeofArenaBlock ≤ alignToPage page (capacity + sizeofArenaBlock)
      rcases alignToPage_spec page hlt with hzero | hle <;> omega
    · cases hcons
  · rename_i hcons
    obtain rfl := Option.some.inj hfirst
    exact h

section

variable {blocks rest : List ArenaBlock} {block curr : ArenaBlock} {tail : List ArenaBlock}
  {size align padding : Nat}

/-- The block for an allocation has the room. -/
theorem BlockFor.fits (h : BlockFor page size align blocks block rest padding)
    (hblocks : blocks = curr :: tail) (hmapped : WellMapped blocks) (hfilled : Filled blocks)
    (hsize : size ≠ 0) (hpow : align.isPowerOfTwo) (halign : align < 2 ^ 64)
    (hproper : curr.offset + paddingAt curr align + size < 2 ^ 64)
    (hharmless : HasRoom size align curr ∨ size + align + sizeofArenaBlock < 2 ^ 64) :
    Filled (block :: rest) ∧ block.offset + padding + size ≤ block.size ∧
      (block.addr + block.offset + padding) % align = 0 := by
  have hbounds := h.wellMapped hmapped |>.bounds block (.head _)
  cases h with
  | current hroom =>
    obtain ⟨rfl, rfl⟩ := List.cons.inj hblocks
    unfold HasRoom at hroom
    rw [wrap_of_lt (n := block.offset + paddingAt block align) (by omega), wrap_of_lt hproper]
      at hroom
    have haligned := (paddingAt_spec block hpow halign).2
    rw [wrap_of_lt (by omega)] at haligned
    exact ⟨hfilled, hroom, haligned⟩
  | @new curr' tail' base hfull hgranted hbase =>
    obtain ⟨rfl, rfl⟩ := List.cons.inj hblocks
    have hlength := growthLength_spec page (hharmless.resolve_left hfull)
    have hpos := hgranted.lengthPos
    have hend := hgranted.fits
    obtain ⟨hpadding, haligned⟩ :=
      paddingAt_spec ⟨base, growthLength page size align, sizeofArenaBlock, true⟩ hpow halign
    unfold sizeofArenaBlock at *
    simp only at *
    rw [wrap_of_lt (by omega)] at haligned
    refine ⟨List.forall_mem_cons.mpr ⟨⟨Nat.le_refl _, ?_⟩, hfilled⟩, ?_, haligned⟩
    · show 24 ≤ growthLength page size align
      omega
    · omega
  | @extended curr' tail' hfull hgranted =>
    obtain ⟨rfl, rfl⟩ := List.cons.inj hblocks
    have hlength := growthLength_spec page (hharmless.resolve_left hfull)
    have hpos := hgranted.lengthPos
    obtain ⟨hend, hsum, -⟩ := hmapped.extend hgranted
    obtain ⟨hlo, hhi⟩ := hfilled curr' (.head _)
    obtain ⟨hpadding, haligned⟩ := paddingAt_spec curr' hpow halign
    rw [wrap_of_lt (by omega)] at haligned
    rw [hsum]
    refine ⟨List.forall_mem_cons.mpr ⟨⟨hlo, ?_⟩, fun b hb => hfilled b (.tail _ hb)⟩, ?_,
      haligned⟩
    · show curr'.offset ≤ curr'.size + growthLength page size align
      omega
    · show curr'.offset + paddingAt curr' align + size ≤
        curr'.size + growthLength page size align
      omega

/-- What lies below the offsets has no byte in common with the allocation. -/
theorem BlockFor.apart (h : BlockFor page size align blocks block rest padding)
    (hmapped : WellMapped blocks) (hfilled : Filled (block :: rest))
    (hfits : block.offset + padding + size ≤ block.size) {live : List Allocation}
    (hbelow : Below blocks live) :
    ∀ x ∈ live, Apart (block.addr + block.offset + padding) size x.ptr x.size := by
  intro x hx
  obtain ⟨b, hb, hlo, hhi⟩ := hbelow x hx
  have hothers := (List.pairwise_cons.mp (h.wellMapped hmapped).apart).1
  have hrest : b ∈ rest → Apart (block.addr + block.offset + padding) size x.ptr x.size := by
    intro hb
    have hapart := hothers b hb
    have hoffset := (hfilled b (.tail _ hb)).2
    unfold Apart at hapart ⊢
    omega
  obtain ⟨curr, rest', rfl, ⟨rfl, haddr, hoffset⟩ | rfl⟩ := h.chain
  · rcases List.mem_cons.mp hb with rfl | hb
    · unfold Apart
      omega
    · exact hrest hb
  · exact hrest hb

/-- No word wraps in an allocation that fits. -/
theorem take_of_fits (hsize : size ≠ 0) (haddr : 0 < block.addr)
    (hend : block.addr + block.size ≤ 2 ^ 64)
    (hfits : block.offset + padding + size ≤ block.size) :
    take block rest padding size = (some (block.addr + block.offset + padding),
      ⟨{ block with offset := block.offset + padding + size } :: rest⟩) := by
  unfold take
  simp only
  rw [wrap_of_lt (n := block.offset + padding) (by omega), wrap_of_lt (by omega),
    wrap_of_lt (by omega), Nat.add_assoc block.addr]

end

/-! ## The invariant -/

/-- The blocks are mapped and filled, the saved offsets are behind a header, and the
allocations that are not released are below the offsets. -/
structure Sound (s : State) : Prop where
  mapped : WellMapped s.arena.blocks
  filled : Filled s.arena.blocks
  saved : ∀ scope ∈ s.scopes, scope.pos.block ≠ none → sizeofArenaBlock ≤ scope.pos.offset
  holds : Holds s.arena.blocks s.live s.scopes

theorem sound_init : Sound ⟨⟨[]⟩, [], []⟩ := ⟨wellMapped_nil, nofun, nofun, nofun⟩

theorem arenaFirstBlock_grown {mmap : Mmap page} {size : Nat} {a : Arena}
    {blocks : List ArenaBlock} (h : arenaFirstBlock mmap size a = some blocks) :
    blocks = a.blocks ∨ Grown a.blocks blocks := by
  unfold arenaFirstBlock at h
  split at h
  · rename_i hnil
    obtain ⟨base, -, rfl | ⟨prev, rest, hcons, -⟩⟩ := arenaCreateBlock_cases h
    · rw [hnil]
      exact .inr (.new _ _)
    · cases hcons
  · exact .inl (Option.some.inj h).symm

/-- Allocation; what is returned ends at the offset of the current block. -/
theorem Sound.alloc {s : State} (h : Sound s) {mmap : Mmap page} {size align : Nat}
    (hproper : Proper s (.alloc mmap size align))
    (hharmless : Harmless s (.alloc mmap size align)) :
    ∃ r s', step s (.alloc mmap size align) = .ok (r, s') ∧ Sound s' ∧
      (Op.alloc mmap size align).Returns s s' r ∧ ∀ ptr, r = some ptr →
        ∃ b rest, s'.arena.blocks = b :: rest ∧ b.addr + b.offset = ptr + size := by
  obtain ⟨hpow, halign, -, hproper⟩ := hproper
  -- the invariant, once there is a block
  have hfirst' : ∀ {blocks}, arenaFirstBlock mmap size s.arena = some blocks →
      WellMapped blocks ∧ Filled blocks ∧ Holds blocks s.live s.scopes := by
    intro blocks hfirst
    refine ⟨h.mapped.first hfirst, h.filled.first align hfirst fun b rest heq => ?_, ?_⟩
    · exact hproper b ⟨rest, heq ▸ hfirst⟩
    · rcases arenaFirstBlock_grown hfirst with rfl | hgrown
      · exact h.holds
      · exact h.holds.grown hgrown
  obtain ⟨r, a', hrun, hcases⟩ := arenaAllocAligned_cases mmap size align h.mapped
  simp only [step, hrun]
  obtain ⟨rfl, hnone⟩ | ⟨hsize, -, blocks, block, rest, padding, hfirst, hfor, htake⟩ := hcases
  · refine ⟨none, { s with arena := a' }, rfl, ?_, nofun, nofun⟩
    rcases hnone with rfl | hfirst
    · exact h
    · obtain ⟨hmapped, hfilled, hholds⟩ := hfirst' hfirst
      exact ⟨hmapped, hfilled, h.saved, hholds⟩
  · obtain ⟨hmapped, hfilled, hholds⟩ := hfirst' hfirst
    obtain ⟨curr, tail, hblocks, hchain⟩ := hfor.chain
    have hcurr : IsCurrent mmap size s curr := ⟨tail, hblocks ▸ hfirst⟩
    obtain ⟨hfilled', hfits, haligned⟩ := hfor.fits hblocks hmapped hfilled hsize hpow halign
      (hproper curr hcurr) (hharmless curr hcurr)
    obtain ⟨haddr, -, hend⟩ := (hfor.wellMapped hmapped).bounds block (.head _)
    rw [take_of_fits hsize haddr hend hfits] at htake
    cases htake
    have hheader := (hfilled' block (.head _)).1
    refine ⟨_, _, rfl, ⟨?_, ?_, h.saved, ?_⟩, ?_, ?_⟩
    · exact (hfor.wellMapped hmapped).setOffset _
    · refine List.forall_mem_cons.mpr ⟨⟨?_, hfits⟩, fun b hb => hfilled' b (.tail _ hb)⟩
      show sizeofArenaBlock ≤ block.offset + padding + size
      omega
    · have hgrown : Grown blocks
          ({ block with offset := block.offset + padding + size } :: rest) := by
        obtain ⟨rfl, haddr, hoffset⟩ | rfl := hchain
        · rw [hblocks]
          refine .more rest haddr ?_
          show curr.offset ≤ block.offset + padding + size
          omega
        · exact .new _ _
      refine (hholds.grown hgrown).add fun x hx => ?_
      obtain rfl := List.mem_singleton.mp hx
      refine ⟨_, .head _, ?_, ?_⟩
      · show block.addr + sizeofArenaBlock ≤ block.addr + block.offset + padding
        omega
      · show block.addr + block.offset + padding + size ≤
          block.addr + (block.offset + padding + size)
        omega
    · intro ptr hptr
      obtain rfl := Option.some.inj hptr
      refine ⟨haligned, ⟨_, .head _, ?_, ?_⟩, hfor.apart hmapped hfilled' hfits hholds.below⟩
      · show block.addr + sizeofArenaBlock ≤ block.addr + block.offset + padding
        omega
      · show block.addr + block.offset + padding + size ≤ block.addr + block.size
        omega
    · intro ptr hptr
      obtain rfl := Option.some.inj hptr
      refine ⟨_, _, rfl, ?_⟩
      show block.addr + (block.offset + padding + size) =
        block.addr + block.offset + padding + size
      omega

/-- The begin of a scope. -/
theorem Sound.tempBegin {s : State} (h : Sound s) :
    ∃ s', step s (.tempBegin : Op page) = .ok (none, s') ∧ Sound s' := by
  obtain ⟨⟨blocks⟩, live, scopes⟩ := s
  cases blocks with
  | nil =>
    refine ⟨_, rfl, h.mapped, h.filled, ?_, h.holds.below, .inl h.holds.empty⟩
    exact List.forall_mem_cons.mpr ⟨fun hne => absurd rfl hne, h.saved⟩
  | cons b rest =>
    have hbegin : arenaTempBegin ⟨b :: rest⟩ = .ok ⟨some b.addr, b.offset⟩ :=
      arenaTempBegin_cons (h.mapped.mapped b (.head _))
    simp only [step, hbegin]
    refine ⟨_, rfl, h.mapped, h.filled, ?_, h.holds.below, .inr ?_⟩
    · exact List.forall_mem_cons.mpr ⟨fun _ => (h.filled b (.head _)).1, h.saved⟩
    · exact ⟨[], b, rest, rfl, rfl, Nat.le_refl _, h.holds⟩

/-- The end of a scope where the saved block is the only one there could be. -/
theorem arenaTempEnd_notFound (pos : ArenaPos) {a : Arena} (hmapped : WellMapped a.blocks)
    (hnone : ∀ b ∈ a.blocks, some b.addr ≠ pos.block) (hlength : a.blocks.length ≤ 1) :
    arenaTempEnd pos a = .ok a := by
  obtain ⟨blocks⟩ := a
  match blocks, hlength with
  | [], _ => rfl
  | [b], _ =>
    have hb : b.mapped = true := hmapped.mapped b (.head _)
    unfold arenaTempEnd unwind
    rw [if_neg (hnone b (.head _)), if_neg (by simp [hb])]
    rfl

/-- The end of a scope. -/
theorem Sound.tempEnd {s : State} (h : Sound s) (hproper : Proper s (.tempEnd : Op page))
    (hharmless : Harmless s (.tempEnd : Op page)) :
    ∃ s', step s (.tempEnd : Op page) = .ok (none, s') ∧ Sound s' := by
  obtain ⟨⟨blocks⟩, live, scopes⟩ := s
  cases scopes with
  | nil => exact absurd rfl hproper
  | cons scope scopes =>
    obtain ⟨⟨target, offset⟩, saved⟩ := scope
    have houter : ∀ o ∈ scopes, o.pos.block ≠ none → sizeofArenaBlock ≤ o.pos.offset :=
      fun o ho => h.saved o (.tail _ ho)
    -- the saved block is found, and its offset goes back
    have hfound : ∀ {extra b rest}, blocks = extra ++ b :: rest → target = some b.addr →
        offset ≤ b.size → Holds ({ b with offset := offset } :: rest) saved scopes →
        ∃ s', step ⟨⟨blocks⟩, live, ⟨⟨target, offset⟩, saved⟩ :: scopes⟩ (.tempEnd : Op page) =
          .ok (none, s') ∧ Sound s' := by
      rintro extra b rest rfl rfl hoffset hholds
      have hheader : sizeofArenaBlock ≤ offset := h.saved _ (.head _) nofun
      have hfilled : Filled (b :: rest) :=
        fun c hc => h.filled c (List.mem_append_right _ hc)
      simp only [step, arenaTempEnd_found extra offset h.mapped]
      refine ⟨_, rfl, h.mapped.of_append.setOffset offset, ?_, houter, hholds⟩
      exact List.forall_mem_cons.mpr ⟨⟨hheader, hoffset⟩, fun c hc => hfilled c (.tail _ hc)⟩
    obtain ⟨-, ⟨rfl, hreleased⟩ | ⟨extra, b, rest, heq, htarget, hoffset, hholds⟩⟩ := h.holds
    · obtain ⟨hsize, hlength⟩ := hharmless _ rfl
      by_cases hmem : ∃ b ∈ blocks, some b.addr = target
      · obtain ⟨b, hb, htarget⟩ := hmem
        obtain ⟨extra, rest, heq⟩ := List.append_of_mem hb
        exact hfound heq htarget.symm (hsize b hb htarget) (holds_nil hreleased)
      · have hnone : ∀ b ∈ blocks, some b.addr ≠ target := fun b hb heq => hmem ⟨b, hb, heq⟩
        simp only [step, arenaTempEnd_notFound ⟨target, offset⟩ h.mapped hnone
          (hlength hnone)]
        exact ⟨_, rfl, h.mapped, h.filled, houter, holds_nil hreleased⟩
    · have hb : b ∈ extra ++ b :: rest := List.mem_append_right _ (.head _)
      rw [← heq] at hb
      exact hfound heq htarget (Nat.le_trans hoffset (h.filled b hb).2) hholds

theorem oldest_mapped {blocks : List ArenaBlock} (h : ∀ b ∈ blocks, b.mapped = true) :
    ∃ found, oldest blocks = .ok found ∧
      ∀ b, found = some b → ∃ extra, blocks = extra ++ [b] := by
  induction blocks with
  | nil => exact ⟨none, rfl, nofun⟩
  | cons b blocks ih =>
    have hb : b.mapped = true := h b (.head _)
    obtain ⟨found, hfound, hlast⟩ := ih fun c hc => h c (.tail _ hc)
    unfold oldest
    rw [if_neg (by simp [hb])]
    cases blocks with
    | nil =>
      refine ⟨some b, rfl, fun c hc => ⟨[], ?_⟩⟩
      rw [Option.some.inj hc]
      rfl
    | cons c cs =>
      refine ⟨found, hfound, fun d hd => ?_⟩
      obtain ⟨extra, heq⟩ := hlast d hd
      exact ⟨b :: extra, by rw [heq]; rfl⟩

/-- A reset. -/
theorem Sound.reset {s : State} (h : Sound s) :
    ∃ s', step s (.reset : Op page) = .ok (none, s') ∧ Sound s' := by
  obtain ⟨⟨blocks⟩, live, scopes⟩ := s
  obtain ⟨found, hoccurs, hlast⟩ := oldest_mapped h.mapped.mapped
  have hsaved : ∀ scope ∈ scopes.map fun scope => { scope with live := [] },
      scope.pos.block ≠ none → sizeofArenaBlock ≤ scope.pos.offset :=
    List.forall_mem_map.mpr h.saved
  have hreleased : ∀ scope ∈ scopes.map fun scope => { scope with live := [] },
      scope.live = [] := List.forall_mem_map.mpr fun _ _ => rfl
  simp only [step, arenaReset, hoccurs]
  cases found with
  | none => exact ⟨_, rfl, h.mapped, h.filled, hsaved, holds_nil hreleased⟩
  | some b =>
    obtain ⟨extra, rfl⟩ := hlast b rfl
    have hb := h.filled b (List.mem_append_right _ (.head _))
    refine ⟨_, rfl, h.mapped.of_append.setOffset _, ?_, hsaved, holds_nil hreleased⟩
    exact List.forall_mem_cons.mpr ⟨⟨Nat.le_refl _, Nat.le_trans hb.1 hb.2⟩, nofun⟩

/-! ## Runs -/

theorem Sound.step {s : State} (h : Sound s) {op : Op page} (hproper : Proper s op)
    (hharmless : Harmless s op) :
    ∃ r s', Arena.step s op = .ok (r, s') ∧ Sound s' ∧ op.Returns s s' r := by
  cases op with
  | alloc mmap size align =>
    obtain ⟨r, s', hstep, hs', hreturns, -⟩ := h.alloc hproper hharmless
    exact ⟨r, s', hstep, hs', hreturns⟩
  | tempBegin =>
    obtain ⟨s', hstep, hs'⟩ := h.tempBegin
    exact ⟨none, s', hstep, hs', rfl⟩
  | tempEnd =>
    obtain ⟨s', hstep, hs'⟩ := h.tempEnd hproper hharmless
    exact ⟨none, s', hstep, hs', rfl⟩
  | reset =>
    obtain ⟨s', hstep, hs'⟩ := h.reset
    exact ⟨none, s', hstep, hs', rfl⟩

theorem ArenaRun.sound {s : State} (h : ArenaRun page Harmless s) : Sound s := by
  induction h with
  | init => exact sound_init
  | step _ hproper hharmless hstep ih =>
    obtain ⟨r, s', hstep', hsound, -⟩ := ih.step hproper hharmless
    cases hstep.symm.trans hstep'
    exact hsound

/-- In every run of harmless calls, the offsets are within the blocks, and each further
harmless call returns, with memory that is aligned, in a block, and apart from the rest. -/
theorem arenaRun_safe {s : State} (h : ArenaRun page Harmless s) :
    Safe page Harmless s where
  offsets := fun b hb => (h.sound.filled b hb).2
  returns := fun op hproper hharmless => by
    obtain ⟨r, s', hstep, -, hreturns⟩ := h.sound.step hproper hharmless
    exact ⟨r, s', hstep, hreturns⟩

end

/-! ## Requests for more than there is -/

/-- After `arena_alloc(a, 8)`. -/
def oneAllocation : State := ⟨⟨[firstBlock]⟩, [⟨65560, 8⟩], []⟩

theorem run_oneAllocation {meets : State → Op smallPages → Prop}
    (hmeets : meets ⟨⟨[]⟩, [], []⟩ (.alloc (mmapAt smallPages 65536) 8 defaultAlignment)) :
    ArenaRun smallPages meets oneAllocation := by
  have hfirst : arenaFirstBlock (mmapAt smallPages 65536) 8 ⟨[]⟩ =
      some [⟨65536, 67112960, 24, true⟩] := rfl
  have hproper : Proper ⟨⟨[]⟩, [], []⟩
      (.alloc (mmapAt smallPages 65536) 8 defaultAlignment) := by
    refine ⟨⟨3, rfl⟩, by decide, by decide, ?_⟩
    rintro b ⟨rest, hb⟩
    cases hfirst.symm.trans hb
    decide
  have halloc : arenaAllocAligned (mmapAt smallPages 65536) 8 defaultAlignment ⟨[]⟩ =
      .ok (some 65560, ⟨[firstBlock]⟩) := arenaAlloc_first
  exact .step .init hproper hmeets (by simp only [step, halloc]; rfl)

/-- Memory behind one allocation is safe. -/
theorem arenaRun_safe_oneAllocation : Safe smallPages Harmless oneAllocation :=
  arenaRun_safe (run_oneAllocation fun _ _ => .inr (by decide))

/-- The size of a request whose block would have a length of more than a word. -/
def hugeSize : Nat := 2 ^ 64 - 33

theorem arenaAllocAligned_huge :
    arenaAllocAligned (mmapAt smallPages 4294967296) hugeSize 16 ⟨[firstBlock]⟩ =
      .ok (some 4294967328, ⟨[⟨4294967296, 4096, 2 ^ 64 - 1, true⟩, firstBlock]⟩) := by
  decide +kernel

/-- The length of the block wraps to a page, and the memory is not in it. -/
theorem hugeSize_notInside : ¬ ∀ (page : PageSize) (s : State),
    ArenaRun page (fun _ _ => True) s → Safe page (fun _ _ => True) s := by
  intro h
  have hsafe := h smallPages oneAllocation (run_oneAllocation trivial)
  have hproper : Proper oneAllocation (.alloc (mmapAt smallPages 4294967296) hugeSize 16) := by
    refine ⟨⟨4, rfl⟩, by decide, by decide, ?_⟩
    rintro b ⟨rest, hb⟩
    cases hb
    decide
  obtain ⟨r, s', hstep, hreturns⟩ := hsafe.returns _ hproper trivial
  have hstep' : step oneAllocation (.alloc (mmapAt smallPages 4294967296) hugeSize 16) =
      .ok (some 4294967328, ⟨⟨[⟨4294967296, 4096, 2 ^ 64 - 1, true⟩, firstBlock]⟩,
        [⟨4294967328, hugeSize⟩, ⟨65560, 8⟩], []⟩) := by
    have halloc := arenaAllocAligned_huge
    simp only [step, oneAllocation, halloc]
    rfl
  cases hstep'.symm.trans hstep
  obtain ⟨b, hb, hlo, hhi⟩ := (hreturns _ rfl).inside
  simp only [List.mem_cons, List.not_mem_nil, or_false] at hb
  rcases hb with rfl | rfl
  · exact absurd hhi (by decide)
  · exact absurd hhi (by decide)

end TinyCompile.Arena
