import TinyCompile.Arena.Blocks

set_option autoImplicit false

/-!
# Arena: how the blocks grow

What `arena_create_block` and `arena_alloc_aligned` do to the blocks: a block is put in
front, or the current one is extended, and the offset of the current one moves.
-/

namespace TinyCompile.Arena

/-! ## Words -/

theorem wrap_lt (n : Nat) : wrap n < 2 ^ 64 := Nat.mod_lt _ (by decide)

theorem wrap_of_lt {n : Nat} (h : n < 2 ^ 64) : wrap n = n := Nat.mod_eq_of_lt h

theorem isPowerOfTwo_iff {x : Nat} : isPowerOfTwo x = true ↔ x.isPowerOfTwo := by
  unfold isPowerOfTwo
  rw [decide_eq_true_iff]
  exact Nat.ne_zero_and_sub_one_eq_zero_iff_isPowerOfTwo

theorem and_sub_one {x n : Nat} (h : x.isPowerOfTwo) : n &&& (x - 1) = n % x := by
  obtain ⟨k, rfl⟩ := h
  exact Nat.and_two_pow_sub_one_eq_mod n k

/-- Whole pages, or none where the size is too large. -/
theorem alignToPage_spec (page : PageSize) {size : Nat} (h : size < 2 ^ 64) :
    alignToPage page size = 0 ∨ size ≤ alignToPage page size := by
  have hpos := Nat.pos_of_isPowerOfTwo page.pow
  have hfits := page.fits
  unfold alignToPage
  simp only [and_sub_one page.pow]
  by_cases hwrap : size + page.bytes - 1 < 2 ^ 64
  · rw [wrap_of_lt hwrap]
    have hmod := Nat.mod_lt (size + page.bytes - 1) hpos
    omega
  · -- what is left is less than a page
    have hlast : wrap (size + page.bytes - 1) = size + page.bytes - 1 - 2 ^ 64 := by
      unfold wrap
      omega
    rw [hlast, Nat.mod_eq_of_lt (by omega)]
    omega

/-- The next aligned address is less than the alignment away. -/
theorem paddingAt_spec (block : ArenaBlock) {align : Nat} (hpow : align.isPowerOfTwo)
    (hfits : align < 2 ^ 64) : paddingAt block align < align ∧
      (wrap (block.addr + block.offset) + paddingAt block align) % align = 0 := by
  have hpos := Nat.pos_of_isPowerOfTwo hpow
  unfold paddingAt alignForward
  simp only [and_sub_one hpow]
  have hcurrent := wrap_lt (block.addr + block.offset)
  generalize wrap (block.addr + block.offset) = current at hcurrent ⊢
  have hmod := Nat.mod_lt current hpos
  split
  · rename_i hne
    have hdistance : wrap (wrap (current + (align - current % align)) + 2 ^ 64 - current) =
        align - current % align := by
      unfold wrap
      omega
    rw [hdistance]
    refine ⟨by omega, ?_⟩
    have hdiv := Nat.mod_add_div current align
    have hsum : current + (align - current % align) = align * (current / align + 1) := by
      rw [Nat.mul_add, Nat.mul_one]
      omega
    rw [hsum, Nat.mul_mod_right]
  · rename_i hzero
    have hnone : wrap (current + 2 ^ 64 - current) = 0 := by
      unfold wrap
      omega
    rw [hnone]
    exact ⟨hpos, by simpa using hzero⟩

/-! ## Mapped blocks -/

/-- The blocks are mapped, in the address space, and do not overlap. -/
structure WellMapped (blocks : List ArenaBlock) : Prop where
  mapped : ∀ b ∈ blocks, b.mapped = true
  bounds : ∀ b ∈ blocks, 0 < b.addr ∧ 0 < b.size ∧ b.addr + b.size ≤ 2 ^ 64
  apart : blocks.Pairwise fun b b' => Apart b.addr b.size b'.addr b'.size

theorem wellMapped_nil : WellMapped [] := ⟨nofun, nofun, .nil⟩

theorem WellMapped.tail {b : ArenaBlock} {blocks : List ArenaBlock}
    (h : WellMapped (b :: blocks)) : WellMapped blocks :=
  ⟨fun c hc => h.mapped c (.tail _ hc), fun c hc => h.bounds c (.tail _ hc),
    (List.pairwise_cons.mp h.apart).2⟩

theorem WellMapped.of_append {blocks blocks' : List ArenaBlock}
    (h : WellMapped (blocks ++ blocks')) : WellMapped blocks' := by
  induction blocks with
  | nil => exact h
  | cons b blocks ih => exact ih h.tail

/-- The offset of a block is no part of it. -/
theorem WellMapped.setOffset {b : ArenaBlock} {rest : List ArenaBlock}
    (h : WellMapped (b :: rest)) (offset : Nat) :
    WellMapped ({ b with offset := offset } :: rest) := by
  refine ⟨fun c hc => ?_, fun c hc => ?_, ?_⟩
  · rcases List.mem_cons.mp hc with rfl | hc
    · exact h.mapped b (.head _)
    · exact h.mapped c (.tail _ hc)
  · rcases List.mem_cons.mp hc with rfl | hc
    · exact h.bounds b (.head _)
    · exact h.bounds c (.tail _ hc)
  · exact List.pairwise_cons.mpr ⟨(List.pairwise_cons.mp h.apart).1, h.tail.apart⟩

section

variable {page : PageSize} {mmap : Mmap page} {blocks blocks' : List ArenaBlock}

/-- A new region in front. -/
theorem WellMapped.push (h : WellMapped blocks) {base length : Nat}
    (hgranted : Granted page blocks base length) (offset : Nat) :
    WellMapped (⟨base, length, offset, true⟩ :: blocks) := by
  refine ⟨fun c hc => ?_, fun c hc => ?_, ?_⟩
  · rcases List.mem_cons.mp hc with rfl | hc
    · rfl
    · exact h.mapped c hc
  · rcases List.mem_cons.mp hc with rfl | hc
    · exact ⟨hgranted.basePos, hgranted.lengthPos, hgranted.fits⟩
    · exact h.bounds c hc
  · exact List.pairwise_cons.mpr ⟨fun c hc => hgranted.free c hc (h.mapped c hc), h.apart⟩

/-- The region behind the current block joins it. -/
theorem WellMapped.extend {b : ArenaBlock} {rest : List ArenaBlock}
    (h : WellMapped (b :: rest)) {length : Nat}
    (hgranted : Granted page (b :: rest) (wrap (b.addr + b.size)) length) :
    b.addr + b.size + length ≤ 2 ^ 64 ∧ wrap (b.size + length) = b.size + length ∧
      WellMapped ({ b with size := wrap (b.size + length) } :: rest) := by
  obtain ⟨haddr, hsize, hend⟩ := h.bounds b (.head _)
  have hbase := hgranted.basePos
  have hlength := hgranted.lengthPos
  have hfits := hgranted.fits
  -- the address behind the block is no null pointer
  have hhint : wrap (b.addr + b.size) = b.addr + b.size := by
    refine wrap_of_lt (Nat.lt_of_le_of_ne hend fun heq => ?_)
    rw [heq] at hbase
    exact absurd hbase (by decide)
  rw [hhint] at hfits hgranted
  have hsum : wrap (b.size + length) = b.size + length := wrap_of_lt (by omega)
  refine ⟨hfits, hsum, fun c hc => ?_, fun c hc => ?_, ?_⟩
  · rcases List.mem_cons.mp hc with rfl | hc
    · exact h.mapped b (.head _)
    · exact h.mapped c (.tail _ hc)
  · rcases List.mem_cons.mp hc with rfl | hc
    · refine ⟨haddr, ?_, ?_⟩
      · show 0 < wrap (b.size + length)
        omega
      · show b.addr + wrap (b.size + length) ≤ 2 ^ 64
        omega
    · exact h.bounds c (.tail _ hc)
  · rw [hsum]
    refine List.pairwise_cons.mpr ⟨fun c hc => ?_, h.tail.apart⟩
    have hold := (List.pairwise_cons.mp h.apart).1 c hc
    have hnew := hgranted.free c (.tail _ hc) (h.mapped c (.tail _ hc))
    have hpos := (h.bounds c (.tail _ hc)).2.1
    unfold Apart at hold hnew ⊢
    simp only at hold hnew ⊢
    omega

/-- What `arena_create_block` does. -/
theorem arenaCreateBlock_cases {capacity : Nat}
    (h : arenaCreateBlock mmap capacity blocks = some blocks') :
    ∃ base, Granted page blocks base (alignToPage page (wrap (capacity + sizeofArenaBlock))) ∧
      (blocks' = ⟨base, alignToPage page (wrap (capacity + sizeofArenaBlock)),
          sizeofArenaBlock, true⟩ :: blocks ∨
        ∃ prev rest, blocks = prev :: rest ∧ base = wrap (prev.addr + prev.size) ∧
          blocks' = { prev with
            size := wrap (prev.size +
              alignToPage page (wrap (capacity + sizeofArenaBlock))) } :: rest) := by
  unfold arenaCreateBlock at h
  simp only at h
  split at h
  · cases h
  · rename_i base hmap
    refine ⟨base, mmap.granted _ _ _ _ hmap, ?_⟩
    cases blocks with
    | nil => exact .inl (Option.some.inj h).symm
    | cons prev rest =>
      simp only at h
      split at h
      · rename_i hhint
        exact .inr ⟨prev, rest, rfl, hhint, (Option.some.inj h).symm⟩
      · exact .inl (Option.some.inj h).symm

theorem WellMapped.create (h : WellMapped blocks) {capacity : Nat}
    (hcreate : arenaCreateBlock mmap capacity blocks = some blocks') : WellMapped blocks' := by
  obtain ⟨base, hgranted, rfl | ⟨prev, rest, rfl, rfl, rfl⟩⟩ := arenaCreateBlock_cases hcreate
  · exact h.push hgranted _
  · exact (h.extend hgranted).2.2

theorem WellMapped.first {a : Arena} {size : Nat} (h : WellMapped a.blocks)
    (hfirst : arenaFirstBlock mmap size a = some blocks) : WellMapped blocks := by
  unfold arenaFirstBlock at hfirst
  split at hfirst
  · exact wellMapped_nil.create hfirst
  · rename_i hcons
    obtain rfl := Option.some.inj hfirst
    exact h

/-! ## Allocation -/

/-- The length of the region that `arena_alloc_aligned` asks for when the current block has
no room. -/
def growthLength (page : PageSize) (size align : Nat) : Nat :=
  alignToPage page (wrap (nextSize size align + sizeofArenaBlock))

/-- The current block has room for an allocation, as `arena_alloc_aligned` tests it. -/
def HasRoom (size align : Nat) (b : ArenaBlock) : Prop :=
  wrap (wrap (b.offset + paddingAt b align) + size) ≤ b.size

/-- The block for an allocation that is no null pointer, and the blocks behind it: the current
block, a new one, or the current one extended. -/
inductive BlockFor (page : PageSize) (size align : Nat) :
    List ArenaBlock → ArenaBlock → List ArenaBlock → Nat → Prop
  | current {curr : ArenaBlock} {rest : List ArenaBlock} (h : HasRoom size align curr) :
      BlockFor page size align (curr :: rest) curr rest (paddingAt curr align)
  | new {curr : ArenaBlock} {rest : List ArenaBlock} {base : Nat}
      (hfull : ¬ HasRoom size align curr)
      (hgranted : Granted page (curr :: rest) base (growthLength page size align))
      (hbase : base ≠ curr.addr) :
      BlockFor page size align (curr :: rest)
        ⟨base, growthLength page size align, sizeofArenaBlock, true⟩ (curr :: rest)
        (paddingAt ⟨base, growthLength page size align, sizeofArenaBlock, true⟩ align)
  | extended {curr : ArenaBlock} {rest : List ArenaBlock}
      (hfull : ¬ HasRoom size align curr)
      (hgranted : Granted page (curr :: rest) (wrap (curr.addr + curr.size))
        (growthLength page size align)) :
      BlockFor page size align (curr :: rest)
        { curr with size := wrap (curr.size + growthLength page size align) } rest
        (paddingAt curr align)

/-- What `arena_alloc_aligned` does on mapped blocks: it returns, either a null pointer or
memory of a block. -/
theorem arenaAllocAligned_cases (mmap : Mmap page) (size align : Nat) {a : Arena}
    (hmapped : WellMapped a.blocks) :
    ∃ r a', arenaAllocAligned mmap size align a = .ok (r, a') ∧
      (r = none ∧ (a' = a ∨ arenaFirstBlock mmap size a = some a'.blocks) ∨
        size ≠ 0 ∧ align.isPowerOfTwo ∧ ∃ blocks block rest padding,
          arenaFirstBlock mmap size a = some blocks ∧
          BlockFor page size align blocks block rest padding ∧
          (r, a') = take block rest padding size) := by
  unfold arenaAllocAligned
  split
  · exact ⟨none, a, rfl, .inl ⟨rfl, .inl rfl⟩⟩
  · rename_i hsize
    split
    · exact ⟨none, a, rfl, .inl ⟨rfl, .inl rfl⟩⟩
    · rename_i hpow
      have hpow' : align.isPowerOfTwo := isPowerOfTwo_iff.mp (by simpa using hpow)
      split
      · exact ⟨none, a, rfl, .inl ⟨rfl, .inl rfl⟩⟩
      · exact ⟨none, a, rfl, .inl ⟨rfl, .inl rfl⟩⟩
      · rename_i curr rest hfirst
        have hblocks := hmapped.first hfirst
        have hcurr : curr.mapped = true := hblocks.mapped curr (.head _)
        rw [if_neg (by simp [hcurr])]
        simp only
        split
        · rename_i hmore
          have hfull : ¬ HasRoom size align curr := Nat.not_le_of_lt hmore
          split
          · exact ⟨none, ⟨curr :: rest⟩, rfl, .inl ⟨rfl, .inr hfirst⟩⟩
          · exact ⟨none, ⟨curr :: rest⟩, rfl, .inl ⟨rfl, .inr hfirst⟩⟩
          · rename_i new rest' hcreate
            refine ⟨_, _, rfl, .inr ⟨hsize, hpow', curr :: rest, new, rest', _, hfirst, ?_,
              rfl⟩⟩
            obtain ⟨base, hgranted, hpush | ⟨prev, rest'', heq, rfl, hext⟩⟩ :=
              arenaCreateBlock_cases hcreate
            · cases hpush
              have hbase : base ≠ curr.addr := by
                rintro rfl
                have hapart := hgranted.free curr (.head _) hcurr
                have hlength := hgranted.lengthPos
                have hpos := (hblocks.bounds curr (.head _)).2.1
                unfold Apart at hapart
                omega
              rw [if_pos hbase]
              exact .new hfull hgranted hbase
            · cases heq
              cases hext
              rw [if_neg (by simp)]
              exact .extended hfull hgranted
        · rename_i hroom
          exact ⟨_, _, rfl, .inr ⟨hsize, hpow', _, _, _, _, hfirst,
            .current (Nat.le_of_not_lt hroom), rfl⟩⟩

/-- A current block with room is not left. -/
theorem arenaAllocAligned_hasRoom (mmap : Mmap page) {size align : Nat} {a : Arena}
    {b : ArenaBlock} {rest : List ArenaBlock} (hsize : size ≠ 0) (hpow : align.isPowerOfTwo)
    (hblocks : a.blocks = b :: rest) (hb : b.mapped = true) (hroom : HasRoom size align b) :
    arenaAllocAligned mmap size align a = .ok (take b rest (paddingAt b align) size) := by
  have hfirst : arenaFirstBlock mmap size a = some (b :: rest) := by
    unfold arenaFirstBlock
    rw [hblocks]
  unfold arenaAllocAligned
  rw [if_neg hsize, if_neg (by simp [isPowerOfTwo_iff.mpr hpow]), hfirst]
  simp only
  rw [if_neg (by simp [hb]), if_neg (Nat.not_lt_of_le hroom)]

/-- The block for an allocation, and the blocks behind it, are mapped. -/
theorem BlockFor.wellMapped {size align padding : Nat} {block : ArenaBlock}
    {rest : List ArenaBlock} (h : BlockFor page size align blocks block rest padding)
    (hmapped : WellMapped blocks) : WellMapped (block :: rest) := by
  cases h with
  | current _ => exact hmapped
  | new _ hgranted _ => exact hmapped.push hgranted _
  | extended _ hgranted => exact (hmapped.extend hgranted).2.2

/-- The current block stays where it is, or a new one is in front of all. -/
theorem BlockFor.chain {size align padding : Nat} {block : ArenaBlock}
    {rest : List ArenaBlock} (h : BlockFor page size align blocks block rest padding) :
    ∃ curr rest', blocks = curr :: rest' ∧
      (rest = rest' ∧ block.addr = curr.addr ∧ block.offset = curr.offset ∨
        rest = blocks) := by
  cases h with
  | current _ => exact ⟨_, _, rfl, .inl ⟨rfl, rfl, rfl⟩⟩
  | new _ _ _ => exact ⟨_, _, rfl, .inr rfl⟩
  | extended _ _ => exact ⟨_, _, rfl, .inl ⟨rfl, rfl, rfl⟩⟩

/-- Allocation keeps the blocks mapped. -/
theorem WellMapped.alloc {size align : Nat} {a a' : Arena} {r : Option Nat}
    (h : WellMapped a.blocks) (hrun : arenaAllocAligned mmap size align a = .ok (r, a')) :
    WellMapped a'.blocks := by
  obtain ⟨r', a'', hrun', hcases⟩ := arenaAllocAligned_cases mmap size align h
  cases hrun.symm.trans hrun'
  obtain ⟨-, rfl | hfirst⟩ | ⟨-, -, bs, block, rest, padding, hfirst, hfor, htake⟩ := hcases
  · exact h
  · exact h.first hfirst
  · cases htake
    exact (hfor.wellMapped (h.first hfirst)).setOffset _

/-- Allocation changes the current block or puts one in front of it. -/
theorem alloc_chain {size align : Nat} {a a' : Arena} {r : Option Nat} {b : ArenaBlock}
    {rest : List ArenaBlock} (h : WellMapped a.blocks) (hblocks : a.blocks = b :: rest)
    (hrun : arenaAllocAligned mmap size align a = .ok (r, a')) :
    (∃ b', a'.blocks = b' :: rest ∧ b'.addr = b.addr) ∨
      ∃ new, a'.blocks = new :: b :: rest := by
  have hfirst : arenaFirstBlock mmap size a = some (b :: rest) := by
    unfold arenaFirstBlock
    rw [hblocks]
  obtain ⟨r', a'', hrun', hcases⟩ := arenaAllocAligned_cases mmap size align h
  cases hrun.symm.trans hrun'
  obtain ⟨-, rfl | hfirst'⟩ | ⟨-, -, bs, block, rest', padding, hfirst', hfor, htake⟩ := hcases
  · exact .inl ⟨b, hblocks, rfl⟩
  · exact .inl ⟨b, (Option.some.inj (hfirst.symm.trans hfirst')).symm, rfl⟩
  · obtain rfl := Option.some.inj (hfirst.symm.trans hfirst')
    cases htake
    obtain ⟨curr, rest'', heq, ⟨rfl, haddr, -⟩ | rfl⟩ := hfor.chain
    · cases heq
      exact .inl ⟨_, rfl, haddr⟩
    · exact .inr ⟨_, rfl⟩

end

end TinyCompile.Arena
