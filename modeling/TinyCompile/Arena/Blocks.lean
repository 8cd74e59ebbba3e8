import Mathlib

set_option autoImplicit false

/-!
# Arena: blocks of mapped memory

The growing arena of `incs/memarena.h`.  Blocks are chained from the current one back; each
starts with its header.  What `mmap` returns is left to the kernel.
-/

namespace TinyCompile.Arena

/-! ## Words -/

/-- A `size_t` or `uintptr_t`. -/
def wrap (n : Nat) : Nat := n % 2 ^ 64

/-- What `sysconf(_SC_PAGESIZE)` returns. -/
structure PageSize where
  bytes : Nat
  pow : bytes.isPowerOfTwo
  fits : bytes < 2 ^ 64

/-- `is_power_of_two`. -/
def isPowerOfTwo (x : Nat) : Bool := decide (x ≠ 0 ∧ x &&& (x - 1) = 0)

/-- `align_to_page`; `x & ~y` is `x - (x & y)`. -/
def alignToPage (page : PageSize) (size : Nat) : Nat :=
  let last := wrap (size + page.bytes - 1)
  last - (last &&& (page.bytes - 1))

/-- `align_forward`. -/
def alignForward (ptr align : Nat) : Nat :=
  let modulo := ptr &&& (align - 1)
  if modulo ≠ 0 then wrap (ptr + (align - modulo)) else ptr

/-! ## Blocks -/

/-- An `ArenaBlock` at its address, while it is mapped; the list link is `prev`. -/
structure ArenaBlock where
  addr : Nat
  size : Nat
  offset : Nat
  mapped : Bool
  deriving DecidableEq, Repr

/-- `Arena`: the blocks from `curr` on. -/
structure Arena where
  blocks : List ArenaBlock
  deriving DecidableEq, Repr

/-- A header is read that is no longer mapped. -/
inductive Fault where
  | unmapped
  deriving DecidableEq, Repr

/-- `sizeof(ArenaBlock)`. -/
def sizeofArenaBlock : Nat := 24

/-- `MEMARENA_DEFAULT_SIZE`. -/
def memarenaDefaultSize : Nat := 64 * 1024 * 1024

/-- `DEFAULT_ALIGNMENT`. -/
def defaultAlignment : Nat := 8

/-- `a->curr`. -/
def Arena.curr (a : Arena) : Option Nat := a.blocks.head?.map (·.addr)

/-- Two regions have no byte in common. -/
def Apart (lo size lo' size' : Nat) : Prop := lo + size ≤ lo' ∨ lo' + size' ≤ lo

instance (lo size lo' size' : Nat) : Decidable (Apart lo size lo' size') :=
  inferInstanceAs (Decidable (_ ∨ _))

/-- A region that the kernel may return: whole pages that are not in use. -/
structure Granted (page : PageSize) (blocks : List ArenaBlock) (base length : Nat) : Prop where
  lengthPos : 0 < length
  basePos : 0 < base
  aligned : base % page.bytes = 0
  fits : base + length ≤ 2 ^ 64
  free : ∀ b ∈ blocks, b.mapped = true → Apart base length b.addr b.size

instance (page : PageSize) (blocks : List ArenaBlock) (base length : Nat) :
    Decidable (Granted page blocks base length) :=
  decidable_of_iff (0 < length ∧ 0 < base ∧ base % page.bytes = 0 ∧ base + length ≤ 2 ^ 64 ∧
      ∀ b ∈ blocks, b.mapped = true → Apart base length b.addr b.size)
    ⟨fun ⟨h1, h2, h3, h4, h5⟩ => ⟨h1, h2, h3, h4, h5⟩,
      fun h => ⟨h.lengthPos, h.basePos, h.aligned, h.fits, h.free⟩⟩

/-- The kernel's `mmap`, at some time: the blocks that are mapped, the hint and the length
give the address of the region, or none for `MAP_FAILED`. -/
structure Mmap (page : PageSize) where
  map : List ArenaBlock → Nat → Nat → Option Nat
  granted : ∀ blocks hint length base, map blocks hint length = some base →
    Granted page blocks base length

section

variable {page : PageSize} (mmap : Mmap page)

/-- `arena_create_block`, behind the blocks there are: those from the one it returns on. -/
def arenaCreateBlock (capacity : Nat) (blocks : List ArenaBlock) : Option (List ArenaBlock) :=
  let hintAddr := match blocks with
    | [] => 0
    | prev :: _ => wrap (prev.addr + prev.size)
  let totalNeeded := wrap (capacity + sizeofArenaBlock)
  let totalSize := alignToPage page totalNeeded
  match mmap.map blocks hintAddr totalSize with
  | none => none
  | some base =>
      match blocks with
      | [] => some [⟨base, totalSize, sizeofArenaBlock, true⟩]
      | prev :: rest =>
          if base = hintAddr then
            some ({ prev with size := wrap (prev.size + totalSize) } :: rest)
          else some (⟨base, totalSize, sizeofArenaBlock, true⟩ :: prev :: rest)

/-- The blocks of an arena that has one, which may be created for the purpose. -/
def arenaFirstBlock (size : Nat) (a : Arena) : Option (List ArenaBlock) :=
  match a.blocks with
  | [] =>
      let blockSize := if size > memarenaDefaultSize then size else memarenaDefaultSize
      arenaCreateBlock mmap blockSize []
  | blocks => some blocks

/-- The bytes from the offset of a block to the next aligned address. -/
def paddingAt (block : ArenaBlock) (align : Nat) : Nat :=
  let currentAddr := wrap (block.addr + block.offset)
  wrap (alignForward currentAddr align + 2 ^ 64 - currentAddr)

/-- `next_size`, the capacity of a block that is to take an allocation. -/
def nextSize (size align : Nat) : Nat :=
  let needed := wrap (size + align)
  if needed > memarenaDefaultSize then needed else memarenaDefaultSize

/-- The last lines of `arena_alloc_aligned`. -/
def take (block : ArenaBlock) (rest : List ArenaBlock) (padding size : Nat) :
    Option Nat × Arena :=
  let offset := wrap (block.offset + padding)
  (some (wrap (block.addr + offset)),
    ⟨{ block with offset := wrap (offset + size) } :: rest⟩)

/-- `arena_alloc_aligned`: the address, or none for `NULL`. -/
def arenaAllocAligned (size align : Nat) (a : Arena) : Except Fault (Option Nat × Arena) :=
  if size = 0 then .ok (none, a)
  else if !isPowerOfTwo align then .ok (none, a)
  else
    match arenaFirstBlock mmap size a with
    | none | some [] => .ok (none, a)
    | some (curr :: rest) =>
        if !curr.mapped then .error .unmapped
        else
          let padding := paddingAt curr align
          if wrap (wrap (curr.offset + padding) + size) > curr.size then
            match arenaCreateBlock mmap (nextSize size align) (curr :: rest) with
            | none | some [] => .ok (none, ⟨curr :: rest⟩)
            | some (new :: rest') =>
                let padding := if new.addr ≠ curr.addr then paddingAt new align else padding
                .ok (take new rest' padding size)
          else .ok (take curr rest padding size)

/-- `arena_alloc`. -/
def arenaAlloc (size : Nat) (a : Arena) : Except Fault (Option Nat × Arena) :=
  arenaAllocAligned mmap size defaultAlignment a

end

/-! ## Resetting -/

/-- The loop of `arena_reset`: the oldest block. -/
def oldest : List ArenaBlock → Except Fault (Option ArenaBlock)
  | [] => .ok none
  | block :: blocks =>
      if !block.mapped then .error .unmapped
      else
        match blocks with
        | [] => .ok (some block)
        | prev :: rest => oldest (prev :: rest)

/-- `arena_reset`. -/
def arenaReset (a : Arena) : Except Fault Arena := do
  match ← oldest a.blocks with
  | none => return a
  | some block => return ⟨[{ block with offset := sizeofArenaBlock }]⟩

/-! ## Temporary scopes -/

/-- `ArenaPos`, which is the `ArenaTemp` of an arena. -/
structure ArenaPos where
  block : Option Nat
  offset : Nat
  deriving DecidableEq, Repr

/-- `arena_temp_begin`. -/
def arenaTempBegin (a : Arena) : Except Fault ArenaPos :=
  match a.blocks with
  | [] => .ok ⟨none, 0⟩
  | block :: _ =>
      if !block.mapped then .error .unmapped else .ok ⟨some block.addr, block.offset⟩

/-- The loop of `arena_temp_end`: the blocks from the saved one on, or none for `return`. -/
def unwind (target : Option Nat) : List ArenaBlock → Except Fault (Option (List ArenaBlock))
  | [] => .ok none
  | block :: blocks =>
      if some block.addr = target then .ok (some (block :: blocks))
      else if !block.mapped then .error .unmapped
      else
        match blocks with
        | [] => .ok none
        | prev :: rest => unwind target (prev :: rest)

/-- What an early `return` leaves behind: every block but the oldest is unmapped, and `curr`
still points to the first of them. -/
def abandoned : List ArenaBlock → List ArenaBlock
  | [] => []
  | [block] => [block]
  | block :: blocks => { block with mapped := false } :: abandoned blocks

/-- `arena_temp_end`. -/
def arenaTempEnd (temp : ArenaPos) (a : Arena) : Except Fault Arena := do
  match ← unwind temp.block a.blocks with
  | none => return ⟨abandoned a.blocks⟩
  | some [] => return ⟨[]⟩
  | some (block :: rest) =>
      if !block.mapped then throw .unmapped
      return ⟨{ block with offset := temp.offset } :: rest⟩

/-- `arena_total_used`. -/
def arenaTotalUsed (a : Arena) : Except Fault Nat :=
  if a.blocks.all (·.mapped) then
    .ok (a.blocks.foldl (fun total block => wrap (total + block.offset)) 0)
  else .error .unmapped

end TinyCompile.Arena
