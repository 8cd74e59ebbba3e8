import TinyCompile.X86.Instr

set_option autoImplicit false

/-!
# X86: decoding

`decode` reads one instruction from the front of a byte sequence: an optional
REX prefix, the opcode, the ModRM byte with its displacement, the immediate.
It returns the instruction and the bytes after it, and `none` on whatever is
outside the subset (SIB bytes, RIP-relative operands, sixteen-bit sizes, the
high byte registers, and 32-bit forms of instructions the subset has only in
64-bit form).
-/

namespace TinyCompile.X86

open TinyCompile.Machine

/-- The fields of a REX prefix. -/
structure Rex where
  w : Bool
  r : Bool
  b : Bool
  deriving DecidableEq, Repr

/-- The REX prefix a byte stands for, when it is one. -/
def Rex.ofByte (b : Byte) : Option Rex :=
  if b >>> 4 = 4 then some ⟨b.getLsbD 3, b.getLsbD 2, b.getLsbD 0⟩ else none

/-- What an absent prefix means. -/
def Rex.absent : Rex := ⟨false, false, false⟩

/-- Read a 32-bit little-endian value. -/
def take32 : List Byte → Option (BitVec 32 × List Byte)
  | a :: b :: c :: d :: rest => some (BitVec.ofNat 32 (leNat [a, b, c, d]), rest)
  | _ => none

/-- Read a 64-bit little-endian value. -/
def take64 : List Byte → Option (Word × List Byte)
  | a :: b :: c :: d :: e :: f :: g :: h :: rest =>
      some (BitVec.ofNat 64 (leNat [a, b, c, d, e, f, g, h]), rest)
  | _ => none

/-- A decoded ModRM byte with its displacement. -/
structure ModRM where
  /-- The `reg` field as a register. -/
  reg : Reg
  /-- The `reg` field as an opcode extension. -/
  ext : BitVec 3
  /-- The `r/m` operand. -/
  rm : Operand
  deriving DecidableEq, Repr

/-- Decode a ModRM byte and the displacement that follows it. -/
def decodeModRM (rex : Rex) : List Byte → Option (ModRM × List Byte)
  | [] => none
  | m :: rest =>
      let mode := (m >>> 6).setWidth 2
      let ext := (m >>> 3).setWidth 3
      let rm := m.setWidth 3
      let reg := Reg.ofBits rex.r ext
      let base := Reg.ofBits rex.b rm
      if mode = 3 then some (⟨reg, ext, .reg base⟩, rest)
      else if rm = 4 then none
      else if mode = 0 then
        if rm = 5 then none else some (⟨reg, ext, .mem base 0⟩, rest)
      else if mode = 1 then
        match rest with
        | d :: rest => some (⟨reg, ext, .mem base (d.signExtend 64)⟩, rest)
        | [] => none
      else
        match take32 rest with
        | some (d, rest) => some (⟨reg, ext, .mem base (d.signExtend 64)⟩, rest)
        | none => none

/-- The condition in the low four bits of a `jcc` or `setcc` opcode. -/
def Cond.ofBits (b : BitVec 4) : Option Cond :=
  if b = 0x4 then some .e
  else if b = 0x5 then some .ne
  else if b = 0xC then some .l
  else if b = 0xD then some .ge
  else if b = 0xE then some .le
  else if b = 0xF then some .g
  else none

/-- The operation of an `op r/m64, r64` opcode. -/
def AluOp.ofOpcode (b : Byte) : Option AluOp :=
  if b = 0x01 then some .add
  else if b = 0x09 then some .or
  else if b = 0x21 then some .and
  else if b = 0x29 then some .sub
  else if b = 0x31 then some .xor
  else if b = 0x39 then some .cmp
  else none

/-- The operation an opcode extension selects behind `81` and `83`. -/
def AluOp.ofExt (e : BitVec 3) : Option AluOp :=
  if e = 0 then some .add
  else if e = 1 then some .or
  else if e = 4 then some .and
  else if e = 5 then some .sub
  else if e = 6 then some .xor
  else if e = 7 then some .cmp
  else none

/-- The operation an opcode extension selects behind `F7`. -/
def UnaryOp.ofExt (e : BitVec 3) : Option UnaryOp :=
  if e = 2 then some .not
  else if e = 3 then some .neg
  else if e = 7 then some .idiv
  else none

/-- The operation an opcode extension selects behind `D3`. -/
def ShiftOp.ofExt (e : BitVec 3) : Option ShiftOp :=
  if e = 4 then some .shl
  else if e = 5 then some .shr
  else if e = 7 then some .sar
  else none

/-- Without a prefix the byte registers 4 to 7 are `ah`, `ch`, `dh`, `bh`, which
the subset does not have. -/
def byteOperandOk (hasRex : Bool) : Operand → Bool
  | .reg r => hasRex || decide (r.code.toNat < 4)
  | .mem _ _ => true

/-- Decode what follows the escape byte `0F`. -/
def decodeTwoByte (hasRex : Bool) (rex : Rex) : List Byte → Option (Instr × List Byte)
  | [] => none
  | op :: rest =>
      if op >>> 4 = 8 then
        match Cond.ofBits (op.setWidth 4), take32 rest with
        | some c, some (rel, rest) => some (.jcc c rel, rest)
        | _, _ => none
      else
        match decodeModRM rex rest with
        | none => none
        | some (m, rest) =>
            if op >>> 4 = 9 then
              match Cond.ofBits (op.setWidth 4) with
              | some c => if byteOperandOk hasRex m.rm then some (.setcc c m.rm, rest) else none
              | none => none
            else if rex.w = false then none
            else if op = 0xAF then some (.imul m.reg m.rm, rest)
            else if op = 0xB6 then some (.movzx8 m.reg m.rm, rest)
            else if op = 0xBE then some (.movsx8 m.reg m.rm, rest)
            else none

/-- Decode an opcode that takes a ModRM byte. -/
def decodeModRMOp (hasRex : Bool) (rex : Rex) (op : Byte) (rest : List Byte) :
    Option (Instr × List Byte) :=
  match decodeModRM rex rest with
  | none => none
  | some (m, rest) =>
      if op = 0x88 then
        if byteOperandOk hasRex (.reg m.reg) && byteOperandOk hasRex m.rm then
          some (.mov .byte m.rm m.reg, rest)
        else none
      else if op = 0x89 then
        some (.mov (if rex.w then .qword else .dword) m.rm m.reg, rest)
      else if op = 0xFF then
        if m.ext = 2 then some (.call m.rm, rest) else none
      else if rex.w = false then none
      else if op = 0x8B then some (.load m.reg m.rm, rest)
      else if op = 0x63 then some (.movsxd m.reg m.rm, rest)
      else if op = 0x85 then some (.test m.rm m.reg, rest)
      else if op = 0x8D then
        match m.rm with
        | .mem base disp => some (.lea m.reg base disp, rest)
        | .reg _ => none
      else if op = 0x81 then
        match AluOp.ofExt m.ext, take32 rest with
        | some o, some (imm, rest) => some (.aluImm o m.rm (imm.signExtend 64), rest)
        | _, _ => none
      else if op = 0x83 then
        match AluOp.ofExt m.ext, rest with
        | some o, imm :: rest => some (.aluImm o m.rm (imm.signExtend 64), rest)
        | _, _ => none
      else if op = 0xF7 then
        match UnaryOp.ofExt m.ext with
        | some o => some (.unary o m.rm, rest)
        | none => none
      else if op = 0xD3 then
        match ShiftOp.ofExt m.ext with
        | some o => some (.shift o m.rm, rest)
        | none => none
      else
        match AluOp.ofOpcode op with
        | some o => some (.alu o m.rm m.reg, rest)
        | none => none

/-- Decode from the opcode on. -/
def decodeOpcode (hasRex : Bool) (rex : Rex) : List Byte → Option (Instr × List Byte)
  | [] => none
  | op :: rest =>
      if op = 0x0F then decodeTwoByte hasRex rex rest
      else if op >>> 3 = 0x0A then some (.push (Reg.ofBits rex.b (op.setWidth 3)), rest)
      else if op >>> 3 = 0x0B then some (.pop (Reg.ofBits rex.b (op.setWidth 3)), rest)
      else if op >>> 3 = 0x17 then
        if rex.w then
          match take64 rest with
          | some (imm, rest) => some (.movImm (Reg.ofBits rex.b (op.setWidth 3)) imm, rest)
          | none => none
        else none
      else if op = 0x99 then if rex.w then some (.cqo, rest) else none
      else if op = 0xC3 then some (.ret, rest)
      else if op = 0xE9 then
        match take32 rest with
        | some (rel, rest) => some (.jmp rel, rest)
        | none => none
      else decodeModRMOp hasRex rex op rest

/-- Decode one instruction. -/
def decode : List Byte → Option (Instr × List Byte)
  | [] => none
  | b :: rest =>
      match Rex.ofByte b with
      | some rex => decodeOpcode true rex rest
      | none => decodeOpcode false Rex.absent (b :: rest)

/-- An instruction together with bytes that decode to it whatever follows. -/
structure Encoded where
  /-- The intended instruction. -/
  instr : Instr
  /-- Its bytes. -/
  bytes : List Byte
  /-- The bytes decode to the instruction and nothing more is consumed. -/
  decodes : ∀ rest, decode (bytes ++ rest) = some (instr, rest)

/-- Decode a byte sequence to its end. -/
def decodeAll : Nat → List Byte → Option (List Instr)
  | _, [] => some []
  | 0, _ :: _ => none
  | fuel + 1, bs =>
      match decode bs with
      | none => none
      | some (i, rest) => (decodeAll fuel rest).map (i :: ·)

theorem Encoded.bytes_ne_nil (e : Encoded) : e.bytes ≠ [] := by
  intro h
  have := e.decodes []
  simp [h, decode] at this

/-- The bytes of consecutive instructions decode to these instructions. -/
theorem decodeAll_encoded (es : List Encoded) (fuel : Nat) (h : es.length ≤ fuel) :
    decodeAll fuel (es.flatMap (·.bytes)) = some (es.map (·.instr)) := by
  induction es generalizing fuel with
  | nil => cases fuel <;> rfl
  | cons e es ih =>
    simp only [List.length_cons] at h
    obtain ⟨fuel, rfl⟩ : ∃ k, fuel = k + 1 := ⟨fuel - 1, by omega⟩
    obtain ⟨b, bs, hb⟩ := List.exists_cons_of_ne_nil e.bytes_ne_nil
    have hdec := e.decodes (es.flatMap (·.bytes))
    simp only [List.flatMap_cons, hb, List.cons_append] at hdec ⊢
    simp only [decodeAll, hdec, ih fuel (by omega), List.map_cons, Option.map_some]

end TinyCompile.X86
