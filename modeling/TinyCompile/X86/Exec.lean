import TinyCompile.X86.Decode

set_option autoImplicit false

/-!
# X86: execution

`exec` is the effect of a straight-line instruction on registers, flags and
memory; it is `none` where the processor traps and where an instruction reads
flags that the architecture leaves undefined.  `step` fetches at `rip`, decodes
and executes, control transfers included.  Code and data live in separate
memories: the subset has no self-modifying code.
-/

namespace TinyCompile.X86

open TinyCompile.Machine

/-- The flags the modelled conditions read. -/
structure Flags where
  zf : Bool
  sf : Bool
  of : Bool
  deriving DecidableEq, Repr

/-- Registers, flags and data memory.  `flags = none` after an instruction that
leaves them undefined. -/
structure State where
  regs : Reg → Word
  flags : Option Flags
  mem : Mem

namespace State

/-- Set one register. -/
def setReg (s : State) (r : Reg) (v : Word) : State :=
  { s with regs := Function.update s.regs r v }

@[simp] theorem setReg_mem (s : State) (r : Reg) (v : Word) : (s.setReg r v).mem = s.mem := rfl

@[simp] theorem setReg_flags (s : State) (r : Reg) (v : Word) :
    (s.setReg r v).flags = s.flags := rfl

@[simp] theorem setReg_same (s : State) (r : Reg) (v : Word) : (s.setReg r v).regs r = v := by
  simp [setReg]

theorem setReg_of_ne (s : State) {r r' : Reg} (v : Word) (h : r' ≠ r) :
    (s.setReg r v).regs r' = s.regs r' := by
  simp [setReg, Function.update_of_ne h]

/-- The address of a memory operand. -/
def address (s : State) (base : Reg) (disp : Word) : Word := s.regs base + disp

/-- Read a 64-bit operand. -/
def read (s : State) : Operand → Word
  | .reg r => s.regs r
  | .mem base disp => read64 s.mem (s.address base disp)

/-- Write a 64-bit operand. -/
def write (s : State) (o : Operand) (v : Word) : State :=
  match o with
  | .reg r => s.setReg r v
  | .mem base disp => { s with mem := writeLow s.mem (s.address base disp) 8 v }

/-- Write the low byte of an operand. -/
def writeByte (s : State) (o : Operand) (v : Word) : State :=
  match o with
  | .reg r => s.setReg r (replaceLow 1 (s.regs r) v)
  | .mem base disp => { s with mem := writeLow s.mem (s.address base disp) 1 v }

/-- Write the low 32 bits of an operand; a register write clears the upper half. -/
def writeDword (s : State) (o : Operand) (v : Word) : State :=
  match o with
  | .reg r => s.setReg r ((v.setWidth 32).setWidth 64)
  | .mem base disp => { s with mem := writeLow s.mem (s.address base disp) 4 v }

/-- Push a word. -/
def pushWord (s : State) (v : Word) : State :=
  let sp := s.regs .rsp - 8
  { s.setReg .rsp sp with mem := writeLow s.mem sp 8 v }

end State

/-- Zero and sign flag of a result. -/
def resultFlags (r : Word) (of : Bool) : Flags := ⟨r == 0, r.msb, of⟩

/-- The condition a `jcc` or `setcc` tests. -/
def Cond.holds (f : Flags) : Cond → Bool
  | .e => f.zf
  | .ne => !f.zf
  | .l => f.sf != f.of
  | .ge => f.sf == f.of
  | .le => f.zf || f.sf != f.of
  | .g => !f.zf && f.sf == f.of

/-- Result and flags of two-operand arithmetic. -/
def AluOp.eval (op : AluOp) (a b : Word) : Word × Flags :=
  match op with
  | .add => (a + b, resultFlags (a + b) (a.msb == b.msb && (a + b).msb != a.msb))
  | .sub | .cmp => (a - b, resultFlags (a - b) (a.msb != b.msb && (a - b).msb != a.msb))
  | .or => (a ||| b, resultFlags (a ||| b) false)
  | .and => (a &&& b, resultFlags (a &&& b) false)
  | .xor => (a ^^^ b, resultFlags (a ^^^ b) false)

/-- Shift by the six low bits of the count. -/
def ShiftOp.eval (op : ShiftOp) (a count : Word) : Word :=
  let n := count.toNat % 64
  match op with
  | .shl => a <<< n
  | .shr => a >>> n
  | .sar => a.sshiftRight n

/-- The signed 128-bit dividend of `idiv`. -/
def dividend (rdx rax : Word) : Int := rdx.toInt * 2 ^ 64 + rax.toNat

/-- `idiv`: quotient to `rax`, remainder to `rdx`; a zero divisor and a quotient
that does not fit trap. -/
def execIdiv (s : State) (d : Word) : Option State :=
  let n := dividend (s.regs .rdx) (s.regs .rax)
  if d = 0 then none
  else
    let q := n.tdiv d.toInt
    if q < -2 ^ 63 ∨ 2 ^ 63 ≤ q then none
    else some { (s.setReg .rax (BitVec.ofInt 64 q)).setReg .rdx
      (BitVec.ofInt 64 (n.tmod d.toInt)) with flags := none }

/-- Execute an instruction that falls through to the next one. -/
def exec (i : Instr) (s : State) : Option State :=
  match i with
  | .mov .qword dst src => some (s.write dst (s.regs src))
  | .mov .dword dst src => some (s.writeDword dst (s.regs src))
  | .mov .byte dst src => some (s.writeByte dst (s.regs src))
  | .load dst src => some (s.setReg dst (s.read src))
  | .movImm dst imm => some (s.setReg dst imm)
  | .movzx8 dst src => some (s.setReg dst (((s.read src).setWidth 8).setWidth 64))
  | .movsx8 dst src => some (s.setReg dst (signExtendLow 1 (s.read src)))
  | .movsxd dst src => some (s.setReg dst (signExtendLow 4 (s.read src)))
  | .lea dst base disp => some (s.setReg dst (s.address base disp))
  | .alu op dst src =>
      let (r, f) := op.eval (s.read dst) (s.regs src)
      some { (if op = .cmp then s else s.write dst r) with flags := some f }
  | .aluImm op dst imm =>
      let (r, f) := op.eval (s.read dst) imm
      some { (if op = .cmp then s else s.write dst r) with flags := some f }
  | .test dst src =>
      some { s with flags := some (AluOp.eval .and (s.read dst) (s.regs src)).2 }
  | .imul dst src => some { s.setReg dst (s.regs dst * s.read src) with flags := none }
  | .unary .not dst => some (s.write dst (~~~(s.read dst)))
  | .unary .neg dst =>
      some { s.write dst (-(s.read dst)) with flags := some (AluOp.eval .sub 0 (s.read dst)).2 }
  | .unary .idiv dst => execIdiv s (s.read dst)
  | .shift op dst =>
      some { s.write dst (op.eval (s.read dst) (s.regs .rcx)) with flags := none }
  | .cqo => some (s.setReg .rdx (if (s.regs .rax).msb then BitVec.allOnes 64 else 0))
  | .setcc c dst =>
      match s.flags with
      | some f => some (s.writeByte dst (if c.holds f then 1 else 0))
      | none => none
  | .push r => some (s.pushWord (s.regs r))
  | .pop r =>
      let v := read64 s.mem (s.regs .rsp)
      some ((s.setReg .rsp (s.regs .rsp + 8)).setReg r v)
  | .jmp _ | .jcc _ _ | .call _ | .ret => none

/-- Execute instructions one after the other. -/
def execList : List Instr → State → Option State
  | [], s => some s
  | i :: is, s => (exec i s).bind (execList is)

@[simp] theorem execList_nil (s : State) : execList [] s = some s := rfl

theorem execList_cons (i : Instr) (is : List Instr) (s : State) :
    execList (i :: is) s = (exec i s).bind (execList is) := rfl

theorem execList_append (is js : List Instr) (s : State) :
    execList (is ++ js) s = (execList is s).bind (execList js) := by
  induction is generalizing s with
  | nil => rfl
  | cons i is ih =>
    simp only [List.cons_append, execList_cons, Option.bind_assoc]
    congr 1
    funext s'
    exact ih s'

/-! ## The machine -/

/-- A state with the address of the next instruction. -/
structure Machine where
  rip : Word
  state : State

/-- The longest instruction of the architecture. -/
def maxInstrLength : Nat := 15

/-- A conditional jump; `next` is the address after it. -/
def branch (next : Word) (c : Cond) (rel : BitVec 32) (s : State) : Option Machine :=
  match s.flags with
  | some f => some ⟨if c.holds f then next + rel.signExtend 64 else next, s⟩
  | none => none

/-- The control transfers; `next` is the address after the instruction. -/
def transfer (next : Word) (i : Instr) (s : State) : Option Machine :=
  match i with
  | .jmp rel => some ⟨next + rel.signExtend 64, s⟩
  | .jcc c rel => branch next c rel s
  | .call target => some ⟨s.read target, s.pushWord next⟩
  | .ret => some ⟨read64 s.mem (s.regs .rsp), s.setReg .rsp (s.regs .rsp + 8)⟩
  | _ => none

/-- Execute one instruction whose successor in memory is at `next`. -/
def stepInstr (next : Word) (i : Instr) (s : State) : Option Machine :=
  match exec i s with
  | some s' => some ⟨next, s'⟩
  | none => transfer next i s

/-- Instructions that `exec` executes fall through. -/
theorem stepInstr_of_exec {next : Word} {i : Instr} {s s' : State} (h : exec i s = some s') :
    stepInstr next i s = some ⟨next, s'⟩ := by
  simp only [stepInstr, h]

/-- Instructions that `exec` does not execute transfer control or stop. -/
theorem stepInstr_of_none {next : Word} {i : Instr} {s : State} (h : exec i s = none) :
    stepInstr next i s = transfer next i s := by
  simp only [stepInstr, h]

theorem stepInstr_jmp (next : Word) (rel : BitVec 32) (s : State) :
    stepInstr next (.jmp rel) s = some ⟨next + rel.signExtend 64, s⟩ := by
  rw [stepInstr_of_none (i := .jmp rel) rfl]
  rfl

theorem stepInstr_jcc {next : Word} {c : Cond} {rel : BitVec 32} {s : State} {f : Flags}
    (h : s.flags = some f) :
    stepInstr next (.jcc c rel) s =
      some ⟨if c.holds f then next + rel.signExtend 64 else next, s⟩ := by
  rw [stepInstr_of_none (i := .jcc c rel) rfl]
  show branch next c rel s = _
  simp only [branch, h]

theorem stepInstr_call (next : Word) (target : Operand) (s : State) :
    stepInstr next (.call target) s = some ⟨s.read target, s.pushWord next⟩ := by
  rw [stepInstr_of_none (i := .call target) rfl]
  rfl

theorem stepInstr_ret (next : Word) (s : State) :
    stepInstr next .ret s =
      some ⟨read64 s.mem (s.regs .rsp), s.setReg .rsp (s.regs .rsp + 8)⟩ := by
  rw [stepInstr_of_none (i := .ret) rfl]
  rfl

/-- Fetch, decode, execute. -/
def step (code : Mem) (m : Machine) : Option Machine :=
  match decode (readBytes code m.rip maxInstrLength) with
  | none => none
  | some (i, rest) =>
      stepInstr (m.rip + BitVec.ofNat 64 (maxInstrLength - rest.length)) i m.state

/-- Finitely many machine steps. -/
inductive Steps (code : Mem) : Machine → Machine → Prop
  | refl (m : Machine) : Steps code m m
  | cons {m₁ m₂ m₃ : Machine} (head : step code m₁ = some m₂) (tail : Steps code m₂ m₃) :
      Steps code m₁ m₃

theorem Steps.trans {code : Mem} {m₁ m₂ m₃ : Machine} (h₁ : Steps code m₁ m₂)
    (h₂ : Steps code m₂ m₃) : Steps code m₁ m₃ := by
  induction h₁ with
  | refl _ => exact h₂
  | cons head _ ih => exact .cons head (ih h₂)

theorem Steps.one {code : Mem} {m₁ m₂ : Machine} (h : step code m₁ = some m₂) :
    Steps code m₁ m₂ :=
  .cons h (.refl _)

/-! ## Executing code that is in memory -/

/-- The bytes `bs` are in code memory at `a`. -/
def CodeAt (code : Mem) (a : Word) (bs : List Byte) : Prop :=
  readBytes code a bs.length = bs

/-- The instruction at an address and where the next one starts, when the code
memory holds the bytes of an encoded instruction there. -/
theorem decode_at {code : Mem} {a : Word} (e : Encoded) (h : CodeAt code a e.bytes)
    (hlen : e.bytes.length ≤ maxInstrLength) :
    ∃ rest, decode (readBytes code a maxInstrLength) = some (e.instr, rest) ∧
      maxInstrLength - rest.length = e.bytes.length := by
  have hsplit : readBytes code a maxInstrLength =
      e.bytes ++ readBytes code (a + BitVec.ofNat 64 e.bytes.length)
        (maxInstrLength - e.bytes.length) := by
    have hsum : maxInstrLength = e.bytes.length + (maxInstrLength - e.bytes.length) := by omega
    conv => lhs; rw [hsum, readBytes_add, h]
  refine ⟨_, by rw [hsplit, e.decodes], ?_⟩
  simp
  omega

/-- A fetched instruction is executed with the address after its bytes as its
successor. -/
theorem step_at {code : Mem} {a : Word} {s : State} (e : Encoded)
    (h : CodeAt code a e.bytes) (hlen : e.bytes.length ≤ maxInstrLength) :
    step code ⟨a, s⟩ = stepInstr (a + BitVec.ofNat 64 e.bytes.length) e.instr s := by
  obtain ⟨rest, hdec, hrest⟩ := decode_at e h hlen
  simp only [step, hdec, hrest]

/-- A list of encoded instructions, each of a legal length. -/
def Fits (es : List Encoded) : Prop := ∀ e ∈ es, e.bytes.length ≤ maxInstrLength

end TinyCompile.X86
