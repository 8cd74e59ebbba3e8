import TinyCompile.Jit.Emit

set_option autoImplicit false

/-!
# Jit: what the emitters mean

For every emitter the intended instruction, its bytes and the proof that they
decode to it, as a value of `Encoded`; and the proof that the emitter writes
exactly these bytes.
-/

namespace TinyCompile.Jit

open TinyCompile.Machine TinyCompile.X86

/-! ## Emitting a byte sequence -/

/-- `emit_u8` for each byte. -/
def emitBytes (bs : List Byte) : Emitter := fun o => bs.foldl (fun o b => emitU8 b o) o

@[simp] theorem emitBytes_nil (o : Out) : emitBytes [] o = o := rfl

theorem emitBytes_cons (b : Byte) (bs : List Byte) (o : Out) :
    emitBytes (b :: bs) o = emitBytes bs (emitU8 b o) := rfl

theorem emitBytes_append (bs cs : List Byte) (o : Out) :
    emitBytes (bs ++ cs) o = emitBytes cs (emitBytes bs o) := by
  simp [emitBytes]

/-- Every byte is counted, written or not. -/
theorem emitU8_size (b : Byte) (o : Out) : (emitU8 b o).size = o.size + 1 := by
  unfold emitU8
  split <;> rfl

theorem emitBytes_size (bs : List Byte) (o : Out) :
    (emitBytes bs o).size = o.size + bs.length := by
  induction bs generalizing o with
  | nil => rfl
  | cons b bs ih =>
    rw [emitBytes_cons, ih, emitU8_size, List.length_cons]
    omega

/-- With a null pointer bytes are only counted. -/
theorem emitBytes_null (bs : List Byte) (size : Nat) (mem : Mem) :
    emitBytes bs ⟨0, size, mem⟩ = ⟨0, size + bs.length, mem⟩ := by
  induction bs generalizing size with
  | nil => rfl
  | cons b bs ih =>
    have hstep : emitU8 b ⟨0, size, mem⟩ = ⟨0, size + 1, mem⟩ := rfl
    rw [emitBytes_cons, hstep, ih, List.length_cons]
    congr 1
    omega

/-- Into a buffer that does not wrap bytes are written one after the other. -/
theorem emitBytes_write (bs : List Byte) (curr : Ptr) (size : Nat) (mem : Mem)
    (h0 : curr ≠ 0) (hwrap : curr.toNat + bs.length < 2 ^ 64) :
    emitBytes bs ⟨curr, size, mem⟩ =
      ⟨curr + BitVec.ofNat 64 bs.length, size + bs.length, writeBytes mem curr bs⟩ := by
  induction bs generalizing curr size mem with
  | nil => simp [writeBytes]
  | cons b bs ih =>
    rw [List.length_cons] at hwrap ⊢
    have hstep : emitU8 b ⟨curr, size, mem⟩ =
        ⟨curr + 1, size + 1, Function.update mem curr b⟩ := by
      simp only [emitU8]
      rw [if_pos h0]
    have hnext : curr + 1 ≠ 0 := by
      intro h
      have : (curr + 1).toNat = 0 := by rw [h]; rfl
      bv_omega
    have hlen : (curr + 1).toNat + bs.length < 2 ^ 64 := by bv_omega
    rw [emitBytes_cons, hstep, ih _ _ _ hnext hlen, add_ofNat_succ]
    congr 1
    omega

/-! ## Little-endian immediates -/

theorem emitU32_eq (val : BitVec 32) (o : Out) :
    emitU32 val o = emitBytes (leBytes 4 val.toNat) o := by
  have hbyte : ∀ k : Nat, ((val >>> k) &&& 0xFF#32).setWidth 8 =
      BitVec.ofNat 8 (val.toNat / 2 ^ k) := by
    intro k
    apply BitVec.eq_of_toNat_eq
    simp only [BitVec.toNat_setWidth, BitVec.toNat_and, BitVec.toNat_ushiftRight,
      BitVec.toNat_ofNat, Nat.shiftRight_eq_div_pow]
    have hand : val.toNat / 2 ^ k &&& 255 % 2 ^ 32 = val.toNat / 2 ^ k % 256 :=
      Nat.and_two_pow_sub_one_eq_mod _ 8
    rw [hand]
    omega
  have h0 : (val &&& 0xFF#32).setWidth 8 = BitVec.ofNat 8 val.toNat := by
    have := hbyte 0
    simpa using this
  have h8 := hbyte 8
  have h16 := hbyte 16
  have h24 := hbyte 24
  simp only [emitU32, leBytes, h0, h8, h16, h24, emitBytes_cons, emitBytes_nil,
    Nat.div_div_eq_div_mul, Nat.reduceMul, Nat.reducePow]

theorem emitU64_eq (val : Word) (o : Out) :
    emitU64 val o = emitBytes (leBytes 8 val.toNat) o := by
  have hlow : ((val &&& 0xFFFFFFFF#64).setWidth 32).toNat = val.toNat % 2 ^ 32 := by
    simp only [BitVec.toNat_setWidth, BitVec.toNat_and, BitVec.toNat_ofNat]
    have hand : val.toNat &&& 4294967295 % 2 ^ 64 = val.toNat % 2 ^ 32 :=
      Nat.and_two_pow_sub_one_eq_mod _ 32
    rw [hand]
    omega
  have hhigh : (((val >>> 32) &&& 0xFFFFFFFF#64).setWidth 32).toNat = val.toNat / 2 ^ 32 := by
    have hlt : val.toNat < 2 ^ 64 := val.isLt
    simp only [BitVec.toNat_setWidth, BitVec.toNat_and, BitVec.toNat_ofNat,
      BitVec.toNat_ushiftRight, Nat.shiftRight_eq_div_pow]
    have hand : val.toNat / 2 ^ 32 &&& 4294967295 % 2 ^ 64 = val.toNat / 2 ^ 32 % 2 ^ 32 :=
      Nat.and_two_pow_sub_one_eq_mod _ 32
    rw [hand]
    omega
  have hsplit : leBytes 8 val.toNat =
      leBytes 4 (val.toNat % 2 ^ 32) ++ leBytes 4 (val.toNat / 2 ^ 32) := by
    have hbyte : ∀ a b : Nat, a % 256 = b % 256 → BitVec.ofNat 8 a = BitVec.ofNat 8 b := by
      intro a b h
      apply BitVec.eq_of_toNat_eq
      simpa using h
    simp only [leBytes, List.cons_append, List.nil_append, List.cons.injEq, and_true]
    refine ⟨?_, ?_, ?_, ?_, ?_, ?_, ?_, ?_⟩ <;> apply hbyte <;> omega
  simp only [emitU64, emitU32_eq, hlow, hhigh]
  rw [← emitBytes_append, ← hsplit]

/-! ## Decoding the parts -/

theorem take32_leBytes (d : BitVec 32) (rest : List Byte) :
    take32 (leBytes 4 d.toNat ++ rest) = some (d, rest) := by
  have h := ofNat_leNat_leBytes_four d
  simp only [leBytes, List.cons_append, List.nil_append, take32] at h ⊢
  rw [h]

theorem take64_leBytes (d : Word) (rest : List Byte) :
    take64 (leBytes 8 d.toNat ++ rest) = some (d, rest) := by
  have h := ofNat_leNat_leBytes_eight d
  simp only [leBytes, List.cons_append, List.nil_append, take64] at h ⊢
  rw [h]

theorem rex_getRex (dst src : Reg) :
    Rex.ofByte (getRex dst src) = some ⟨true, src.ext, dst.ext⟩ := by
  cases dst <;> cases src <;> rfl

theorem decodeModRM_reg (w : Bool) (reg rm : Reg) (rest : List Byte) :
    decodeModRM ⟨w, reg.ext, rm.ext⟩
        ((MOD_REG ||| (low3 reg <<< 3) ||| low3 rm) :: rest) =
      some (⟨reg, reg.low, .reg rm⟩, rest) := by
  cases reg <;> cases rm <;> rfl

theorem decodeModRM_rbp (w : Bool) (reg : Reg) (disp : BitVec 32) (rest : List Byte) :
    decodeModRM ⟨w, reg.ext, false⟩
        ((MOD_MEM_DISP32 ||| (low3 reg <<< 3) ||| Reg.rbp.code) ::
          (leBytes 4 disp.toNat ++ rest)) =
      some (⟨reg, reg.low, .mem .rbp (disp.signExtend 64)⟩, rest) := by
  have h := take32_leBytes disp rest
  cases reg <;> simp only [decodeModRM, h] <;> rfl

/-- Opcodes that are followed by a ModRM byte and nothing else decides. -/
def takesModRM (op : Byte) : Bool :=
  op != 0x0F && op >>> 3 != 0x0A && op >>> 3 != 0x0B && op >>> 3 != 0x17 && op != 0x99 &&
    op != 0xC3 && op != 0xE9

/-- The opcode of an `op r/m64, r64`. -/
def aluOpcode : AluOp → Byte
  | .add => ALU_ADD
  | .or => ALU_OR
  | .and => ALU_AND
  | .sub => ALU_SUB
  | .xor => ALU_XOR
  | .cmp => ALU_CMP

theorem decodeOpcode_modRM {hasRex : Bool} {rex : Rex} {op : Byte} {bs : List Byte}
    (h : takesModRM op = true) :
    decodeOpcode hasRex rex (op :: bs) = decodeModRMOp hasRex rex op bs := by
  simp only [takesModRM, Bool.and_eq_true, bne_iff_ne, ne_eq] at h
  obtain ⟨⟨⟨⟨⟨⟨h₁, h₂⟩, h₃⟩, h₄⟩, h₅⟩, h₆⟩, h₇⟩ := h
  simp only [decodeOpcode, h₁, h₂, h₃, h₄, h₅, h₆, h₇, if_false]

theorem decodeOpcode_twoByte {hasRex : Bool} {rex : Rex} {bs : List Byte} :
    decodeOpcode hasRex rex (OP_PREFIX_0F :: bs) = decodeTwoByte hasRex rex bs := rfl

/-- An instruction with a prefix. -/
theorem decode_rex {b : Byte} {rex : Rex} {bs : List Byte} (h : Rex.ofByte b = some rex) :
    decode (b :: bs) = decodeOpcode true rex bs := by
  simp only [decode, h]

/-- An instruction without a prefix. -/
theorem decode_noRex {b : Byte} {bs : List Byte} (h : Rex.ofByte b = none) :
    decode (b :: bs) = decodeOpcode false Rex.absent (b :: bs) := by
  simp only [decode, h]

/-! ## The instructions of `emit.c` -/

/-- `mov dst, src`. -/
def movRegReg (dst src : Reg) : Encoded where
  instr := .mov .qword (.reg dst) src
  bytes := [getRex dst src, MOV_RM_R, MOD_REG ||| (low3 src <<< 3) ||| low3 dst]
  decodes := by
    intro rest
    have h := decodeModRM_reg true src dst rest
    refine (decode_rex (rex_getRex dst src)).trans ((decodeOpcode_modRM rfl).trans ?_)
    simp only [decodeModRMOp, List.append_eq, List.cons_append, List.nil_append, h]
    rfl

/-- `mov [rbp + disp], src`. -/
def storeLocal (src : Reg) (disp : BitVec 32) : Encoded where
  instr := .mov .qword (.mem .rbp (disp.signExtend 64)) src
  bytes := getRex .rax src :: MOV_RM_R ::
    (MOD_MEM_DISP32 ||| (low3 src <<< 3) ||| Reg.rbp.code) :: leBytes 4 disp.toNat
  decodes := by
    intro rest
    have h := decodeModRM_rbp true src disp rest
    refine (decode_rex (rex_getRex .rax src)).trans ((decodeOpcode_modRM rfl).trans ?_)
    show decodeModRMOp true ⟨true, src.ext, false⟩ _ (_ :: (_ ++ rest)) = _
    simp only [decodeModRMOp, h]
    rfl

/-- `mov dst, [rbp + disp]`. -/
def loadParam (dst : Reg) (disp : BitVec 32) : Encoded where
  instr := .load dst (.mem .rbp (disp.signExtend 64))
  bytes := getRex .rax dst :: MOV_R_RM ::
    (MOD_MEM_DISP32 ||| (low3 dst <<< 3) ||| Reg.rbp.code) :: leBytes 4 disp.toNat
  decodes := by
    intro rest
    have h := decodeModRM_rbp true dst disp rest
    refine (decode_rex (rex_getRex .rax dst)).trans ((decodeOpcode_modRM rfl).trans ?_)
    show decodeModRMOp true ⟨true, dst.ext, false⟩ _ (_ :: (_ ++ rest)) = _
    simp only [decodeModRMOp, h]
    rfl

/-- `mov dst, imm`. -/
def movImm (dst : Reg) (imm : Word) : Encoded where
  instr := .movImm dst imm
  bytes := getRex dst .rax :: (MOV_IMM_R + low3 dst) :: leBytes 8 imm.toNat
  decodes := by
    intro rest
    have h := take64_leBytes imm rest
    refine (decode_rex (rex_getRex dst .rax)).trans ?_
    show decodeOpcode true ⟨true, false, dst.ext⟩ (_ :: (_ ++ rest)) = _
    cases dst <;> simp only [decodeOpcode, h] <;> rfl

/-- Two-operand arithmetic on registers. -/
def aluRegReg (op : AluOp) (dst src : Reg) : Encoded where
  instr := .alu op (.reg dst) src
  bytes := [getRex dst src, aluOpcode op, MOD_REG ||| (low3 src <<< 3) ||| low3 dst]
  decodes := by
    intro rest
    have h := decodeModRM_reg true src dst rest
    refine (decode_rex (rex_getRex dst src)).trans ?_
    cases op <;> refine (decodeOpcode_modRM rfl).trans ?_ <;>
      simp only [decodeModRMOp, List.append_eq, List.cons_append, List.nil_append, h] <;> rfl

/-- `test dst, src`. -/
def testRegReg (dst src : Reg) : Encoded where
  instr := .test (.reg dst) src
  bytes := [getRex dst src, ALU_TEST, MOD_REG ||| (low3 src <<< 3) ||| low3 dst]
  decodes := by
    intro rest
    have h := decodeModRM_reg true src dst rest
    refine (decode_rex (rex_getRex dst src)).trans ((decodeOpcode_modRM rfl).trans ?_)
    simp only [decodeModRMOp, List.append_eq, List.cons_append, List.nil_append, h]
    rfl

/-- `imul dst, src`. -/
def imulRegReg (dst src : Reg) : Encoded where
  instr := .imul dst (.reg src)
  bytes := [getRex src dst, OP_IMUL_1, OP_IMUL_2, MOD_REG ||| (low3 dst <<< 3) ||| low3 src]
  decodes := by
    intro rest
    have h := decodeModRM_reg true dst src rest
    refine (decode_rex (rex_getRex src dst)).trans (decodeOpcode_twoByte.trans ?_)
    simp only [decodeTwoByte, List.append_eq, List.cons_append, List.nil_append, h]
    rfl

/-- The bytes of `setcc`. -/
def setccBytes (cc : Cond) (dst : Reg) : List Byte :=
  (if 8 ≤ dst.code ∨ (4 ≤ dst.code ∧ dst.code ≤ 7) then
      [if 8 ≤ dst.code then 0x40#8 ||| 0x01 else 0x40]
    else []) ++
    [OP_PREFIX_0F, 0x90#8 ||| conditionCode cc, MOD_REG ||| (0 <<< 3) ||| low3 dst]

/-- `setcc dst`. -/
def setcc (cc : Cond) (dst : Reg) : Encoded where
  instr := .setcc cc (.reg dst)
  bytes := setccBytes cc dst
  decodes := by cases cc <;> cases dst <;> exact fun _ => rfl

/-- `movzx dst, src`. -/
def movzxRegReg (dst src : Reg) : Encoded where
  instr := .movzx8 dst (.reg src)
  bytes := [getRex src dst, OP_PREFIX_0F, OP_MOVZX, MOD_REG ||| (low3 dst <<< 3) ||| low3 src]
  decodes := by
    intro rest
    have h := decodeModRM_reg true dst src rest
    refine (decode_rex (rex_getRex src dst)).trans (decodeOpcode_twoByte.trans ?_)
    simp only [decodeTwoByte, List.append_eq, List.cons_append, List.nil_append, h]
    rfl

/-- `push reg`. -/
def push (reg : Reg) : Encoded where
  instr := .push reg
  bytes := (if 8 ≤ reg.code then [REX_B] else []) ++ [OP_PUSH + low3 reg]
  decodes := by cases reg <;> exact fun _ => rfl

/-- `pop reg`. -/
def pop (reg : Reg) : Encoded where
  instr := .pop reg
  bytes := (if 8 ≤ reg.code then [REX_B] else []) ++ [OP_POP + low3 reg]
  decodes := by cases reg <;> exact fun _ => rfl

/-- The REX prefix that only extends a source register. -/
def extRex (rex : Byte) (src : Reg) : Byte := rex ||| (if 8 ≤ src.code then 4 else 0) ||| 0

theorem rex_extRex_wide (src : Reg) :
    Rex.ofByte (extRex REX_W src) = some ⟨true, src.ext, false⟩ := by
  cases src <;> rfl

theorem rex_extRex (src : Reg) : Rex.ofByte (extRex REX src) = some ⟨false, src.ext, false⟩ := by
  cases src <;> rfl

/-- `movsx dst, byte [rbp + disp]`. -/
def loadByte (dst : Reg) (disp : BitVec 32) : Encoded where
  instr := .movsx8 dst (.mem .rbp (disp.signExtend 64))
  bytes := extRex REX_W dst :: OP_PREFIX_0F :: OP_MOVSX_8 ::
    (MOD_MEM_DISP32 ||| (low3 dst <<< 3) ||| Reg.rbp.code) :: leBytes 4 disp.toNat
  decodes := by
    intro rest
    have h := decodeModRM_rbp true dst disp rest
    refine (decode_rex (rex_extRex_wide dst)).trans (decodeOpcode_twoByte.trans ?_)
    show decodeTwoByte true ⟨true, dst.ext, false⟩ (_ :: _ :: (_ ++ rest)) = _
    simp only [decodeTwoByte, h]
    rfl

/-- `movsxd dst, dword [rbp + disp]`. -/
def loadDword (dst : Reg) (disp : BitVec 32) : Encoded where
  instr := .movsxd dst (.mem .rbp (disp.signExtend 64))
  bytes := extRex REX_W dst :: OP_MOVSXD ::
    (MOD_MEM_DISP32 ||| (low3 dst <<< 3) ||| Reg.rbp.code) :: leBytes 4 disp.toNat
  decodes := by
    intro rest
    have h := decodeModRM_rbp true dst disp rest
    refine (decode_rex (rex_extRex_wide dst)).trans ((decodeOpcode_modRM rfl).trans ?_)
    show decodeModRMOp true ⟨true, dst.ext, false⟩ _ (_ :: (_ ++ rest)) = _
    simp only [decodeModRMOp, h]
    rfl

/-- A load of a local of `size` bytes. -/
def loadSignext (dst : Reg) (disp : BitVec 32) (size : Nat) : Encoded :=
  if size = 1 then loadByte dst disp
  else if size = 4 then loadDword dst disp
  else loadParam dst disp

/-- `mov byte [rbp + disp], src`. -/
def storeByte (src : Reg) (disp : BitVec 32) : Encoded where
  instr := .mov .byte (.mem .rbp (disp.signExtend 64)) src
  bytes := extRex REX src :: MOV_RM_R8 ::
    (MOD_MEM_DISP32 ||| (low3 src <<< 3) ||| Reg.rbp.code) :: leBytes 4 disp.toNat
  decodes := by
    intro rest
    have h := decodeModRM_rbp false src disp rest
    refine (decode_rex (rex_extRex src)).trans ((decodeOpcode_modRM rfl).trans ?_)
    show decodeModRMOp true ⟨false, src.ext, false⟩ _ (_ :: (_ ++ rest)) = _
    simp only [decodeModRMOp, h]
    rfl

/-- `mov dword [rbp + disp], src`. -/
def storeDword (src : Reg) (disp : BitVec 32) : Encoded where
  instr := .mov .dword (.mem .rbp (disp.signExtend 64)) src
  bytes := (if 8 ≤ src.code then [0x44#8] else []) ++ MOV_RM_R ::
    (MOD_MEM_DISP32 ||| (low3 src <<< 3) ||| Reg.rbp.code) :: leBytes 4 disp.toNat
  decodes := by
    intro rest
    have h := decodeModRM_rbp false src disp rest
    have hlow : ∀ src : Reg, ¬ 8 ≤ src.code → src.ext = false := by
      intro src
      cases src <;> decide
    have hhigh : ∀ src : Reg, 8 ≤ src.code → src.ext = true := by
      intro src
      cases src <;> decide
    by_cases hext : 8 ≤ src.code
    · rw [hhigh src hext] at h
      rw [if_pos hext]
      show decodeModRMOp true ⟨false, true, false⟩ _ (_ :: (_ ++ rest)) = _
      simp only [decodeModRMOp, h]
      rfl
    · rw [hlow src hext] at h
      rw [if_neg hext]
      show decodeModRMOp false ⟨false, false, false⟩ _ (_ :: (_ ++ rest)) = _
      simp only [decodeModRMOp, h]
      rfl

/-- A store of a local of `size` bytes. -/
def storeSized (src : Reg) (disp : BitVec 32) (size : Nat) : Encoded :=
  if size = 1 then storeByte src disp
  else if size = 4 then storeDword src disp
  else storeLocal src disp

/-! ## The instructions written byte by byte -/

/-- `op rsp, imm` with the extension `ext` of `op`. -/
def rspImmBytes (ext : Byte) (imm : BitVec 32) : List Byte :=
  REX_W :: ALU_IMM :: (MOD_REG ||| (ext <<< 3) ||| Reg.rsp.code) :: leBytes 4 imm.toNat

/-- `sub rsp, imm`. -/
def subRsp (imm : BitVec 32) : Encoded where
  instr := .aluImm .sub (.reg .rsp) (imm.signExtend 64)
  bytes := rspImmBytes EXT_SUB imm
  decodes := by
    intro rest
    have h := take32_leBytes imm rest
    show decodeModRMOp true ⟨true, false, false⟩ ALU_IMM
      ((MOD_REG ||| (EXT_SUB <<< 3) ||| Reg.rsp.code) :: (leBytes 4 imm.toNat ++ rest)) = _
    have hm : decodeModRM ⟨true, false, false⟩
        ((MOD_REG ||| (EXT_SUB <<< 3) ||| Reg.rsp.code) :: (leBytes 4 imm.toNat ++ rest)) =
      some (⟨.rbp, 5, .reg .rsp⟩, leBytes 4 imm.toNat ++ rest) := rfl
    simp only [decodeModRMOp, hm, h]
    rfl

/-- `add rsp, imm`. -/
def addRsp (imm : BitVec 32) : Encoded where
  instr := .aluImm .add (.reg .rsp) (imm.signExtend 64)
  bytes := rspImmBytes EXT_ADD imm
  decodes := by
    intro rest
    have h := take32_leBytes imm rest
    show decodeModRMOp true ⟨true, false, false⟩ ALU_IMM
      ((MOD_REG ||| (EXT_ADD <<< 3) ||| Reg.rsp.code) :: (leBytes 4 imm.toNat ++ rest)) = _
    have hm : decodeModRM ⟨true, false, false⟩
        ((MOD_REG ||| (EXT_ADD <<< 3) ||| Reg.rsp.code) :: (leBytes 4 imm.toNat ++ rest)) =
      some (⟨.rax, 0, .reg .rsp⟩, leBytes 4 imm.toNat ++ rest) := rfl
    simp only [decodeModRMOp, hm, h]
    rfl

/-- `cmp rax, 0`. -/
def cmpRaxZero : Encoded where
  instr := .aluImm .cmp (.reg .rax) 0
  bytes := [REX_W, ALU_IMM8, MOD_REG ||| (EXT_CMP <<< 3) ||| Reg.rax.code, 0x00]
  decodes := fun _ => rfl

/-- `cqo`. -/
def cqo : Encoded where
  instr := .cqo
  bytes := [REX_W, OP_CQO]
  decodes := fun _ => rfl

/-- The prefix of `idiv`. -/
def idivRex (divisor : Reg) : Byte := if 8 ≤ divisor.code then REX_W ||| 0x01 else REX_W

/-- `idiv divisor`. -/
def idiv (divisor : Reg) : Encoded where
  instr := .unary .idiv (.reg divisor)
  bytes := [idivRex divisor, OP_IDIV, MOD_REG ||| (EXT_IDIV <<< 3) ||| low3 divisor]
  decodes := by cases divisor <;> exact fun _ => rfl

/-- `neg rax`. -/
def negRax : Encoded where
  instr := .unary .neg (.reg .rax)
  bytes := [REX_W, OP_IDIV, MOD_REG ||| (EXT_NEG <<< 3) ||| Reg.rax.code]
  decodes := fun _ => rfl

/-- `not rax`. -/
def notRax : Encoded where
  instr := .unary .not (.reg .rax)
  bytes := [REX_W, OP_GRP3, MOD_REG ||| (EXT_NOT <<< 3) ||| Reg.rax.code]
  decodes := fun _ => rfl

/-- The extension of a shift. -/
def shiftExtension : ShiftOp → Byte
  | .shl => EXT_SHL
  | .shr => EXT_SHR
  | .sar => EXT_SAR

/-- A shift of `rax` by `cl`. -/
def shiftRax (op : ShiftOp) : Encoded where
  instr := .shift op (.reg .rax)
  bytes := [REX_W, OP_SHIFT_CL, MOD_REG ||| (shiftExtension op <<< 3) ||| Reg.rax.code]
  decodes := by cases op <;> exact fun _ => rfl

/-- `call rax`. -/
def callRax : Encoded where
  instr := .call (.reg .rax)
  bytes := [OP_CALL_IND, MOD_REG ||| (EXT_CALL <<< 3) ||| Reg.rax.code]
  decodes := fun _ => rfl

/-- `lea rsp, [rbp - CALLEE_SAVED_SIZE]`. -/
def leaRspSaved : Encoded where
  instr := .lea .rsp .rbp (BitVec.signExtend 64 (-40 : Byte))
  bytes := [REX_W, OP_LEA, MOD_MEM_DISP8 ||| (Reg.rsp.code <<< 3) ||| Reg.rbp.code, -40]
  decodes := fun _ => rfl

/-- `ret`. -/
def ret : Encoded where
  instr := .ret
  bytes := [OP_RET]
  decodes := fun _ => rfl

/-- `jmp rel`. -/
def jmpRel (rel : BitVec 32) : Encoded where
  instr := .jmp rel
  bytes := OP_JMP_REL32 :: leBytes 4 rel.toNat
  decodes := by
    intro rest
    have h := take32_leBytes rel rest
    show (match take32 (leBytes 4 rel.toNat ++ rest) with
      | some (rel, rest) => some (Instr.jmp rel, rest)
      | none => none) = _
    rw [h]

/-- `jcc rel`. -/
def jccRel (c : Cond) (rel : BitVec 32) : Encoded where
  instr := .jcc c rel
  bytes := OP_PREFIX_0F :: (0x80 ||| conditionCode c) :: leBytes 4 rel.toNat
  decodes := by
    intro rest
    have h := take32_leBytes rel rest
    refine (decode_noRex (by decide)).trans (decodeOpcode_twoByte.trans ?_)
    show decodeTwoByte false Rex.absent
      ((0x80#8 ||| conditionCode c) :: (leBytes 4 rel.toNat ++ rest)) = _
    cases c <;> simp only [decodeTwoByte, h] <;> rfl

/-! ## The emitters write these bytes -/

theorem emitStoreLocal_eq (src : Reg) (disp : BitVec 32) :
    emitStoreLocal src disp = emitBytes (storeLocal src disp).bytes := by
  funext o
  simp only [emitStoreLocal, emitU32_eq, storeLocal, emitBytes_cons]

theorem emitLoadParam_eq (dst : Reg) (disp : BitVec 32) :
    emitLoadParam dst disp = emitBytes (loadParam dst disp).bytes := by
  funext o
  simp only [emitLoadParam, emitU32_eq, loadParam, emitBytes_cons]

theorem emitMovImm_eq (dst : Reg) (imm : Word) :
    emitMovImm dst imm = emitBytes (movImm dst imm).bytes := by
  funext o
  simp only [emitMovImm, emitU64_eq, movImm, emitBytes_cons]

theorem emitAlu_eq (op : AluOp) (dst src : Reg) :
    emitAlu (aluOpcode op) dst src = emitBytes (aluRegReg op dst src).bytes := by
  funext o
  simp only [emitAlu, aluRegReg, emitBytes_cons, emitBytes_nil]

theorem emitMovRegReg_eq (dst src : Reg) :
    emitMovRegReg dst src = emitBytes (movRegReg dst src).bytes := by
  funext o
  simp only [emitMovRegReg, emitAlu, movRegReg, emitBytes_cons, emitBytes_nil]

theorem emitCmp_eq (dst src : Reg) :
    emitCmp dst src = emitBytes (aluRegReg .cmp dst src).bytes :=
  emitAlu_eq .cmp dst src

theorem emitTest_eq (dst src : Reg) :
    emitTest dst src = emitBytes (testRegReg dst src).bytes := by
  funext o
  simp only [emitTest, emitAlu, testRegReg, emitBytes_cons, emitBytes_nil]

theorem emitImulR64_eq (dst src : Reg) :
    emitImulR64 dst src = emitBytes (imulRegReg dst src).bytes := by
  funext o
  simp only [emitImulR64, imulRegReg, emitBytes_cons, emitBytes_nil]

theorem emitSetcc_eq (cc : Cond) (dst : Reg) :
    emitSetcc cc dst = emitBytes (setcc cc dst).bytes := by
  funext o
  simp only [emitSetcc, setcc, setccBytes]
  split <;> rfl

theorem emitMovzx_eq (dst src : Reg) :
    emitMovzx dst src = emitBytes (movzxRegReg dst src).bytes := by
  funext o
  simp only [emitMovzx, movzxRegReg, getRex, emitBytes_cons, emitBytes_nil]

theorem emitPush_eq (reg : Reg) : emitPush reg = emitBytes (push reg).bytes := by
  funext o
  simp only [emitPush, push]
  split <;> rfl

theorem emitPop_eq (reg : Reg) : emitPop reg = emitBytes (pop reg).bytes := by
  funext o
  simp only [emitPop, pop]
  split <;> rfl

theorem emitLoadSignext_eq (dst : Reg) (disp : BitVec 32) (size : Nat) :
    emitLoadSignext dst .rbp disp size = emitBytes (loadSignext dst disp size).bytes := by
  funext o
  simp only [emitLoadSignext, loadSignext]
  by_cases h1 : size = 1
  · simp only [h1, true_or, if_true, emitU32_eq, loadByte, emitBytes_cons]
    rfl
  · by_cases h4 : size = 4
    · subst h4
      simp only [h1, or_true, if_true, if_false, emitU32_eq, loadDword, emitBytes_cons]
      rfl
    · simp only [h1, h4, or_self, if_false, emitLoadParam_eq]

theorem emitStoreSized_eq (src : Reg) (disp : BitVec 32) (size : Nat) :
    emitStoreSized src .rbp disp size = emitBytes (storeSized src disp size).bytes := by
  funext o
  simp only [emitStoreSized, storeSized]
  by_cases h1 : size = 1
  · simp only [h1, if_true, emitU32_eq, storeByte, emitBytes_cons]
    cases src <;> rfl
  · by_cases h4 : size = 4
    · subst h4
      simp only [h1, if_true, if_false, emitU32_eq, storeDword, emitBytes_append,
        emitBytes_cons]
      cases src <;> rfl
    · simp only [h1, h4, if_false, emitStoreLocal_eq]

end TinyCompile.Jit
