import TinyCompile.Jit.Jumps

set_option autoImplicit false

/-!
# Jit: the bytes decode to the intended instructions

`Emission` pairs every emitter of `srcs/jit/emit.c` and every byte sequence the
encoders write themselves with the instruction it stands for.  Its bytes decode to
that instruction, and so the code of a function to its instructions.
-/

namespace TinyCompile.Jit

open TinyCompile.Machine TinyCompile.X86 TinyCompile.Source TinyCompile.Ir

/-! ## The instruction an emitter stands for -/

/-- A memory operand below or above the frame pointer. -/
def frameOperand (disp : BitVec 32) : Operand := .mem .rbp (disp.signExtend 64)

/-- The emitters, the inline byte sequences and what they stand for. -/
inductive Emission : Emitter → Instr → Prop
  -- `emit.c`
  | storeLocal (src : Reg) (disp : BitVec 32) :
      Emission (emitStoreLocal src disp) (.mov .qword (frameOperand disp) src)
  | loadParam (dst : Reg) (disp : BitVec 32) :
      Emission (emitLoadParam dst disp) (.load dst (frameOperand disp))
  | movImm (dst : Reg) (imm : Word) : Emission (emitMovImm dst imm) (.movImm dst imm)
  | alu (op : AluOp) (dst src : Reg) :
      Emission (emitAlu (aluOpcode op) dst src) (.alu op (.reg dst) src)
  | imul (dst src : Reg) : Emission (emitImulR64 dst src) (.imul dst (.reg src))
  | movRegReg (dst src : Reg) : Emission (emitMovRegReg dst src) (.mov .qword (.reg dst) src)
  | cmp (dst src : Reg) : Emission (emitCmp dst src) (.alu .cmp (.reg dst) src)
  | test (dst src : Reg) : Emission (emitTest dst src) (.test (.reg dst) src)
  | setcc (cc : Cond) (dst : Reg) : Emission (emitSetcc cc dst) (.setcc cc (.reg dst))
  | movzx (dst src : Reg) : Emission (emitMovzx dst src) (.movzx8 dst (.reg src))
  | push (reg : Reg) : Emission (emitPush reg) (.push reg)
  | pop (reg : Reg) : Emission (emitPop reg) (.pop reg)
  | loadByte (dst : Reg) (disp : BitVec 32) :
      Emission (emitLoadSignext dst .rbp disp 1) (.movsx8 dst (frameOperand disp))
  | loadDword (dst : Reg) (disp : BitVec 32) :
      Emission (emitLoadSignext dst .rbp disp 4) (.movsxd dst (frameOperand disp))
  | loadOther (dst : Reg) (disp : BitVec 32) (size : Nat) (h : size ≠ 1 ∧ size ≠ 4) :
      Emission (emitLoadSignext dst .rbp disp size) (.load dst (frameOperand disp))
  | storeByte (src : Reg) (disp : BitVec 32) :
      Emission (emitStoreSized src .rbp disp 1) (.mov .byte (frameOperand disp) src)
  | storeDword (src : Reg) (disp : BitVec 32) :
      Emission (emitStoreSized src .rbp disp 4) (.mov .dword (frameOperand disp) src)
  | storeOther (src : Reg) (disp : BitVec 32) (size : Nat) (h : size ≠ 1 ∧ size ≠ 4) :
      Emission (emitStoreSized src .rbp disp size) (.mov .qword (frameOperand disp) src)
  -- `encode_prologue`, `encode_call`
  | subRsp (imm : BitVec 32) :
      Emission (emitRspImm EXT_SUB imm) (.aluImm .sub (.reg .rsp) (imm.signExtend 64))
  | addRsp (imm : BitVec 32) :
      Emission (emitRspImm EXT_ADD imm) (.aluImm .add (.reg .rsp) (imm.signExtend 64))
  | callTarget (imm : Word) :
      Emission (fun o => o |> emitU8 REX_W |> emitU8 (MOV_IMM_R + Reg.rax.code) |> emitU64 imm)
        (.movImm .rax imm)
  | callRax :
      Emission (fun o => o |> emitU8 OP_CALL_IND
          |> emitU8 (MOD_REG ||| (EXT_CALL <<< 3) ||| Reg.rax.code))
        (.call (.reg .rax))
  -- `emit_jz_jnz`, `encode_not`
  | cmpRaxZero :
      Emission (fun o => o |> emitU8 REX_W |> emitU8 ALU_IMM8
          |> emitU8 (MOD_REG ||| (EXT_CMP <<< 3) ||| Reg.rax.code) |> emitU8 0x00)
        (.aluImm .cmp (.reg .rax) 0)
  -- `encode_div`, `encode_neg`, `encode_not_bitwise`
  | cqo : Emission (fun o => o |> emitU8 REX_W |> emitU8 OP_CQO) .cqo
  | idiv (divisor : Reg) :
      Emission (fun o => o
          |> emitU8 (if 8 ≤ divisor.code then REX_W ||| 0x01 else REX_W)
          |> emitU8 OP_IDIV
          |> emitU8 (MOD_REG ||| (EXT_IDIV <<< 3) ||| low3 divisor))
        (.unary .idiv (.reg divisor))
  | neg :
      Emission (fun o => o |> emitU8 REX_W |> emitU8 OP_IDIV
          |> emitU8 (MOD_REG ||| (EXT_NEG <<< 3) ||| Reg.rax.code))
        (.unary .neg (.reg .rax))
  | not :
      Emission (fun o => o |> emitU8 REX_W |> emitU8 OP_GRP3
          |> emitU8 (MOD_REG ||| (EXT_NOT <<< 3) ||| Reg.rax.code))
        (.unary .not (.reg .rax))
  -- `emit_shift_op`
  | shift (op : ShiftOp) :
      Emission (fun o => o |> emitU8 REX_W |> emitU8 OP_SHIFT_CL
          |> emitU8 (MOD_REG ||| (shiftExtension op <<< 3) ||| Reg.rax.code))
        (.shift op (.reg .rax))
  -- `encode_ret`
  | lea :
      Emission (fun o => o |> emitU8 REX_W |> emitU8 OP_LEA
          |> emitU8 (MOD_MEM_DISP8 ||| (Reg.rsp.code <<< 3) ||| Reg.rbp.code)
          |> emitU8 (-(BitVec.ofNat 8 calleeSavedSize)))
        (.lea .rsp .rbp (-(BitVec.ofNat 64 calleeSavedSize)))
  | ret : Emission (emitU8 OP_RET) .ret
  -- `emit_jump`
  | jmp (rel : BitVec 32) :
      Emission (fun o => o |> emitU8 OP_JMP_REL32 |> emitU32 rel) (.jmp rel)
  | jcc (c : Cond) (rel : BitVec 32) :
      Emission (fun o => o |> emitU8 OP_PREFIX_0F |> emitU8 (0x80 ||| conditionCode c)
          |> emitU32 rel)
        (.jcc c rel)

/-- An emitter writes the bytes of an encoded instruction. -/
theorem Emission.encoded {e : Emitter} {i : Instr} (h : Emission e i) :
    ∃ enc : Encoded, e = emitBytes enc.bytes ∧ enc.instr = i := by
  cases h with
  | storeLocal src disp => exact ⟨_, emitStoreLocal_eq src disp, rfl⟩
  | loadParam dst disp => exact ⟨_, emitLoadParam_eq dst disp, rfl⟩
  | movImm dst imm => exact ⟨_, emitMovImm_eq dst imm, rfl⟩
  | alu op dst src => exact ⟨_, emitAlu_eq op dst src, rfl⟩
  | imul dst src => exact ⟨_, emitImulR64_eq dst src, rfl⟩
  | movRegReg dst src => exact ⟨_, emitMovRegReg_eq dst src, rfl⟩
  | cmp dst src => exact ⟨_, emitCmp_eq dst src, rfl⟩
  | test dst src => exact ⟨_, emitTest_eq dst src, rfl⟩
  | setcc cc dst => exact ⟨_, emitSetcc_eq cc dst, rfl⟩
  | movzx dst src => exact ⟨_, emitMovzx_eq dst src, rfl⟩
  | push reg => exact ⟨_, emitPush_eq reg, rfl⟩
  | pop reg => exact ⟨_, emitPop_eq reg, rfl⟩
  | loadByte dst disp => exact ⟨_, emitLoadSignext_eq dst disp 1, rfl⟩
  | loadDword dst disp => exact ⟨_, emitLoadSignext_eq dst disp 4, rfl⟩
  | loadOther dst disp size h =>
    refine ⟨_, emitLoadSignext_eq dst disp size, ?_⟩
    rw [loadSignext, if_neg h.1, if_neg h.2]
    rfl
  | storeByte src disp => exact ⟨_, emitStoreSized_eq src disp 1, rfl⟩
  | storeDword src disp => exact ⟨_, emitStoreSized_eq src disp 4, rfl⟩
  | storeOther src disp size h =>
    refine ⟨_, emitStoreSized_eq src disp size, ?_⟩
    rw [storeSized, if_neg h.1, if_neg h.2]
    rfl
  | subRsp imm => exact ⟨_, funext (emitRspImm_sub imm), rfl⟩
  | addRsp imm => exact ⟨_, funext (emitRspImm_add imm), rfl⟩
  | callTarget imm =>
    refine ⟨Jit.movImm .rax imm, ?_, rfl⟩
    funext o
    simp only [emitU64_eq, Jit.movImm, emitBytes_cons]
    rfl
  | callRax => exact ⟨Jit.callRax, rfl, rfl⟩
  | cmpRaxZero => exact ⟨Jit.cmpRaxZero, rfl, rfl⟩
  | cqo => exact ⟨Jit.cqo, rfl, rfl⟩
  | idiv divisor => exact ⟨Jit.idiv divisor, rfl, rfl⟩
  | neg => exact ⟨Jit.negRax, rfl, rfl⟩
  | not => exact ⟨Jit.notRax, rfl, rfl⟩
  | shift op => exact ⟨Jit.shiftRax op, rfl, rfl⟩
  | lea => exact ⟨Jit.leaRspSaved, rfl, rfl⟩
  | ret => exact ⟨Jit.ret, rfl, rfl⟩
  | jmp rel =>
    refine ⟨Jit.jmpRel rel, ?_, rfl⟩
    funext o
    simp only [emitU32_eq, Jit.jmpRel, emitBytes_cons]
  | jcc c rel =>
    refine ⟨Jit.jccRel c rel, ?_, rfl⟩
    funext o
    simp only [emitU32_eq, Jit.jccRel, emitBytes_cons]

/-! ## The instructions of a function -/

/-- The instruction of an item at an offset, if it has one. -/
def itemEncoded (items : List Item) (o : Nat) : Item → Option Encoded
  | .code e => some e
  | .jump c l =>
      let rel := BitVec.ofNat 32 (offsetOf items l) - BitVec.ofNat 32 (dispOffset o c + 4)
      some (match c with
        | none => jmpRel rel
        | some c => jccRel c rel)
  | .label _ => none
  | .callSite _ => some (movImm .rax callPlaceholder)

/-- The encoded instructions of some items. -/
def itemsEncoded (items : List Item) : List Encoded :=
  (layout 0 items).filterMap fun e => itemEncoded items e.1 e.2

/-- What a function is meant to execute: the prologue, then what the plan says for each
IR instruction. -/
def functionInstrs (ctx : JITContext) (f : IRFunction) (p : Nat) : List Instr :=
  (itemsEncoded (functionItems ctx f p)).map (·.instr)

theorem itemEncoded_bytes (items : List Item) (o : Nat) (item : Item) :
    ((itemEncoded items o item).map (·.bytes)).getD [] = itemBytes items o item := by
  cases item with
  | code e => rfl
  | jump c l => cases c <;> rfl
  | label l => rfl
  | callSite name => rfl

/-- The bytes of the items are those of their instructions. -/
theorem codeBytes_eq (items : List Item) :
    codeBytes items = (itemsEncoded items).flatMap (·.bytes) := by
  unfold codeBytes itemsEncoded
  generalize layout 0 items = entries
  induction entries with
  | nil => rfl
  | cons e entries ih =>
    rw [List.flatMap_cons, ih, ← itemEncoded_bytes]
    cases h : itemEncoded items e.1 e.2 with
    | none => simp [h]
    | some enc => simp [h]

theorem length_le_bytes (es : List Encoded) : es.length ≤ (es.flatMap (·.bytes)).length := by
  induction es with
  | nil => exact Nat.le_refl 0
  | cons e es ih =>
    have := List.length_pos_iff.mpr e.bytes_ne_nil
    rw [List.flatMap_cons, List.length_append, List.length_cons]
    omega

/-- The bytes of a function decode to its instructions. -/
theorem codeBytes_decode (ctx : JITContext) (f : IRFunction) (p : Nat) {fuel : Nat}
    (h : (codeBytes (functionItems ctx f p)).length ≤ fuel) :
    decodeAll fuel (codeBytes (functionItems ctx f p)) = some (functionInstrs ctx f p) := by
  rw [codeBytes_eq] at h ⊢
  exact decodeAll_encoded _ fuel (Nat.le_trans (length_le_bytes _) h)

/-! ## Encoding and decoding -/

/-- Every emission is decoded to its instruction, whatever follows, and takes exactly the
bytes that were counted; the code of a compiled function decodes to the instructions of
the function. -/
theorem encoding_decodes :
    (∀ e i, Emission e i → ∃ bs,
      (∀ size mem, e ⟨0, size, mem⟩ = ⟨0, size + bs.length, mem⟩) ∧
      (∀ curr size mem, curr ≠ 0 → curr.toNat + bs.length < 2 ^ 64 →
        e ⟨curr, size, mem⟩ =
          ⟨curr + BitVec.ofNat 64 bs.length, size + bs.length, writeBytes mem curr bs⟩) ∧
      ∀ rest, decode (bs ++ rest) = some (i, rest)) ∧
    ∀ fresh root errors filename g name p code s s' result,
      irGen fresh root errors filename = .ok (true, g) →
      jitCompileFunction g.f name p code s = some (.returned result, s') →
      result.code ≠ 0 → code.toNat + result.size < 2 ^ 64 →
      decodeAll result.size (readBytes s'.mem result.code result.size) =
        some (functionInstrs s.ctx g.f p) := by
  refine ⟨fun e i h => ?_, ?_⟩
  · obtain ⟨enc, rfl, rfl⟩ := h.encoded
    exact ⟨enc.bytes, emitBytes_null enc.bytes, emitBytes_write enc.bytes, enc.decodes⟩
  · intro fresh root errors filename g name p code s s' result hgen hcompiled hresult hfits
    obtain ⟨hlabels, hlimit⟩ := irGen_labels hgen
    obtain ⟨h, rfl, rfl⟩ := compiled_registered hcompiled hresult hlimit
    have hbytes := compiled_bytes h hlabels (s := s) ⟨hresult, hfits⟩
    show decodeAll _ (readBytes (compiledState code g.f p s).mem code _) = _
    rw [hbytes]
    apply codeBytes_decode
    apply Nat.le_of_eq
    rw [codeBytes_length, functionItems_size]

theorem encoding_decodes_returnZero :
    (∃ bs, ∀ rest, decode (bs ++ rest) = some (.imul .r12 (.reg .rcx), rest)) ∧
      ∃ g result s', irGen .zeroed returnZero .init none = .ok (true, g) ∧
        jitCompileFunction g.f (svOf "main") 0 0x1000#64 ⟨jitCtxInit, fun _ => 0⟩ =
          some (.returned result, s') ∧
        decodeAll result.size (readBytes s'.mem result.code result.size) =
          some (functionInstrs jitCtxInit g.f 0) := by
  obtain ⟨bs, -, -, hbs⟩ := encoding_decodes.1 _ _ (.imul .r12 .rcx)
  obtain ⟨g, hgen, herrors, hlabels⟩ :=
    exists_of_generates (show generates .zeroed returnZero .init none = true by decide +kernel)
  obtain ⟨hf, -, -, -⟩ := irGen_wellFormed hgen herrors
  have h := wellFormed_compilable hf hlabels
  obtain ⟨s', hcompiled⟩ := jitCompileFunction_registers h hf.limit (svOf "main") 0x1000#64
    (s := ⟨jitCtxInit, fun _ => 0⟩) (by decide)
  have hsize := functionSize_le h hf.limit jitCtxInit
  have hzero : returnZero.params.length = 0 := rfl
  rw [hzero] at hcompiled hsize
  generalize functionSize jitCtxInit g.f 0 = size at hcompiled hsize
  have hfits : (0x1000#64 : Ptr).toNat + size < 2 ^ 64 := by
    have hbase : (0x1000#64 : Ptr).toNat = 0x1000 := rfl
    omega
  exact ⟨⟨bs, hbs⟩, g, ⟨_, size⟩, s', hgen, hcompiled,
    encoding_decodes.2 .zeroed returnZero .init none g (svOf "main") 0 0x1000#64
      ⟨jitCtxInit, fun _ => 0⟩ s' ⟨_, size⟩ hgen hcompiled
      (show (0x1000#64 : Ptr) ≠ 0 by decide) hfits⟩

end TinyCompile.Jit
