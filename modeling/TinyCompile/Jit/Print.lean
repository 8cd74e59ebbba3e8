import TinyCompile.Jit.Agree

set_option autoImplicit false

/-!
# Jit: printing the IR

`srcs/ir/ir_print.c`, which `jit_compile_pass` runs on every function.  What is printed is a
list, an entry for each call of `printf`.  The rest of a title line is drawn by a loop whose
bound is a difference of unsigned numbers.
-/

namespace TinyCompile.Jit

open TinyCompile.Source TinyCompile.Ir

/-! ## The tables -/

/-- `IROpcodeFormat`; no opcode has the format `FMT_NONE`. -/
inductive IROpcodeFormat where
  | bin | unary | imm | call | arg | jump | branch | label
  deriving DecidableEq, Repr

/-- `ir_opcode_name`. -/
def irOpcodeName : IROpcode → String
  | .add => "ADD"
  | .sub => "SUB"
  | .mul => "MUL"
  | .div => "DIV"
  | .eq => "EQ"
  | .neq => "NEQ"
  | .lt => "LT"
  | .le => "LE"
  | .gt => "GT"
  | .ge => "GE"
  | .lshift => "SHL"
  | .rshift => "SAR"
  | .urshift => "SHR"
  | .band => "AND"
  | .bor => "OR"
  | .bxor => "XOR"
  | .bnot => "NOT"
  | .neg => "NEG"
  | .not => "NOT"
  | .mov => "MOV"
  | .load => "LOAD"
  | .store => "STORE"
  | .const => "CONST"
  | .arg => "ARG"
  | .label => "LABEL"
  | .jmp => "JMP"
  | .jz => "JZ"
  | .jnz => "JNZ"
  | .call => "CALL"
  | .ret => "RET"

/-- `ir_opcode_format`. -/
def irOpcodeFormat : IROpcode → IROpcodeFormat
  | .add | .sub | .mul | .div | .eq | .neq | .lt | .le | .gt | .ge | .lshift | .rshift
  | .urshift | .band | .bor | .bxor | .load | .store => .bin
  | .bnot | .neg | .not | .mov | .ret => .unary
  | .const => .imm
  | .arg => .arg
  | .label => .label
  | .jmp => .jump
  | .jz | .jnz => .branch
  | .call => .call

/-! ## Formatting -/

/-- `INST_BUF_SIZE`. -/
def instBufSize : Nat := 128

/-- What `snprintf` leaves in a buffer of `size` bytes. -/
def snprintf (size : Nat) (text : String) : String := String.ofList (text.toList.take (size - 1))

/-- The length of a string view, cast to `int`. -/
def precision (sv : StringView) : Int := (BitVec.ofNat 32 sv.length).toInt

/-- `%.*s` with that precision, up to a zero byte.  A negative precision counts as none; what
is then printed behind the view does not fit the buffers any more. -/
def precisionText (sv : StringView) : String :=
  svText ((if precision sv < 0 then sv else sv.take (precision sv).toNat).takeWhile (· != 0))

/-- A virtual register, `%%v%zu`. -/
def vregText (reg : Nat) : String := "%v" ++ toString reg

/-- `format_instruction`. -/
def formatInstruction (inst : IRInstruction) : String :=
  let name := irOpcodeName inst.opcode
  snprintf instBufSize
    (match irOpcodeFormat inst.opcode with
    | .bin =>
        vregText inst.dest ++ " = " ++ name ++ " " ++ vregText inst.src1 ++ ", " ++
          vregText inst.src2
    | .unary =>
        if inst.opcode = .ret then name ++ " " ++ vregText inst.src1
        else vregText inst.dest ++ " = " ++ name ++ " " ++ vregText inst.src1
    | .imm => vregText inst.dest ++ " = " ++ name ++ " " ++ toString inst.imm.toInt
    | .arg => name ++ " " ++ toString inst.imm.toInt ++ " = " ++ vregText inst.src1
    | .call => vregText inst.dest ++ " = " ++ name ++ " " ++ precisionText inst.funcName
    | .label => "L" ++ toString inst.labelId ++ ":"
    | .jump => name ++ " L" ++ toString inst.labelId
    | .branch => name ++ " " ++ vregText inst.src1 ++ ", L" ++ toString inst.labelId)

/-! ## The box -/

/-- `BOX_H`, `BOX_V` and the corners of `layout.h`. -/
def boxH : String := "═"

def boxV : String := "║"

/-- `CYAN`. -/
def cyan : String := "\x1b[0;36m"

/-- `RESET`. -/
def reset : String := "\x1b[0m"

/-- The formatted title. -/
def titleText (name : StringView) : String :=
  snprintf instBufSize (" IR DUMP (" ++ precisionText name ++ ") ")

/-- `39 - len - 1`, as a `size_t`. -/
def titleBound (len : Nat) : BitVec 64 := 39 - BitVec.ofNat 64 len - 1

/-- `print_jit_ir_box_start`. -/
def printJitIrBoxStart (name : StringView) : List String :=
  ["\n  " ++ cyan ++ "╔" ++ titleText name, boxH] ++
    List.replicate (titleBound (titleText name).length).toNat boxH ++ ["╗" ++ reset ++ "\n"]

/-- A number with at least four digits, `%04zu`. -/
def fourDigits (n : Nat) : String := "".pushn '0' (4 - (toString n).length) ++ toString n

/-- `print_jit_ir_line`. -/
def printJitIrLine (lineNum : Nat) (instruction : String) : String :=
  "  " ++ cyan ++ boxV ++ reset ++ " " ++ fourDigits lineNum ++ " | " ++
    instruction.rightpad 30 ' ' ++ " " ++ cyan ++ boxV ++ reset ++ "\n"

/-- `print_jit_ir_box_end`. -/
def printJitIrBoxEnd : List String :=
  ["  " ++ cyan ++ "╚"] ++ List.replicate 39 boxH ++ ["╝" ++ reset ++ "\n"]

/-- `ir_print`. -/
def irPrint (f : IRFunction) : List String :=
  printJitIrBoxStart f.name ++
    (f.instructions.mapIdx fun idx inst => printJitIrLine idx (formatInstruction inst)) ++
    printJitIrBoxEnd

/-! ## How much is printed -/

theorem length_snprintf (size : Nat) (text : String) :
    (snprintf size text).length = min (size - 1) text.length := by
  simp [snprintf, String.length]

theorem precisionText_length {sv : StringView} (h : 0 ∉ sv) :
    (precisionText sv).length =
      if precision sv < 0 then sv.length else min (precision sv).toNat sv.length := by
  have hall : ∀ bytes : List UInt8, 0 ∉ bytes → bytes.takeWhile (· != 0) = bytes := by
    intro bytes hbytes
    refine List.takeWhile_eq_self_iff.mpr fun b hb => ?_
    simp only [bne_iff_ne, ne_eq]
    rintro rfl
    exact hbytes hb
  unfold precisionText
  split
  · rw [hall sv h]
    simp [svText]
  · rw [hall _ fun hmem => h (List.mem_of_mem_take hmem)]
    simp [svText]

/-- The precision is the length as long as that fits an `int`, and wraps with it. -/
theorem precision_cases (sv : StringView) :
    precision sv < 0 ∧ 2 ^ 31 ≤ sv.length % 2 ^ 32 ∨
      precision sv = (sv.length % 2 ^ 32 : Nat) ∧ sv.length % 2 ^ 32 < 2 ^ 31 := by
  unfold precision
  rw [BitVec.toInt_eq_toNat_cond, BitVec.toNat_ofNat]
  split <;> omega

/-- What is printed of the name leaves room for the rest of the title line. -/
def PrintableName (name : StringView) : Prop := (precisionText name).length ≤ 26

instance (name : StringView) : Decidable (PrintableName name) :=
  inferInstanceAs (Decidable (_ ≤ _))

theorem titleText_length (name : StringView) :
    (titleText name).length = min 127 (12 + (precisionText name).length) := by
  unfold titleText
  rw [length_snprintf]
  simp only [instBufSize, String.length_append]
  have hopen : " IR DUMP (".length = 10 := by decide
  have hclose : ") ".length = 2 := by decide
  omega

theorem titleText_printable (name : StringView) :
    (titleText name).length ≤ 38 ↔ PrintableName name := by
  rw [titleText_length, PrintableName]
  omega

/-- A name without zero bytes is printable by its length, which is cast to `int`. -/
theorem printableName_iff {name : StringView} (h : 0 ∉ name) :
    PrintableName name ↔ name.length % 2 ^ 32 ≤ 26 := by
  rw [PrintableName, precisionText_length h]
  obtain ⟨hneg, hlarge⟩ | ⟨heq, hsmall⟩ := precision_cases name
  · rw [if_pos hneg]
    have := Nat.mod_le name.length (2 ^ 32)
    omega
  · rw [if_neg (by omega), heq]
    have := Nat.mod_le name.length (2 ^ 32)
    omega

theorem twelve_le_titleText (name : StringView) : 12 ≤ (titleText name).length := by
  rw [titleText_length]
  omega

theorem titleText_length_lt (name : StringView) : (titleText name).length < 128 := by
  rw [titleText_length]
  omega

/-- The bound of the loop: what is left of the line, or close to 2^64. -/
theorem titleBound_toNat {len : Nat} (h : len < 128) :
    (titleBound len).toNat = if len ≤ 38 then 38 - len else 2 ^ 64 + 38 - len := by
  unfold titleBound
  rw [BitVec.toNat_sub, BitVec.toNat_sub, BitVec.toNat_ofNat]
  simp only [BitVec.reduceToNat]
  split <;> omega

theorem printJitIrBoxStart_count (name : StringView) :
    (printJitIrBoxStart name).count boxH = 1 + (titleBound (titleText name).length).toNat := by
  have htitle : "\n  " ++ cyan ++ "╔" ++ titleText name ≠ boxH := by
    intro heq
    have hlength := congrArg String.length heq
    have := twelve_le_titleText name
    simp only [String.length_append] at hlength
    have hbox : boxH.length = 1 := by decide
    omega
  have hcorner : "╗" ++ reset ++ "\n" ≠ boxH := by decide
  unfold printJitIrBoxStart
  rw [List.count_append, List.count_append, List.count_replicate_self, List.count_cons_of_ne htitle,
    List.count_cons_self, List.count_cons_of_ne hcorner]
  simp only [List.count_nil]
  omega

theorem irPrint_length (f : IRFunction) : (irPrint f).length =
    f.instructions.length + 44 + (titleBound (titleText f.name).length).toNat := by
  unfold irPrint printJitIrBoxStart printJitIrBoxEnd
  simp only [List.length_append, List.length_cons, List.length_nil, List.length_replicate,
    List.length_mapIdx]
  omega

/-- Whether `ir_print` comes to its end.  Where the bound of its loop wraps, the loop is to turn
almost 2^64 times. -/
def irPrintEnds (f : IRFunction) : Bool :=
  decide ((titleBound (titleText f.name).length).toNat ≤ 39)

/-- `ir_print` comes to its end for a printable name. -/
theorem irPrintEnds_iff (f : IRFunction) : irPrintEnds f = true ↔ PrintableName f.name := by
  unfold irPrintEnds
  rw [decide_eq_true_eq, titleBound_toNat (titleText_length_lt f.name), ← titleText_printable]
  have := titleText_length_lt f.name
  split <;> omega

/-- Where `ir_print` comes to its end, it prints few entries; where it does not, more than
2^63. -/
theorem irPrint_entries (f : IRFunction) :
    irPrintEnds f = true ∧ (irPrint f).length ≤ f.instructions.length + 70 ∨
      irPrintEnds f = false ∧ 2 ^ 63 < (irPrint f).length := by
  have hlength := irPrint_length f
  rw [titleBound_toNat (titleText_length_lt f.name)] at hlength
  have hshort := twelve_le_titleText f.name
  have hlong := titleText_length_lt f.name
  have hends := (titleText_printable f.name).trans (irPrintEnds_iff f).symm
  by_cases hprintable : (titleText f.name).length ≤ 38
  · rw [if_pos hprintable] at hlength
    exact .inl ⟨hends.mp hprintable, by omega⟩
  · rw [if_neg hprintable] at hlength
    exact .inr ⟨Bool.eq_false_iff.mpr fun h => hprintable (hends.mpr h), by omega⟩

/-- The name of a function that is generated is that of its root. -/
theorem irGen_name {fresh : IRFunction} {root : ASTNode} {errors : ErrorContext}
    {filename : Option String} {generated : Bool} {s : GenState}
    (h : irGen fresh root errors filename = .ok (generated, s)) :
    s.f.name = (initFunction fresh root errors filename).name := by
  cases hnull : root.isNull with
  | true =>
    unfold irGen at h
    simp only [hnull, if_true] at h
    cases h
    rfl
  | false =>
    rw [irGen_eq hnull] at h
    cases hrun : genRoot root (initState fresh root errors filename) with
    | error stop =>
      rw [hrun] at h
      cases h
    | ok p =>
      obtain ⟨generated₁, s₁⟩ := p
      rw [hrun] at h
      have hlimit : checkLimit generated₁ s₁ = (generated, s) := by simpa [Except.map] using h
      have hs₁ : s₁.f.name = (initFunction fresh root errors filename).name := by
        obtain ⟨st, ⟨hs, -⟩ | ⟨-, hs⟩⟩ := (rootSpec_init fresh root errors filename).of_ok hrun
        · exact congrArg (fun s => s.f.name) hs
        · exact congrArg (fun s => s.f.name) hs
      unfold checkLimit at hlimit
      split at hlimit
      · cases hlimit
        exact hs₁
      · cases hlimit
        exact hs₁

theorem printJitIrBoxEnd_count : printJitIrBoxEnd.count boxH = 39 := by decide

/-- The difference does not wrap, a line of the box has at most 39 border characters, and the
number of calls of `printf` is linear in the number of instructions, if and only if the name
has at most 26 bytes (of a length that is cast to 32 bits). -/
theorem irPrint_bounded_iff {f : IRFunction} (h : 0 ∉ f.name) :
    ((titleText f.name).length + 1 ≤ 39 ∧ (printJitIrBoxStart f.name).count boxH ≤ 39 ∧
      printJitIrBoxEnd.count boxH ≤ 39 ∧ (irPrint f).length ≤ f.instructions.length + 70) ↔
      f.name.length % 2 ^ 32 ≤ 26 := by
  rw [← printableName_iff h, ← titleText_printable, printJitIrBoxStart_count,
    printJitIrBoxEnd_count, irPrint_length, titleBound_toNat (titleText_length_lt f.name)]
  have := twelve_le_titleText f.name
  constructor
  · intro hbounded
    omega
  · intro hle
    rw [if_pos hle]
    omega

theorem irPrint_bounded_main :
    let f : IRFunction := { IRFunction.zeroed with name := svOf "main" }
    ((titleText f.name).length + 1 ≤ 39 ∧ (printJitIrBoxStart f.name).count boxH ≤ 39 ∧
      printJitIrBoxEnd.count boxH ≤ 39 ∧ (irPrint f).length ≤ f.instructions.length + 70) ↔
      f.name.length % 2 ^ 32 ≤ 26 :=
  irPrint_bounded_iff (by decide)

/-- `int aaaaaaaaaaaaaaaaaaaaaaaaaaa(void) { return 0; }`, with a name of 27 letters. -/
def longName : ASTNode :=
  .function (intInfo 0) (List.replicate 27 97) .int []
    (.block (intInfo 1) [.returnStmt (intInfo 2) (.number (intInfo 3) (svOf "0"))]) false

/-- A function whose name has 27 bytes is generated; printing its two instructions takes more
than 2^63 calls. -/
theorem longName_printed : ∃ s, irGen .zeroed longName .init none = .ok (true, s) ∧
    s.f.errors = .init ∧ s.f.instructions.length = 2 ∧ 2 ^ 63 < (irPrint s.f).length := by
  have hwith : generatesWith .zeroed longName .init none (fun s => decide (s.f.errors = .init ∧
      s.f.instructions.length = 2 ∧ s.f.name = List.replicate 27 97)) = true := by
    decide +kernel
  obtain ⟨s, hgen, hproperty⟩ := exists_of_generatesWith hwith
  obtain ⟨herrors, hlength, hname⟩ := of_decide_eq_true hproperty
  refine ⟨s, hgen, herrors, hlength, ?_⟩
  have hends : ¬ irPrintEnds s.f = true := by
    rw [irPrintEnds_iff, hname]
    decide
  exact ((irPrint_entries s.f).resolve_left fun h => hends h.1).2

end TinyCompile.Jit
