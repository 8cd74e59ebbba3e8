import TinyCompile.Compile.Analyze
import TinyCompile.Ir.ArgLimit
import TinyCompile.Ir.Constants

set_option autoImplicit false

/-!
# Ir: integer literals

A literal keeps its digits up to code generation.  The analysis and the generator convert
them to 64 bits, and the conversion stops at the largest number without a word.  The range
check for literals, `validate_integer_literal`, is not called.
-/

namespace TinyCompile.Ir

open TinyCompile.Machine TinyCompile.Source TinyCompile.Semantic TinyCompile.Parser

/-! ## The conversion -/

theorem isSpace_of_isDigit {b : UInt8} (h : isDigit b = true) : isSpace b = false := by
  simp only [isDigit, Bool.and_eq_true, decide_eq_true_eq, UInt8.le_iff_toNat_le] at h
  have hne : b ≠ 32 := by
    rintro rfl
    exact absurd h.1 (by decide)
  have hgt : ¬ b ≤ 13 := by
    rw [UInt8.le_iff_toNat_le]
    have : (13 : UInt8).toNat = 13 := rfl
    have : (48 : UInt8).toNat = 48 := rfl
    omega
  simp [isSpace, hne, hgt]

/-- Digits are converted to their value, as far as 64 bits go. -/
theorem svToInt64_numeral {text : StringView} (h : isNumeral text = true) :
    svToInt64 text = saturate (digitsValue text) := by
  cases text with
  | nil => cases h
  | cons b bs =>
    obtain ⟨-, hall⟩ := (Bool.and_eq_true _ _).mp h
    have hdigit : isDigit b = true := (List.all_eq_true.mp hall) b List.mem_cons_self
    have hdrop : (b :: bs).dropWhile isSpace = b :: bs := by
      rw [List.dropWhile_cons, isSpace_of_isDigit hdigit]
      rfl
    have htake : (b :: bs).takeWhile isDigit = b :: bs :=
      List.takeWhile_eq_self_iff.mpr (List.all_eq_true.mp hall)
    unfold svToInt64 atoll
    rw [hdrop]
    split
    · rename_i rest heq
      obtain ⟨rfl, -⟩ := List.cons.inj heq
      cases hdigit
    · rename_i rest heq
      obtain ⟨rfl, -⟩ := List.cons.inj heq
      cases hdigit
    · rw [htake]

theorem saturate_toInt (n : Nat) :
    (saturate n).toInt = min (n : Int) (2 ^ 63 - 1) := by
  unfold saturate
  rw [BitVec.toInt_ofInt_eq_self (by decide) (by omega) (by omega)]
  omega

/-! ## What becomes of a literal -/

/-- The values that a type is for. -/
def TypeContains (type : DataType) (value : Int) : Prop :=
  if typeIsSigned type then
    -2 ^ (8 * typeSize type - 1) ≤ value ∧ value < 2 ^ (8 * typeSize type - 1)
  else 0 ≤ value ∧ value < 2 ^ (8 * typeSize type)

instance (type : DataType) (value : Int) : Decidable (TypeContains type value) := by
  unfold TypeContains
  infer_instance

/-- The type of a number holds the value of its digits, unless 64 bits are too few. -/
theorem typeContains_numberType (n : Nat) :
    TypeContains (numberType (saturate n)) n ↔ n < 2 ^ 63 := by
  unfold numberType
  rw [saturate_toInt]
  split
  · show -2 ^ 31 ≤ (n : Int) ∧ (n : Int) < 2 ^ 31 ↔ _
    omega
  · show -2 ^ 63 ≤ (n : Int) ∧ (n : Int) < 2 ^ 63 ↔ _
    omega

/-- Two constants are equal if both conversions stop at the largest number. -/
theorem saturate_ne_iff {m n : Nat} (hne : m ≠ n) :
    saturate m ≠ saturate n ↔ m < 2 ^ 63 - 1 ∨ n < 2 ^ 63 - 1 := by
  rw [ne_eq, ← BitVec.toInt_inj, saturate_toInt, saturate_toInt]
  omega

section

variable {text : StringView} {info : NodeInfo} {sa sa' : SemanticAnalyzer} {node' : ASTNode}
  {s s' : GenState}

/-- An error is reported, or the type of the literal and the constant that is emitted for it
have the value of its digits. -/
def LiteralExact (text : StringView) (sa sa' : SemanticAnalyzer) (node' : ASTNode)
    (s s' : GenState) : Prop :=
  sa'.errors ≠ sa.errors ∨ s'.f.errors ≠ s.f.errors ∨
    ∃ type, node'.valueType? = some type ∧ TypeContains type (digitsValue text) ∧
      ∀ inst, s'.f.instructions = s.f.instructions ++ [inst] →
        inst.opcode = .const ∧ inst.imm.toInt = (digitsValue text : Int)

/-- An instruction that a literal is compiled to. -/
def CompilesTo (text : StringView) (inst : IRInstruction) : Prop :=
  ∃ info sa node' sa' s reg s',
    analyzeExpression (.number info text) sa = .ok ((node', true), sa') ∧
      genExpression node' s = .ok (reg, s') ∧ s'.f.instructions = s.f.instructions ++ [inst]

theorem analyze_number (info : NodeInfo) (text : StringView) (sa : SemanticAnalyzer) :
    analyzeExpression (.number info text) sa =
      .ok ((.number (annotate info (numberType (svToInt64 text))) text, true), sa) := rfl

/-- The registers are used up. -/
theorem genNumber_full (info : NodeInfo) (text : StringView)
    (h : maxVregsPerFunction ≤ s.f.vregCount) :
    ∃ s', genExpression (.number info text) s = .ok (0, s') ∧ s'.f.errors ≠ s.f.errors := by
  refine ⟨_, allocVreg_giveUp_run s h, ?_⟩
  rw [after_drop_eq .vregLimit s rfl]
  intro hsame
  have hnodes := congrArg (fun errors => errors.nodes.length) hsame
  simp [IRFunction.error] at hnodes

/-- The instruction for a literal. -/
def constInst (info : NodeInfo) (text : StringView) (dest : Nat) : IRInstruction :=
  { opcode := .const, type := info.valueType, dest := dest, imm := svToInt64 text }

/-- A function with the code for a literal. -/
def withConst (info : NodeInfo) (text : StringView) (f : IRFunction) : IRFunction :=
  emit { f with vregCount := f.vregCount + 1 } (constInst info text f.vregCount)

theorem genNumber_run (h : s.f.vregCount < maxVregsPerFunction) :
    genExpression (.number info text) s =
      .ok (s.f.vregCount, { s with f := withConst info text s.f }) := by
  have halloc : allocVreg s = .ok (some s.f.vregCount,
      { s with f := { s.f with vregCount := s.f.vregCount + 1 } }) := by
    show Except.ok ((irAllocVreg s.f).1, { s with f := (irAllocVreg s.f).2 }) = _
    unfold irAllocVreg
    rw [if_neg (Nat.not_le.mpr h)]
  show genNumber info text s = _
  unfold genNumber
  rw [bind_run halloc]
  rfl

theorem genNumber_emits (info : NodeInfo) (text : StringView)
    (h : s.f.vregCount < maxVregsPerFunction) :
    ∃ reg s', genExpression (.number info text) s = .ok (reg, s') ∧
      s'.f.errors = s.f.errors ∧
      ∀ inst, s'.f.instructions = s.f.instructions ++ [inst] →
        inst.opcode = .const ∧ inst.imm = svToInt64 text := by
  refine ⟨_, _, genNumber_run h, ?_, fun inst hinst => ?_⟩
  · show (withConst _ _ _).errors = s.f.errors
    unfold withConst emit
    split <;> rfl
  · rcases instructions_emit { s.f with vregCount := s.f.vregCount + 1 }
      (constInst info text s.f.vregCount) with hsame | hnew
    · have hlength := congrArg List.length (hsame.symm.trans hinst)
      have hbefore : ({ s.f with vregCount := s.f.vregCount + 1 } : IRFunction).instructions =
        s.f.instructions := rfl
      simp [hbefore] at hlength
    · obtain ⟨rfl⟩ := List.singleton_inj.mp (List.append_cancel_left (hnew.symm.trans hinst))
      exact ⟨rfl, rfl⟩

theorem instructions_withConst (info : NodeInfo) (text : StringView) {f : IRFunction}
    (h : f.totalCount < maxIrInstructionsPerFunction) :
    (withConst info text f).instructions =
      f.instructions ++ [constInst info text f.vregCount] := by
  unfold withConst emit
  rw [if_neg (Nat.not_le.mpr h)]
  exact chunkInstructions_pushTail _ _

/-- Where there is room, a literal is compiled to an instruction. -/
theorem exists_compilesTo (text : StringView) : ∃ inst, CompilesTo text inst :=
  ⟨_, ⟨0, .void, 1, 1⟩, .init "a.c" .init .init, _, _, initState .zeroed .null .init none, _, _,
    analyze_number _ text _, genNumber_run (by decide), instructions_withConst _ _ (by decide)⟩

theorem CompilesTo.imm {inst : IRInstruction} (h : CompilesTo text inst) :
    inst.imm = svToInt64 text := by
  obtain ⟨info, sa, node', sa', s, reg, s', hanalyzed, hgen, hinst⟩ := h
  cases (analyze_number info text sa).symm.trans hanalyzed
  by_cases hfull : maxVregsPerFunction ≤ s.f.vregCount
  · have hsame : s'.f.instructions = s.f.instructions := by
      cases (allocVreg_giveUp_run s hfull).symm.trans hgen
      rfl
    have hlength := congrArg List.length (hsame.symm.trans hinst)
    simp at hlength
  · obtain ⟨reg', s₁, hgen', -, hconst⟩ := genNumber_emits
      (annotate info (numberType (svToInt64 text))) text
      (Nat.lt_of_not_le hfull)
    cases hgen'.symm.trans hgen
    exact (hconst inst hinst).2

theorem literalExact_iff (h : isNumeral text = true) (info : NodeInfo) (sa : SemanticAnalyzer)
    (s : GenState) : ∃ node' sa' reg s',
    analyzeExpression (.number info text) sa = .ok ((node', true), sa') ∧
      genExpression node' s = .ok (reg, s') ∧
      (LiteralExact text sa sa' node' s s' ↔
        digitsValue text < 2 ^ 63 ∨ maxVregsPerFunction ≤ s.f.vregCount) := by
  have himm := svToInt64_numeral h
  by_cases hfull : maxVregsPerFunction ≤ s.f.vregCount
  · obtain ⟨s', hgen, herrors⟩ := genNumber_full
      (annotate info (numberType (svToInt64 text))) text hfull
    exact ⟨_, sa, 0, s', analyze_number info text sa, hgen,
      ⟨fun _ => .inr hfull, fun _ => .inr (.inl herrors)⟩⟩
  · obtain ⟨reg, s', hgen, herrors, hconst⟩ := genNumber_emits
      (annotate info (numberType (svToInt64 text))) text
      (Nat.lt_of_not_le hfull)
    refine ⟨_, sa, reg, s', analyze_number info text sa, hgen, fun hexact => .inl ?_, ?_⟩
    · obtain hsa | hs | ⟨type, htype, hcontains, -⟩ := hexact
      · exact absurd rfl hsa
      · exact absurd herrors hs
      · cases htype
        rw [himm] at hcontains
        exact (typeContains_numberType _).mp hcontains
    · rintro (hlt | hmax)
      · refine .inr (.inr ⟨_, rfl, ?_, fun inst hinst => ?_⟩)
        · show TypeContains (numberType (svToInt64 text)) _
          rw [himm]
          exact (typeContains_numberType _).mpr hlt
        · obtain ⟨hopcode, heq⟩ := hconst inst hinst
          refine ⟨hopcode, ?_⟩
          rw [heq, himm, saturate_toInt]
          omega
      · exact absurd hmax hfull

end

/-! ## Literals are exact below 2^63 -/

/-- A literal is exact if and only if its value is below 2^63, or no register is left for it,
which is reported.  The constants of two literals with different values differ unless both
values are 2^63 - 1 or more. -/
theorem literals_exact_iff {text : StringView} (h : isNumeral text = true) :
    (∀ info sa s, ∃ node' sa' reg s',
      analyzeExpression (.number info text) sa = .ok ((node', true), sa') ∧
        genExpression node' s = .ok (reg, s') ∧
        (LiteralExact text sa sa' node' s s' ↔
          digitsValue text < 2 ^ 63 ∨ maxVregsPerFunction ≤ s.f.vregCount)) ∧
      ∀ other inst inst', isNumeral other = true → digitsValue text ≠ digitsValue other →
        CompilesTo text inst → CompilesTo other inst' →
        (inst.imm ≠ inst'.imm ↔
          digitsValue text < 2 ^ 63 - 1 ∨ digitsValue other < 2 ^ 63 - 1) := by
  refine ⟨literalExact_iff h, fun other inst inst' hother hne hinst hinst' => ?_⟩
  rw [hinst.imm, hinst'.imm, svToInt64_numeral h, svToInt64_numeral hother]
  exact saturate_ne_iff hne

theorem literals_exact_seven :
    (∀ info sa s, ∃ node' sa' reg s',
      analyzeExpression (.number info (svOf "7")) sa = .ok ((node', true), sa') ∧
        genExpression node' s = .ok (reg, s') ∧
        (LiteralExact (svOf "7") sa sa' node' s s' ↔
          digitsValue (svOf "7") < 2 ^ 63 ∨ maxVregsPerFunction ≤ s.f.vregCount)) ∧
      ∀ other inst inst', isNumeral other = true →
        digitsValue (svOf "7") ≠ digitsValue other →
        CompilesTo (svOf "7") inst → CompilesTo other inst' →
        (inst.imm ≠ inst'.imm ↔
          digitsValue (svOf "7") < 2 ^ 63 - 1 ∨ digitsValue other < 2 ^ 63 - 1) :=
  literals_exact_iff (by decide)

/-- The least number that 64 bits with a sign do not hold. -/
def tooLarge : StringView := svOf "9223372036854775808"

/-- The largest number that they hold. -/
def largest : StringView := svOf "9223372036854775807"

/-- A program that compares two literals is accepted.  They are different numbers and compile
to the same constant, which is not the value of the first, and nothing is reported for it. -/
theorem tooLarge_saturated :
    (Compile.accepted (Compile.oneFile
        "int main(void) \x7b return 9223372036854775808 == 9223372036854775807; \x7d")).isSome =
          true ∧
      isNumeral tooLarge = true ∧ isNumeral largest = true ∧
      digitsValue tooLarge ≠ digitsValue largest ∧
      (∃ inst inst', CompilesTo tooLarge inst ∧ CompilesTo largest inst' ∧
        inst.imm = inst'.imm ∧ inst.imm.toInt ≠ (digitsValue tooLarge : Int)) ∧
      ∃ node' sa' reg s',
        analyzeExpression (.number ⟨0, .void, 1, 1⟩ tooLarge) (.init "a.c" .init .init) =
            .ok ((node', true), sa') ∧
          genExpression node' (initState .zeroed .null .init none) = .ok (reg, s') ∧
          ¬ LiteralExact tooLarge (.init "a.c" .init .init) sa' node'
            (initState .zeroed .null .init none) s' := by
  refine ⟨by decide +kernel, by decide, by decide, by decide, ?_, ?_⟩
  · obtain ⟨inst, hinst⟩ := exists_compilesTo tooLarge
    obtain ⟨inst', hinst'⟩ := exists_compilesTo largest
    refine ⟨inst, inst', hinst, hinst', ?_, ?_⟩
    · rw [hinst.imm, hinst'.imm]
      decide
    · rw [hinst.imm]
      decide
  · obtain ⟨node', sa', reg, s', hanalyzed, hgen, hiff⟩ := literalExact_iff
      (show isNumeral tooLarge = true by decide) ⟨0, .void, 1, 1⟩ (.init "a.c" .init .init)
      (initState .zeroed .null .init none)
    refine ⟨node', sa', reg, s', hanalyzed, hgen, fun hexact => ?_⟩
    exact absurd (hiff.mp hexact) (by decide)

end TinyCompile.Ir
