import TinyCompile.Parser.Printer
import TinyCompile.Parser.Correct

set_option autoImplicit false

/-!
# Parser: from a program to its text and back

Printed lexemes are spelled out with blanks behind each.  The lexer finds them again,
whatever the blanks are, and the parser rebuilds the program.
-/

namespace TinyCompile.Parser

open TinyCompile.Source TinyCompile.Logic

/-! ## Spelling -/

/-- The bytes of a lexeme in the text. -/
def spelling (x : Lexeme) : StringView :=
  match x.1 with
  | .number | .identifier => x.2
  | type => svOf (tokenTypeName type)

/-- The bytes `lexer_skip_whitespace` skips one by one. -/
def isBlank (b : UInt8) : Bool := b == 32 || b == 13 || b == 9 || b == 10

/-- Lexemes with the blanks that follow each. -/
abbrev Layout : Type := List (Lexeme × StringView)

/-- The text of a layout. -/
def typeset (xs : Layout) : StringView := xs.flatMap fun x => spelling x.1 ++ x.2

/-- Blanks follow every lexeme. -/
def Layout.Spaced (xs : Layout) : Prop := ∀ x ∈ xs, x.2 ≠ [] ∧ x.2.all isBlank = true

/-- The lexemes the lexer makes. -/
def lexable (x : Lexeme) : Bool := spells x.1 x.2 && x.1 != .eof && x.1 != .error

/-! ## Blanks -/

/-- `lexer_skip_whitespace` stops in front of `rest`. -/
def Stops (rest : StringView) : Prop :=
  ∀ n line column, skipWhitespace n ⟨rest, line, column⟩ = ⟨rest, line, column⟩

theorem stops_nil : Stops [] := by
  intro n line column
  cases n <;> rfl

/-- In front of a byte that starts neither blanks nor a comment. -/
theorem stops_cons {b : UInt8} (hblank : isBlank b = false) (hslash : b ≠ 47) (hhash : b ≠ 35)
    (rest : StringView) : Stops (b :: rest) := by
  simp only [isBlank, Bool.or_eq_false_iff, beq_eq_false_iff_ne] at hblank
  obtain ⟨⟨⟨hspace, hreturn⟩, htab⟩, hnewline⟩ := hblank
  intro n line column
  cases n with
  | zero => rfl
  | succ n =>
    unfold skipWhitespace
    simp [hspace, hreturn, htab, hnewline, hslash, hhash]

/-- A slash in front of a blank is no comment. -/
theorem stops_slash {c : UInt8} (hc : isBlank c = true) (rest : StringView) :
    Stops (47 :: c :: rest) := by
  intro n line column
  have hcomment : isComment ⟨47 :: c :: rest, line, column⟩ = none := by
    unfold isComment
    split
    · rename_i heq
      obtain ⟨-, rfl, -⟩ : (47 : UInt8) = 47 ∧ c = 47 ∧ _ := by simpa using heq
      cases hc
    · rename_i heq
      obtain ⟨-, rfl, -⟩ : (47 : UInt8) = 47 ∧ c = 42 ∧ _ := by simpa using heq
      cases hc
    · rfl
  cases n with
  | zero => rfl
  | succ n =>
    unfold skipWhitespace
    simp [hcomment]

/-- Blanks are skipped. -/
theorem skipWhitespace_blanks {rest : StringView} (hrest : Stops rest) {ws : StringView}
    (hws : ws.all isBlank = true) (line column : Nat) {n : Nat} (hn : ws.length ≤ n) :
    ∃ line' column',
      skipWhitespace n ⟨ws ++ rest, line, column⟩ = ⟨rest, line', column'⟩ := by
  induction ws generalizing n line column with
  | nil => exact ⟨line, column, hrest n line column⟩
  | cons b ws ih =>
    rw [List.all_cons, Bool.and_eq_true] at hws
    cases n with
    | zero => exact absurd hn (Nat.not_succ_le_zero _)
    | succ n =>
      have hn' : ws.length ≤ n := Nat.le_of_succ_le_succ hn
      unfold skipWhitespace
      simp only [List.cons_append]
      by_cases hplain : b = 32 ∨ b = 13 ∨ b = 9
      · rw [if_pos hplain]
        exact ih hws.2 _ _ hn'
      · have hnewline : b = 10 := by
          have hb := hws.1
          simp only [isBlank, Bool.or_eq_true, beq_iff_eq] at hb
          rcases hb with ((h | h) | h) | h
          · exact absurd (.inl h) hplain
          · exact absurd (.inr (.inl h)) hplain
          · exact absurd (.inr (.inr h)) hplain
          · exact h
        rw [if_neg hplain, if_pos hnewline]
        exact ih hws.2 _ _ hn'

/-! ## One lexeme -/

/-- What `lexer_next` makes of the bytes in front of which it stands. -/
structure Lexes (text : StringView) (x : Lexeme) (rest : StringView) : Prop where
  stops : Stops (text ++ rest)
  next : ∀ line column, ∃ t l, lexerNext ⟨text ++ rest, line, column⟩ = (t, l) ∧ t.lexeme = x ∧
    l.rest = rest

/-- Blanks in front change nothing. -/
theorem Lexes.blanks {text rest : StringView} {x : Lexeme} (h : Lexes text x rest)
    {ws : StringView} (hws : ws.all isBlank = true) (line column : Nat) :
    ∃ t l, lexerNext ⟨ws ++ (text ++ rest), line, column⟩ = (t, l) ∧ t.lexeme = x ∧
      l.rest = rest := by
  obtain ⟨line', column', hskip⟩ := skipWhitespace_blanks h.stops hws line column
    (n := (ws ++ (text ++ rest)).length) (by simp)
  have hsame : lexerNext ⟨ws ++ (text ++ rest), line, column⟩ =
      lexerNext ⟨text ++ rest, line', column'⟩ := by
    have hstay : lexerSkipWhitespace ⟨ws ++ (text ++ rest), line, column⟩ =
        lexerSkipWhitespace ⟨text ++ rest, line', column'⟩ := by
      unfold lexerSkipWhitespace
      rw [hskip, h.stops]
    unfold lexerNext
    rw [hstay]
  rw [hsame]
  exact h.next line' column'

/-- The bytes that may start blanks or comments. -/
def skipBytes : List UInt8 := [32, 13, 9, 10, 47, 35]

theorem mem_skipBytes {c : UInt8} (hc : isBlank c = true) : c ∈ skipBytes := by
  simp only [isBlank, Bool.or_eq_true, beq_iff_eq] at hc
  rcases hc with ((rfl | rfl) | rfl) | rfl <;> decide

/-- `lexer_skip_whitespace` stops in front of any other kind of byte. -/
theorem stops_of {p : UInt8 → Bool} (hp : ∀ b ∈ skipBytes, p b = false) {b : UInt8}
    (hb : p b = true) (rest : StringView) : Stops (b :: rest) := by
  have hmem : b ∉ skipBytes := by
    intro hmem
    rw [hp b hmem] at hb
    cases hb
  refine stops_cons (Bool.eq_false_iff.mpr fun hblank => hmem (mem_skipBytes hblank)) ?_ ?_ rest
  · rintro rfl
    exact hmem (by decide)
  · rintro rfl
    exact hmem (by decide)

/-- Behind the longest run of bytes of a kind comes a byte of another kind. -/
theorem takeWhile_stop {p : UInt8 → Bool} {text : StringView} {c : UInt8} (rest : StringView)
    (hall : text.all p = true) (hc : p c = false) :
    (text ++ c :: rest).takeWhile p = text ∧ (text ++ c :: rest).dropWhile p = c :: rest := by
  induction text with
  | nil => simp [hc]
  | cons b text ih =>
    rw [List.all_cons, Bool.and_eq_true] at hall
    simp [hall.1, ih hall.2]

/-- A number. -/
theorem lexes_number {text : StringView} (h : isNumeral text = true) {c : UInt8}
    (hc : isBlank c = true) (rest : StringView) : Lexes text (.number, text) (c :: rest) := by
  simp only [isNumeral, Bool.and_eq_true, Bool.not_eq_true', List.isEmpty_eq_false_iff] at h
  obtain ⟨hne, hall⟩ := h
  have hstop : ∀ b ∈ skipBytes, isDigit b = false := by simp [skipBytes, isDigit]
  obtain ⟨htake, hdrop⟩ := takeWhile_stop rest hall (hstop c (mem_skipBytes hc))
  obtain ⟨b, bs, rfl⟩ := List.exists_cons_of_ne_nil hne
  have hdigit : isDigit b = true := by
    rw [List.all_cons, Bool.and_eq_true] at hall
    exact hall.1
  refine ⟨stops_of hstop hdigit _, fun line column => ?_⟩
  have hskip : lexerSkipWhitespace ⟨b :: (bs ++ c :: rest), line, column⟩ =
      ⟨b :: (bs ++ c :: rest), line, column⟩ := stops_of hstop hdigit _ _ line column
  unfold lexerNext
  simp only [List.cons_append, hskip]
  rw [if_pos hdigit]
  refine ⟨_, _, rfl, ?_, hdrop⟩
  exact congrArg (Prod.mk TokenType.number) htake

/-- No letter is a digit. -/
theorem isDigit_of_isNameStart {b : UInt8} (h : isNameStart b = true) : isDigit b = false := by
  simp only [isNameStart, isDigit, Bool.or_eq_true, Bool.and_eq_true, decide_eq_true_eq,
    beq_iff_eq, Bool.and_eq_false_iff, decide_eq_false_iff_not, UInt8.le_iff_toNat_le] at h ⊢
  rcases h with (h | h) | rfl
  · right
    have : (57 : UInt8).toNat = 57 := rfl
    have : (65 : UInt8).toNat = 65 := rfl
    omega
  · right
    have : (57 : UInt8).toNat = 57 := rfl
    have : (97 : UInt8).toNat = 97 := rfl
    omega
  · exact .inr (by decide)

/-- A keyword or an identifier. -/
theorem lexes_word {b : UInt8} {bs : StringView} (hstart : isNameStart b = true)
    (hall : bs.all isNameByte = true) {c : UInt8} (hc : isBlank c = true) (rest : StringView) :
    Lexes (b :: bs) (checkKeyword (b :: bs), b :: bs) (c :: rest) := by
  have hstop : ∀ b ∈ skipBytes, isNameStart b = false := by simp [skipBytes, isNameStart]
  have hstop' : ∀ b ∈ skipBytes, isNameByte b = false := by
    simp [skipBytes, isNameByte, isNameStart, isDigit]
  have hall' : (b :: bs).all isNameByte = true := by
    simp [isNameByte, hstart, hall]
  obtain ⟨htake, hdrop⟩ := takeWhile_stop rest hall' (hstop' c (mem_skipBytes hc))
  refine ⟨stops_of hstop hstart _, fun line column => ?_⟩
  have hskip : lexerSkipWhitespace ⟨b :: (bs ++ c :: rest), line, column⟩ =
      ⟨b :: (bs ++ c :: rest), line, column⟩ := stops_of hstop hstart _ _ line column
  unfold lexerNext
  simp only [List.cons_append, hskip]
  rw [if_neg (by simp [isDigit_of_isNameStart hstart]), if_pos hstart]
  refine ⟨_, _, rfl, ?_, hdrop⟩
  show (checkKeyword ((b :: bs ++ c :: rest).takeWhile isNameByte),
    (b :: bs ++ c :: rest).takeWhile isNameByte) = _
  rw [htake]

/-- An operator or a delimiter, from what the `switch` of `lexer_next` does. -/
theorem lexes_operator {b : UInt8} {bs : StringView} {x : Lexeme} {rest : StringView}
    (hstops : Stops (b :: (bs ++ rest))) (hdigit : isDigit b = false)
    (hstart : isNameStart b = false)
    (h : ∀ line column, ∃ t l, operatorToken b ⟨bs ++ rest, line, column⟩ = (t, l) ∧
      t.lexeme = x ∧ l.rest = rest) : Lexes (b :: bs) x rest := by
  refine ⟨hstops, fun line column => ?_⟩
  have hskip : lexerSkipWhitespace ⟨b :: (bs ++ rest), line, column⟩ =
      ⟨b :: (bs ++ rest), line, column⟩ := hstops _ line column
  unfold lexerNext
  simp only [List.cons_append, hskip]
  rw [if_neg (by simp [hdigit]), if_neg (by simp [hstart])]
  exact h line (column + 1)

/-- Every lexeme with one spelling. -/
theorem lexes_mark {type : TokenType} (hmark : lexable (mark type) = true) {c : UInt8}
    (hc : isBlank c = true) (rest : StringView) :
    Lexes (spelling (mark type)) (mark type) (c :: rest) := by
  have hword : ∀ {b : UInt8} {bs : StringView}, isNameStart b = true →
      bs.all isNameByte = true → checkKeyword (b :: bs) = type →
      spelling (mark type) = b :: bs → mark type = (type, b :: bs) →
      Lexes (spelling (mark type)) (mark type) (c :: rest) := by
    intro b bs hstart hall hkw hspell hmark
    have hlex := lexes_word hstart hall hc rest
    rw [hkw] at hlex
    rw [hspell, hmark]
    exact hlex
  have hother : ∀ b : UInt8, isBlank b = false → b ≠ 47 → b ≠ 35 → ∀ bs, Stops (b :: bs) :=
    fun b h h' h'' bs => stops_cons h h' h'' bs
  have hslash := hc
  simp only [isBlank, Bool.or_eq_true, beq_iff_eq] at hc
  cases type with
  | int => exact hword (by decide) (by decide) (by decide) rfl rfl
  | char => exact hword (by decide) (by decide) (by decide) rfl rfl
  | void => exact hword (by decide) (by decide) (by decide) rfl rfl
  | ifKw => exact hword (by decide) (by decide) (by decide) rfl rfl
  | elseKw => exact hword (by decide) (by decide) (by decide) rfl rfl
  | whileKw => exact hword (by decide) (by decide) (by decide) rfl rfl
  | returnKw => exact hword (by decide) (by decide) (by decide) rfl rfl
  | number => cases hmark
  | identifier => exact hword (by decide) (by decide) (by decide) rfl rfl
  | eof => cases hmark
  | error => cases hmark
  | slash =>
    refine lexes_operator (stops_slash hslash _) (by decide) (by decide) fun line column => ?_
    rcases hc with ((rfl | rfl) | rfl) | rfl <;> exact ⟨_, _, rfl, rfl, rfl⟩
  | _ =>
    refine lexes_operator (hother _ (by decide) (by decide) (by decide) _) (by decide) (by decide)
      fun line column => ?_
    rcases hc with ((rfl | rfl) | rfl) | rfl <;> exact ⟨_, _, rfl, rfl, rfl⟩

/-- Every lexeme, in front of a blank. -/
theorem lexes_of_lexable {x : Lexeme} (hx : lexable x = true) {c : UInt8}
    (hc : isBlank c = true) (rest : StringView) : Lexes (spelling x) x (c :: rest) := by
  obtain ⟨type, text⟩ := x
  have hfixed : type ≠ .number → type ≠ .identifier → (type, text) = mark type := by
    intro hnumber hidentifier
    simp only [lexable, Bool.and_eq_true, bne_iff_ne] at hx
    cases type <;> simp_all [spells, mark, tokenTypeName, rules]
  by_cases hnumber : type = .number
  · subst hnumber
    simp only [lexable, Bool.and_eq_true] at hx
    exact lexes_number hx.1.1 hc rest
  by_cases hidentifier : type = .identifier
  · subst hidentifier
    simp only [lexable, Bool.and_eq_true] at hx
    have hname : isName text = true := hx.1.1
    cases text with
    | nil => cases hname
    | cons b bs =>
      simp only [isName, Bool.and_eq_true, beq_iff_eq] at hname
      have hlex := lexes_word hname.1.1 hname.1.2 hc rest
      rwa [hname.2] at hlex
  · rw [hfixed hnumber hidentifier] at hx ⊢
    exact lexes_mark hx hc rest

/-! ## The whole text -/

/-- At the end of the text there is nothing but blanks. -/
theorem lexTokens_blanks {ws : StringView} (hws : ws.all isBlank = true) (n line column : Nat) :
    (lexTokens n ⟨ws, line, column⟩).1 = [] := by
  cases n with
  | zero => rfl
  | succ n =>
    obtain ⟨line', column', hskip⟩ := skipWhitespace_blanks stops_nil hws line column
      (Nat.le_refl ws.length)
    rw [List.append_nil] at hskip
    have heof : (lexerNext ⟨ws, line, column⟩).1.type = .eof := by
      unfold lexerNext lexerSkipWhitespace
      simp only [hskip]
      rfl
    unfold lexTokens
    rw [if_pos heof]

/-- The lexer finds the lexemes of a text again. -/
theorem lexTokens_typeset {xs : Layout} (hspaced : xs.Spaced)
    (hlexable : ∀ x ∈ xs, lexable x.1 = true) {ws : StringView} (hws : ws.all isBlank = true)
    {n line column : Nat} (hn : (ws ++ typeset xs).length ≤ n) :
    (lexTokens n ⟨ws ++ typeset xs, line, column⟩).1.map Token.lexeme = xs.map (·.1) := by
  induction xs generalizing ws n line column with
  | nil =>
    have hend : ws ++ typeset [] = ws := List.append_nil ws
    rw [hend, lexTokens_blanks hws]
    rfl
  | cons x xs ih =>
    obtain ⟨hne, hblanks⟩ := hspaced x (by simp)
    obtain ⟨c, cs, hx⟩ := List.exists_cons_of_ne_nil hne
    have hc : isBlank c = true := by
      rw [hx, List.all_cons, Bool.and_eq_true] at hblanks
      exact hblanks.1
    have htext : typeset (x :: xs) = spelling x.1 ++ c :: (cs ++ typeset xs) := by
      show spelling x.1 ++ x.2 ++ typeset xs = _
      rw [hx]
      simp
    rw [htext] at hn ⊢
    have hlex := lexes_of_lexable (hlexable x (by simp)) hc (cs ++ typeset xs)
    obtain ⟨t, l, hnext, ht, hl⟩ := hlex.blanks hws line column
    have hkind : t.type ≠ .eof := by
      have hx' := hlexable x (by simp)
      simp only [lexable, Bool.and_eq_true, bne_iff_ne] at hx'
      rw [(lexeme_eq ht).1]
      exact hx'.1.2
    have htakes := lexerNext_takes ⟨ws ++ (spelling x.1 ++ c :: (cs ++ typeset xs)), line, column⟩
    rw [hnext] at htakes
    have hlt := htakes.resolve_left hkind
    simp only [hl] at hlt
    cases n with
    | zero => omega
    | succ n =>
      unfold lexTokens
      rw [hnext]
      rw [if_neg hkind, List.map_cons, List.map_cons, ht]
      have hrest : l.rest = x.2 ++ typeset xs := by rw [hl, hx, List.cons_append]
      have hlexer : l = ⟨x.2 ++ typeset xs, l.line, l.column⟩ := by rw [← hrest]
      rw [hlexer]
      refine congrArg _ (ih (fun y hy => hspaced y (List.mem_cons_of_mem _ hy))
        (fun y hy => hlexable y (List.mem_cons_of_mem _ hy)) hblanks ?_)
      rw [← hrest, hl]
      omega

/-! ## Printed lexemes -/

theorem lexable_identifier {name : StringView} (h : isName name = true) :
    lexable (.identifier, name) = true := by
  simp [lexable, spells, h]

theorem lexable_typeLexeme (type : DataType) : lexable (typeLexeme type) = true := by
  cases type <;> decide

theorem lexable_binaryToken (op : BinaryOp) : lexable (mark (binaryToken op)) = true := by
  cases op <;> decide

theorem lexable_unaryToken (op : UnaryOp) : lexable (mark (unaryToken op)) = true := by
  cases op <;> decide

theorem lexable_parens {required : Bool} {xs : List Lexeme} (h : xs.all lexable = true) :
    (parens required xs).all lexable = true := by
  have hmarks : lexable (mark .lparen) = true ∧ lexable (mark .rparen) = true := by decide
  unfold parens
  split <;> simp_all

mutual

theorem printExpr_lexable : ∀ {e : Expr} (p : Nat), writableExpr e = true →
    (printExpr p e).all lexable = true
  | .number text, p, h => by
    rw [writableExpr] at h
    simp [printExpr, lexable, spells, h]
  | .identifier name, p, h => by
    rw [writableExpr] at h
    simp [printExpr, lexable_identifier h]
  | .binary op left right, p, h => by
    rw [writableExpr, Bool.and_eq_true] at h
    rw [printExpr]
    apply lexable_parens
    rw [List.all_append, List.all_cons, printExpr_lexable _ h.1, printExpr_lexable _ h.2,
      lexable_binaryToken]
    rfl
  | .unary op operand, p, h => by
    rw [writableExpr] at h
    rw [printExpr, List.all_cons, printExpr_lexable _ h, lexable_unaryToken]
    rfl
  | .assignment name value, p, h => by
    rw [writableExpr, Bool.and_eq_true] at h
    have hequal : lexable (mark .equal) = true := by decide
    rw [printExpr]
    apply lexable_parens
    rw [List.all_cons, List.all_cons, lexable_identifier h.1, hequal, printExpr_lexable _ h.2]
    rfl
  | .call name args, p, h => by
    rw [writableExpr, Bool.and_eq_true, Bool.and_eq_true] at h
    have hmarks : lexable (mark .lparen) = true ∧ lexable (mark .rparen) = true := by decide
    rw [printExpr]
    simp [lexable_identifier h.1.1, hmarks, printArgs_lexable h.2]

theorem printArgs_lexable : ∀ {es : List Expr}, writableArgs es = true →
    (printArgs es).all lexable = true
  | [], _ => rfl
  | e :: es, h => by
    rw [writableArgs, Bool.and_eq_true] at h
    rw [printArgs, List.all_append, printExpr_lexable _ h.1, printMoreArgs_lexable h.2]
    rfl

theorem printMoreArgs_lexable : ∀ {es : List Expr}, writableArgs es = true →
    (printMoreArgs es).all lexable = true
  | [], _ => rfl
  | e :: es, h => by
    rw [writableArgs, Bool.and_eq_true] at h
    have hcomma : lexable (mark .comma) = true := by decide
    rw [printMoreArgs, List.all_cons, List.all_append, printExpr_lexable _ h.1,
      printMoreArgs_lexable h.2, hcomma]
    rfl

end

theorem printWhole_lexable {e : Expr} (h : writableWhole e = true) :
    (printExpr 0 e).all lexable = true := by
  rw [writableWhole, Bool.and_eq_true] at h
  exact printExpr_lexable 0 h.1

theorem printDecl_lexable (type : DataType) {name : StringView} (h : isName name = true) :
    (printDecl type name).all lexable = true := by
  simp [printDecl, lexable_typeLexeme, lexable_identifier h]

theorem printCondition_lexable {kw : TokenType} (hkw : lexable (mark kw) = true) {c : Expr}
    (h : writableWhole c = true) : (printCondition kw c).all lexable = true := by
  have hmarks : lexable (mark .lparen) = true ∧ lexable (mark .rparen) = true := by decide
  rw [printCondition, List.all_cons, List.all_cons, List.all_append, printWhole_lexable h]
  simp [hkw, hmarks]

mutual

theorem printStmt_lexable : ∀ {st : Stmt}, writableStmt st = true →
    (printStmt st).all lexable = true
  | .expr e, h => by
    rw [writableStmt] at h
    rw [printStmt, List.all_append, printWhole_lexable h]
    decide
  | .varDecl name type none, h => by
    rw [writableStmt, Bool.and_eq_true] at h
    rw [printStmt, List.all_append, printDecl_lexable type h.2]
    decide
  | .varDecl name type (some e), h => by
    rw [writableStmt, Bool.and_eq_true, Bool.and_eq_true] at h
    have hequal : lexable (mark .equal) = true := by decide
    rw [printStmt, List.all_append, List.all_cons, List.all_append, printDecl_lexable type h.1.2,
      printWhole_lexable h.2, hequal]
    decide
  | .ifThen c t, h => by
    rw [writableStmt, Bool.and_eq_true] at h
    rw [printStmt, List.all_append, printCondition_lexable (by decide) h.1, printStmt_lexable h.2]
    rfl
  | .ifElse c t e, h => by
    rw [writableStmt, Bool.and_eq_true, Bool.and_eq_true, Bool.and_eq_true] at h
    have helse : lexable (mark .elseKw) = true := by decide
    rw [printStmt, List.all_append, List.all_append, List.all_cons,
      printCondition_lexable (by decide) h.1.1.1, printStmt_lexable h.1.1.2,
      printStmt_lexable h.2, helse]
    rfl
  | .whileLoop c body, h => by
    rw [writableStmt, Bool.and_eq_true] at h
    rw [printStmt, List.all_append, printCondition_lexable (by decide) h.1, printStmt_lexable h.2]
    rfl
  | .block statements, h => by
    rw [writableStmt, Bool.and_eq_true] at h
    rw [printStmt, List.all_cons, List.all_append, printStmts_lexable h.2]
    decide
  | .ret none, _ => by
    rw [printStmt]
    decide
  | .ret (some e), h => by
    rw [writableStmt] at h
    rw [printStmt, List.all_cons, List.all_append, printWhole_lexable h]
    decide

theorem printStmts_lexable : ∀ {sts : List Stmt}, writableStmts sts = true →
    (printStmts sts).all lexable = true
  | [], _ => rfl
  | st :: sts, h => by
    rw [writableStmts, Bool.and_eq_true] at h
    rw [printStmts, List.all_append, printStmt_lexable h.1, printStmts_lexable h.2]
    rfl

end

theorem printParams_lexable : ∀ {params : List Parameter},
    params.all (fun param => isName param.name) = true → (printParams params).all lexable = true
  | [], _ => rfl
  | [param], h => by
    rw [List.all_cons, Bool.and_eq_true] at h
    exact printDecl_lexable param.type h.1
  | param :: param' :: params, h => by
    rw [List.all_cons, Bool.and_eq_true] at h
    have hcomma : lexable (mark .comma) = true := by decide
    rw [printParams, List.all_append, List.all_cons, printDecl_lexable param.type h.1, hcomma,
      printParams_lexable h.2]
    rfl

theorem printBody_lexable {body : Option (List Stmt)}
    (h : (match body with
      | none => true
      | some body => writableStmt (.block body)) = true) :
    (match body with
      | none => [mark .semicolon]
      | some body => printStmt (.block body)).all lexable = true := by
  cases body with
  | none => decide
  | some body => exact printStmt_lexable h

theorem printFunction_lexable {f : Function} (h : writableFunction f = true) :
    (printFunction f).all lexable = true := by
  obtain ⟨name, returnType, params, body⟩ := f
  simp only [writableFunction, Bool.and_eq_true] at h
  obtain ⟨⟨⟨⟨hname, -⟩, hnames⟩, -⟩, hbody⟩ := h
  have hmarks : lexable (mark .lparen) = true ∧ lexable (mark .rparen) = true := by decide
  rw [printFunction, List.all_append, List.all_cons, List.all_append, List.all_cons,
    printDecl_lexable returnType hname, printParams_lexable hnames, hmarks.1, hmarks.2]
  exact printBody_lexable hbody

theorem printUnit_lexable {u : TranslationUnit} (h : writableUnit u = true) :
    ∀ x ∈ printUnit u, lexable x = true := by
  rw [writableUnit, Bool.and_eq_true] at h
  intro x hx
  obtain ⟨f, hf, hx⟩ := List.mem_flatMap.mp hx
  have hf' := List.all_eq_true.mp h.2 f hf
  exact List.all_eq_true.mp (printFunction_lexable hf') x hx

/-! ## The round trip -/

/-- Every file that can be written is read back from its text, whatever its layout. -/
theorem typeset_parses {u : TranslationUnit} (hu : writableUnit u = true) {xs : Layout}
    (hxs : xs.map (·.1) = printUnit u) (hspaced : xs.Spaced) {ws : StringView}
    (hws : ws.all isBlank = true) (filename : String) (arena : Nat) (errors : ErrorContext) :
    ∃ node s', parserParse (tokenStream (ws ++ typeset xs)) filename arena errors =
      .ok (node, s') ∧ node.unit? = some u ∧ s'.errors = errors ∧ s'.overrun = false := by
  have hlexable : ∀ x ∈ xs, lexable x.1 = true := by
    intro x hx
    refine printUnit_lexable hu x.1 ?_
    rw [← hxs]
    exact List.mem_map_of_mem hx
  have htokens : (tokenStream (ws ++ typeset xs)).tokens.map Token.lexeme = printUnit u := by
    rw [← hxs]
    exact lexTokens_typeset hspaced hlexable hws (Nat.le_refl _)
  have hproper : (tokenStream (ws ++ typeset xs)).proper =
      (tokenStream (ws ++ typeset xs)).tokens := by
    refine List.filter_eq_self.mpr fun t ht => ?_
    have hmem : t.lexeme ∈ printUnit u := by
      rw [← htokens]
      exact List.mem_map_of_mem ht
    have ht' := printUnit_lexable hu _ hmem
    rw [lexable, Bool.and_eq_true] at ht'
    exact ht'.2
  have hderives : DerivesUnit (tokenStream (ws ++ typeset xs)).proper u := by
    rw [hproper]
    exact printUnit_derives hu htokens
  obtain ⟨node, s', hrun, hnode, herrors⟩ := hderives.reads filename arena errors
  obtain ⟨u', hnode', -, hmark⟩ := parserParse_sound hrun (by rw [herrors])
  obtain rfl : u = u' := Option.some.inj (hnode.symm.trans hnode')
  refine ⟨node, s', hrun, hnode, herrors, ?_⟩
  rw [hmark]
  refine List.any_eq_false.mpr fun f hf => ?_
  rw [writableUnit, Bool.and_eq_true] at hu
  have hf' := List.all_eq_true.mp hu.2 f hf
  simp only [writableFunction, Bool.and_eq_true, decide_eq_true_eq] at hf'
  simpa using hf'.1.1.1.2

/-- A blank behind every lexeme. -/
def spaced (xs : List Lexeme) : Layout := xs.map fun x => (x, [32])

/-- A function that declares, assigns and returns a variable. -/
def smallUnit : TranslationUnit :=
  [⟨svOf "f", .int, [], some [.varDecl (svOf "x") .int (some (.number (svOf "1"))),
    .expr (.assignment (svOf "x") (.binary .mul
      (.binary .add (.identifier (svOf "x")) (.number (svOf "2"))) (.number (svOf "3")))),
    .ret (some (.identifier (svOf "x")))]⟩]

theorem typeset_parses_smallUnit : ∃ node s',
    parserParse (tokenStream ([10] ++ typeset (spaced (printUnit smallUnit)))) "a.c" 0 .init =
      .ok (node, s') ∧ node.unit? = some smallUnit ∧ s'.errors = .init ∧ s'.overrun = false :=
  @typeset_parses smallUnit (by decide +kernel) (spaced (printUnit smallUnit)) (by decide +kernel)
    (by unfold Layout.Spaced; decide +kernel) [10] (by decide) "a.c" 0 .init

/-- A function whose body is one statement. -/
def oneStatement (st : Stmt) : TranslationUnit := [⟨svOf "f", .int, [], some [st]⟩]

/-- A parse that does not end without an error. -/
def recordsError (r : Except Stop (ASTNode × Parser)) : Bool :=
  match r with
  | .ok (_, s') => !s'.errors.nodes.isEmpty
  | .error _ => true

/-- Errors are recorded for a call with 33 arguments, for a declaration whose type has no
keyword, and for an assignment in an assignment without parentheses. -/
theorem typeset_rejected :
    recordsError (parserParse (tokenStream (typeset (spaced (printUnit (oneStatement
      (.expr (.call (svOf "f") (List.replicate 33 (.number (svOf "1"))))))))))
      "a.c" 0 .init) = true ∧
    recordsError (parserParse (tokenStream (typeset (spaced (printUnit (oneStatement
      (.varDecl (svOf "x") .int64 none)))))) "a.c" 0 .init) = true ∧
    recordsError (parserParse (tokenStream (svOf "int f() \x7b a = b = c; \x7d"))
      "a.c" 0 .init) = true :=
  ⟨by decide +kernel, by decide +kernel, by decide +kernel⟩

end TinyCompile.Parser
