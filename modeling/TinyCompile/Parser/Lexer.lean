import TinyCompile.Parser.Token

set_option autoImplicit false

/-!
# Parser: the lexer

`srcs/lexer/lexer.c` and `srcs/lexer/helpers.c`.  The bytes between `curr` and `end`
are a list; line and column are counted as the source counts them.
-/

namespace TinyCompile.Parser

open TinyCompile.Source

/-- `Lexer`, from `curr` on. -/
structure Lexer where
  rest : List UInt8
  line : Nat
  column : Nat
  deriving DecidableEq, Repr

/-- `lexer_init`. -/
def lexerInit (data : List UInt8) : Lexer := ⟨data, 1, 1⟩

/-! ## Whitespace and comments -/

/-- Up to the end of the line. -/
def skipLine : List UInt8 → Nat → Nat → Lexer
  | [], line, column => ⟨[], line, column⟩
  | c :: cs, line, column =>
      if c = 10 then ⟨c :: cs, line, column⟩ else skipLine cs line (column + 1)

/-- Behind the end of a block comment that has been opened. -/
def skipComment : List UInt8 → Nat → Nat → Lexer
  | [], line, column => ⟨[], line, column⟩
  | 42 :: 47 :: cs, line, column => ⟨cs, line, column + 2⟩
  | 10 :: cs, line, _ => skipComment cs (line + 1) 2
  | _ :: cs, line, column => skipComment cs line (column + 1)

/-- `is_comment` on a slash: the lexer behind the comment, if it is one. -/
def isComment (l : Lexer) : Option Lexer :=
  match l.rest with
  | 47 :: 47 :: _ => some (skipLine l.rest l.line l.column)
  | 47 :: 42 :: cs => some (skipComment cs l.line (l.column + 2))
  | _ => none

/-- The loop of `lexer_skip_whitespace`; every turn takes a byte, so that the number of
bytes bounds the number of turns. -/
def skipWhitespace : Nat → Lexer → Lexer
  | 0, l => l
  | n + 1, l =>
      match l.rest with
      | [] => l
      | c :: cs =>
          if c = 32 ∨ c = 13 ∨ c = 9 then skipWhitespace n ⟨cs, l.line, l.column + 1⟩
          else if c = 10 then skipWhitespace n ⟨cs, l.line + 1, 2⟩
          else if c = 47 then
            match isComment l with
            | some l' => skipWhitespace n l'
            | none => l
          else if c = 35 then skipWhitespace n (skipLine l.rest l.line l.column)
          else l

/-- `lexer_skip_whitespace`. -/
def lexerSkipWhitespace (l : Lexer) : Lexer := skipWhitespace l.rest.length l

/-! ## Tokens -/

/-- `lexer_make_token`. -/
def lexerMakeToken (l : Lexer) (type : TokenType) (text : StringView) : Token :=
  ⟨type, text, l.line, l.column⟩

/-- `lexer_make_token_no_sv`. -/
def lexerMakeTokenNoSv (l : Lexer) (type : TokenType) : Token := ⟨type, [], l.line, l.column⟩

/-- A token and the lexer behind it. -/
def Lexer.token (l : Lexer) (type : TokenType) (text : StringView) : Token × Lexer :=
  (lexerMakeToken l type text, l)

/-- A token without text and the lexer behind it. -/
def Lexer.tokenNoSv (l : Lexer) (type : TokenType) : Token × Lexer :=
  (lexerMakeTokenNoSv l type, l)

/-- A token of one or two bytes: `double` where the byte `second` follows. -/
def Lexer.orDouble (l : Lexer) (second : UInt8) (double : TokenType)
    (other : Token × Lexer) : Token × Lexer :=
  match l.rest with
  | c :: cs => if c = second then (⟨cs, l.line, l.column + 1⟩ : Lexer).tokenNoSv double else other
  | [] => other

/-- The tokens of a single byte that have a text. -/
def singleBytes : List (UInt8 × TokenType) :=
  [(43, .plus), (45, .minus), (42, .star), (47, .slash), (40, .lparen), (41, .rparen),
    (123, .lbrace), (125, .rbrace), (59, .semicolon), (44, .comma), (38, .bitAnd),
    (124, .bitOr), (94, .bitXor), (126, .bitNot)]

/-- The token type of a single byte. -/
def singleByte (c : UInt8) : Option TokenType :=
  (singleBytes.find? fun e => e.1 == c).map (·.2)

/-- The `switch` of `lexer_next`: the byte `c` has been taken. -/
def operatorToken (c : UInt8) (l : Lexer) : Token × Lexer :=
  match singleByte c with
  | some type => l.token type [c]
  | none =>
      if c = 33 then l.orDouble 61 .bangEqual (l.tokenNoSv .bang)
      else if c = 61 then l.orDouble 61 .equalEqual (l.tokenNoSv .equal)
      else if c = 62 then
        l.orDouble 61 .greaterEqual (l.orDouble 62 .rshift (l.tokenNoSv .greater))
      else if c = 60 then l.orDouble 61 .lessEqual (l.orDouble 60 .lshift (l.tokenNoSv .less))
      else l.tokenNoSv .error

/-- `lexer_next`. -/
def lexerNext (l : Lexer) : Token × Lexer :=
  let l := lexerSkipWhitespace l
  match l.rest with
  | [] => l.tokenNoSv .eof
  | c :: cs =>
      if isDigit c then
        let text := l.rest.takeWhile isDigit
        (⟨l.rest.dropWhile isDigit, l.line, l.column + text.length⟩ : Lexer).token .number text
      else if isNameStart c then
        let text := l.rest.takeWhile isNameByte
        (⟨l.rest.dropWhile isNameByte, l.line, l.column + text.length⟩ : Lexer).token
          (checkKeyword text) text
      else operatorToken c ⟨cs, l.line, l.column + 1⟩

/-- The tokens before the end of the file, and the token there; every token takes a
byte. -/
def lexTokens : Nat → Lexer → List Token × Token
  | 0, l => ([], (lexerNext l).1)
  | n + 1, l =>
      if (lexerNext l).1.type = .eof then ([], (lexerNext l).1)
      else
        let more := lexTokens n (lexerNext l).2
        ((lexerNext l).1 :: more.1, more.2)

/-! ## Every token is spelled as its type -/

theorem checkKeyword_spells {c : UInt8} {text : StringView} (hstart : isNameStart c = true)
    (hall : text.all isNameByte = true) : spells (checkKeyword (c :: text)) (c :: text) = true := by
  cases hfind : keywords.find? fun type => svEq (c :: text) (svOf (tokenTypeName type)) with
  | none =>
    have hkind : checkKeyword (c :: text) = .identifier := by
      simp [checkKeyword, hfind]
    rw [hkind]
    simp [spells, isName, hstart, hall, hkind]
  | some type =>
    have hkind : checkKeyword (c :: text) = type := by
      simp [checkKeyword, hfind]
    have hmem := List.mem_of_find?_eq_some hfind
    have htext := List.find?_some hfind
    rw [hkind]
    simp only [keywords, List.mem_cons, List.not_mem_nil, or_false] at hmem
    rcases hmem with rfl | rfl | rfl | rfl | rfl | rfl | rfl <;> exact htext

theorem singleByte_mem {c : UInt8} {type : TokenType} (h : singleByte c = some type) :
    (c, type) ∈ singleBytes := by
  obtain ⟨⟨c', type'⟩, hfind, rfl⟩ := Option.map_eq_some_iff.mp h
  obtain rfl : c' = c := by simpa using List.find?_some hfind
  exact List.mem_of_find?_eq_some hfind

theorem singleByte_spells {c : UInt8} {type : TokenType} (h : singleByte c = some type) :
    spells type [c] = true ∧ type ≠ .eof := by
  have hall : ∀ e ∈ singleBytes, spells e.2 [e.1] = true ∧ e.2 ≠ .eof := by decide
  exact hall _ (singleByte_mem h)

theorem orDouble_lexical {l : Lexer} {second : UInt8} {double : TokenType}
    {other : Token × Lexer} (hdouble : spells double [] = true ∧ double ≠ .eof)
    (hother : other.1.Lexical ∧ other.1.type ≠ .eof) :
    (l.orDouble second double other).1.Lexical ∧
      (l.orDouble second double other).1.type ≠ .eof := by
  unfold Lexer.orDouble
  split
  · split
    · exact hdouble
    · exact hother
  · exact hother

theorem operatorToken_lexical (c : UInt8) (l : Lexer) :
    (operatorToken c l).1.Lexical ∧ (operatorToken c l).1.type ≠ .eof := by
  have hplain : ∀ type, spells type [] = true → type ≠ .eof →
      (l.tokenNoSv type).1.Lexical ∧ (l.tokenNoSv type).1.type ≠ .eof :=
    fun type h h' => ⟨h, h'⟩
  unfold operatorToken
  split
  · exact singleByte_spells ‹_›
  · split
    · exact orDouble_lexical (by decide) (hplain _ (by decide) (by decide))
    · split
      · exact orDouble_lexical (by decide) (hplain _ (by decide) (by decide))
      · split
        · exact orDouble_lexical (by decide)
            (orDouble_lexical (by decide) (hplain _ (by decide) (by decide)))
        · split
          · exact orDouble_lexical (by decide)
              (orDouble_lexical (by decide) (hplain _ (by decide) (by decide)))
          · exact hplain _ (by decide) (by decide)

theorem all_takeWhile {α : Type} (p : α → Bool) (l : List α) : (l.takeWhile p).all p = true := by
  induction l with
  | nil => rfl
  | cons a l ih =>
    rw [List.takeWhile_cons]
    split
    · simp [ih, ‹p a = true›]
    · rfl

theorem lexerNext_lexical (l : Lexer) : (lexerNext l).1.Lexical := by
  unfold lexerNext
  generalize lexerSkipWhitespace l = l
  cases hrest : l.rest with
  | nil =>
    simp only [hrest]
    rfl
  | cons c cs =>
    simp only [hrest]
    split
    · rename_i hdigit
      have hall := all_takeWhile isDigit cs
      show isNumeral ((c :: cs).takeWhile isDigit) = true
      rw [List.takeWhile_cons, if_pos hdigit]
      simp [isNumeral, hdigit, hall]
    · split
      · rename_i hstart
        have hbyte : isNameByte c = true := by simp [isNameByte, hstart]
        show spells (checkKeyword ((c :: cs).takeWhile isNameByte))
          ((c :: cs).takeWhile isNameByte) = true
        rw [List.takeWhile_cons, if_pos hbyte]
        exact checkKeyword_spells hstart (all_takeWhile isNameByte cs)
      · exact (operatorToken_lexical c _).1

theorem lexTokens_lexical (n : Nat) (l : Lexer) :
    ∀ t ∈ (lexTokens n l).1, t.Lexical ∧ t.type ≠ .eof := by
  induction n generalizing l with
  | zero => exact fun t ht => absurd ht List.not_mem_nil
  | succ n ih =>
    unfold lexTokens
    split
    · exact fun t ht => absurd ht List.not_mem_nil
    · rename_i hne
      intro t ht
      rcases List.mem_cons.mp ht with rfl | ht
      · exact ⟨lexerNext_lexical l, hne⟩
      · exact ih _ t ht

/-! ## Every token takes a byte -/

theorem skipLine_le (cs : List UInt8) (line column : Nat) :
    (skipLine cs line column).rest.length ≤ cs.length := by
  induction cs generalizing column with
  | nil => exact Nat.le_refl _
  | cons c cs ih =>
    unfold skipLine
    split
    · exact Nat.le_refl _
    · exact Nat.le_succ_of_le (ih _)

theorem skipComment_le (cs : List UInt8) (line column : Nat) :
    (skipComment cs line column).rest.length ≤ cs.length := by
  induction cs, line, column using skipComment.induct with
  | case1 line column => exact Nat.le_refl _
  | case2 line column cs => simp only [skipComment, List.length_cons]; omega
  | case3 line column cs ih => simp only [skipComment, List.length_cons]; omega
  | case4 c line column cs h1 h2 ih =>
    rw [skipComment.eq_4 _ _ _ _ h1 h2, List.length_cons]
    omega

theorem isComment_le {l l' : Lexer} (h : isComment l = some l') :
    l'.rest.length < l.rest.length := by
  unfold isComment at h
  split at h
  · rename_i cs hrest
    obtain rfl := Option.some.inj h
    have hline : skipLine l.rest l.line l.column = skipLine cs l.line (l.column + 1 + 1) := by
      rw [hrest]
      rfl
    have := skipLine_le cs l.line (l.column + 1 + 1)
    rw [hline, hrest]
    simp only [List.length_cons]
    omega
  · rename_i cs hrest
    obtain rfl := Option.some.inj h
    have := skipComment_le cs l.line (l.column + 2)
    rw [hrest]
    simp only [List.length_cons]
    omega
  · cases h

theorem skipWhitespace_le (n : Nat) (l : Lexer) :
    (skipWhitespace n l).rest.length ≤ l.rest.length := by
  induction n generalizing l with
  | zero => exact Nat.le_refl _
  | succ n ih =>
    unfold skipWhitespace
    cases hrest : l.rest with
    | nil => simp [hrest]
    | cons c cs =>
      simp only [List.length_cons]
      split
      · exact Nat.le_succ_of_le (ih ⟨cs, l.line, l.column + 1⟩)
      · split
        · exact Nat.le_succ_of_le (ih ⟨cs, l.line + 1, 2⟩)
        · split
          · split
            · rename_i l' hcomment
              have h := isComment_le hcomment
              rw [hrest, List.length_cons] at h
              have := ih l'
              omega
            · simp [hrest]
          · split
            · have h := skipLine_le (c :: cs) l.line l.column
              rw [List.length_cons] at h
              have := ih (skipLine (c :: cs) l.line l.column)
              omega
            · simp [hrest]

theorem orDouble_le (l : Lexer) (second : UInt8) (double : TokenType) {other : Token × Lexer}
    (h : other.2.rest.length ≤ l.rest.length) :
    (l.orDouble second double other).2.rest.length ≤ l.rest.length := by
  unfold Lexer.orDouble
  split
  · rename_i c cs hrest
    split
    · rw [hrest]
      exact Nat.le_succ _
    · exact h
  · exact h

theorem operatorToken_le (c : UInt8) (l : Lexer) :
    (operatorToken c l).2.rest.length ≤ l.rest.length := by
  have hself : ∀ type, (l.tokenNoSv type).2.rest.length ≤ l.rest.length :=
    fun _ => Nat.le_refl _
  unfold operatorToken
  split
  · exact Nat.le_refl _
  · split
    · exact orDouble_le l _ _ (hself _)
    · split
      · exact orDouble_le l _ _ (hself _)
      · split
        · exact orDouble_le l _ _ (orDouble_le l _ _ (hself _))
        · split
          · exact orDouble_le l _ _ (orDouble_le l _ _ (hself _))
          · exact hself _

/-- The end of the file, or a byte less. -/
theorem lexerNext_takes (l : Lexer) :
    (lexerNext l).1.type = .eof ∨ (lexerNext l).2.rest.length < l.rest.length := by
  have hskip := skipWhitespace_le l.rest.length l
  unfold lexerNext lexerSkipWhitespace
  generalize skipWhitespace l.rest.length l = l' at hskip ⊢
  cases hrest : l'.rest with
  | nil =>
    simp only [hrest]
    exact .inl rfl
  | cons c cs =>
    rw [hrest, List.length_cons] at hskip
    simp only [hrest]
    refine .inr ?_
    split
    · rename_i hdigit
      have := (List.dropWhile_sublist isDigit (l := cs)).length_le
      show ((c :: cs).dropWhile isDigit).length < _
      rw [List.dropWhile_cons, if_pos hdigit]
      omega
    · split
      · rename_i hstart
        have hbyte : isNameByte c = true := by simp [isNameByte, hstart]
        have := (List.dropWhile_sublist isNameByte (l := cs)).length_le
        show ((c :: cs).dropWhile isNameByte).length < _
        rw [List.dropWhile_cons, if_pos hbyte]
        omega
      · have := operatorToken_le c ⟨cs, l'.line, l'.column + 1⟩
        exact Nat.lt_of_le_of_lt this (by simp only; omega)

theorem lexTokens_atEof (n : Nat) (l : Lexer) (h : l.rest.length ≤ n) :
    (lexTokens n l).2.Lexical ∧ (lexTokens n l).2.type = .eof := by
  induction n generalizing l with
  | zero =>
    refine ⟨lexerNext_lexical l, ?_⟩
    rcases lexerNext_takes l with heof | hlt
    · exact heof
    · omega
  | succ n ih =>
    unfold lexTokens
    split
    · exact ⟨lexerNext_lexical l, ‹_›⟩
    · rename_i hne
      have hlt := (lexerNext_takes l).resolve_left hne
      exact ih _ (by omega)

/-- The tokens of a file. -/
def tokenStream (data : List UInt8) : TokenStream where
  tokens := (lexTokens data.length (lexerInit data)).1
  eof := (lexTokens data.length (lexerInit data)).2
  lexical := lexTokens_lexical _ _
  atEof := lexTokens_atEof _ _ (Nat.le_refl _)

example : (tokenStream (svOf "int x<= /* y */ 7;")).tokens.map (·.type) =
    [.int, .identifier, .lessEqual, .number, .semicolon] := by decide

end TinyCompile.Parser
