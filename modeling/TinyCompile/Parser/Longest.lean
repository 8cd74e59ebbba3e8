import TinyCompile.Parser.Scan

set_option autoImplicit false

/-!
# Parser: trivia and the longest token

What the bytes of a file are, said without the lexer: the trivia, the spellings of the
tokens in `lexer_tokens.def`, and the reading of a file in which every token is the longest
one.  `lexer_next` produces that reading.
-/

namespace TinyCompile.Parser

open TinyCompile.Source

/-! ## Trivia -/

/-- What is skipped, and the bytes behind it. -/
inductive Trivia : List UInt8 → List UInt8 → Prop
  | blank {c : UInt8} (rest : List UInt8) (hc : c = 32 ∨ c = 13 ∨ c = 9 ∨ c = 10) :
      Trivia [c] rest
  | lineComment {body rest : List UInt8} (hbody : 10 ∉ body)
      (hrest : rest = [] ∨ rest.head? = some 10) : Trivia (47 :: 47 :: body) rest
  | directive {body rest : List UInt8} (hbody : 10 ∉ body)
      (hrest : rest = [] ∨ rest.head? = some 10) : Trivia (35 :: body) rest
  /-- The close is the first one behind the two bytes that open the comment. -/
  | blockComment {body : List UInt8} (rest : List UInt8) (hbody : ¬ [42, 47] <:+: body ++ [42]) :
      Trivia (47 :: 42 :: body ++ [42, 47]) rest
  | openComment {body : List UInt8} (hbody : ¬ [42, 47] <:+: body) : Trivia (47 :: 42 :: body) []

/-- Trivia are next. -/
def AtTrivia (bytes : List UInt8) : Prop := ∃ text rest, bytes = text ++ rest ∧ Trivia text rest

/-- Some trivia, one after the other. -/
inductive Gap : List UInt8 → List UInt8 → Prop
  | nil (rest : List UInt8) : Gap [] rest
  | cons {text more rest : List UInt8} (htext : Trivia text (more ++ rest))
      (hmore : Gap more rest) : Gap (text ++ more) rest

theorem skipLine_trivia (cs : List UInt8) (line column : Nat) :
    ∃ body, cs = body ++ (skipLine cs line column).rest ∧ 10 ∉ body ∧
      ((skipLine cs line column).rest = [] ∨ (skipLine cs line column).rest.head? = some 10) := by
  induction cs generalizing column with
  | nil => exact ⟨[], rfl, List.not_mem_nil, .inl rfl⟩
  | cons c cs ih =>
    unfold skipLine
    split
    · subst c
      exact ⟨[], rfl, List.not_mem_nil, .inr rfl⟩
    · rename_i hc
      obtain ⟨body, hcs, hbody, hend⟩ := ih (column + 1)
      refine ⟨c :: body, congrArg (c :: ·) hcs, ?_, hend⟩
      rw [List.mem_cons, not_or]
      exact ⟨Ne.symm hc, hbody⟩

/-- A close cannot begin with a byte in front, unless that is the star of a close. -/
theorem not_infix_cons {c : UInt8} {cs : List UInt8} (hc : c = 42 → cs.head? ≠ some 47)
    (h : ¬ [42, 47] <:+: cs) : ¬ [42, 47] <:+: c :: cs := by
  rw [List.infix_cons_iff, not_or]
  refine ⟨?_, h⟩
  rintro ⟨after, heq⟩
  obtain ⟨rfl, rfl⟩ := List.cons.inj heq
  exact hc rfl rfl

/-- What is skipped of a block comment. -/
theorem skipComment_trivia (cs : List UInt8) (line column : Nat) :
    (∃ body, cs = body ++ 42 :: 47 :: (skipComment cs line column).rest ∧
      ¬ [42, 47] <:+: body ++ [42]) ∨
    ((skipComment cs line column).rest = [] ∧ ¬ [42, 47] <:+: cs) := by
  have hstep : ∀ {c : UInt8} {cs rest : List UInt8},
      (c = 42 → cs.head? ≠ some 47) →
      (∃ body, cs = body ++ 42 :: 47 :: rest ∧ ¬ [42, 47] <:+: body ++ [42]) ∨
        (rest = [] ∧ ¬ [42, 47] <:+: cs) →
      (∃ body, c :: cs = body ++ 42 :: 47 :: rest ∧ ¬ [42, 47] <:+: body ++ [42]) ∨
        (rest = [] ∧ ¬ [42, 47] <:+: c :: cs) := by
    intro c cs rest hc h
    obtain ⟨body, rfl, hbody⟩ | ⟨hrest, hnone⟩ := h
    · refine .inl ⟨c :: body, rfl, not_infix_cons (fun heq => ?_) hbody⟩
      have := hc heq
      cases body with
      | nil => simp
      | cons b bs => simpa using this
    · exact .inr ⟨hrest, not_infix_cons hc hnone⟩
  induction cs, line, column using skipComment.induct with
  | case1 line column => exact .inr ⟨rfl, by simp⟩
  | case2 line column cs => exact .inl ⟨[], rfl, by decide⟩
  | case3 line column cs ih => exact hstep (fun h => absurd h (by decide)) ih
  | case4 c line column cs hclose hnewline ih =>
    rw [skipComment.eq_4 _ _ _ _ hclose hnewline]
    refine hstep (fun hc hhead => ?_) ih
    obtain ⟨cs', rfl⟩ := List.head?_eq_some_iff.mp hhead
    exact hclose cs' hc rfl

theorem isComment_trivia {l l' : Lexer} (h : isComment l = some l') :
    ∃ text, l.rest = text ++ l'.rest ∧ Trivia text l'.rest := by
  obtain ⟨rest, line, column⟩ := l
  unfold isComment at h
  split at h
  · rename_i cs hrest
    obtain rfl : rest = 47 :: 47 :: cs := hrest
    cases h
    obtain ⟨body, hcs, hbody, hend⟩ := skipLine_trivia cs line (column + 1 + 1)
    exact ⟨47 :: 47 :: body, congrArg (47 :: 47 :: ·) hcs, .lineComment hbody hend⟩
  · rename_i cs hrest
    obtain rfl : rest = 47 :: 42 :: cs := hrest
    cases h
    obtain ⟨body, hcs, hbody⟩ | ⟨hend, hnone⟩ := skipComment_trivia cs line (column + 2)
    · exact ⟨47 :: 42 :: body ++ [42, 47], (congrArg (47 :: 42 :: ·) hcs).trans (by simp),
        .blockComment _ hbody⟩
    · refine ⟨47 :: 42 :: cs, ?_, ?_⟩
      · show _ = _ ++ (skipComment cs line (column + 2)).rest
        rw [hend, List.append_nil]
      · show Trivia _ (skipComment cs line (column + 2)).rest
        rw [hend]
        exact .openComment hnone
  · cases h

/-- A turn of the loop skips trivia. -/
theorem skipTurn_trivia {l l' : Lexer} (h : skipTurn l = some l') :
    ∃ text, l.rest = text ++ l'.rest ∧ Trivia text l'.rest := by
  obtain ⟨rest, line, column⟩ := l
  cases rest with
  | nil => cases h
  | cons c cs =>
    simp only [skipTurn] at h
    split at h
    · rename_i hc
      cases h
      exact ⟨[c], rfl, .blank cs (hc.imp_right (Or.imp_right .inl))⟩
    · split at h
      · rename_i hc
        cases h
        exact ⟨[c], rfl, .blank cs (.inr (.inr (.inr hc)))⟩
      · rename_i hnewline
        split at h
        · exact isComment_trivia h
        · split at h
          · rename_i hc
            cases h
            subst c
            obtain ⟨body, hcs, hbody, hend⟩ := skipLine_trivia cs line (column + 1)
            exact ⟨35 :: body, congrArg (35 :: ·) hcs, .directive hbody hend⟩
          · cases h

/-- Where the loop stops there are no trivia. -/
theorem not_atTrivia {l : Lexer} (h : skipTurn l = none) : ¬ AtTrivia l.rest := by
  obtain ⟨rest, line, column⟩ := l
  rintro ⟨text, more, rfl, htrivia⟩
  cases htrivia with
  | blank _ hc => obtain rfl | rfl | rfl | rfl := hc <;> cases h
  | lineComment _ _ => cases h
  | directive _ _ => cases h
  | blockComment _ _ => cases h
  | openComment _ => cases h

/-- What is skipped before a token are trivia, and all of them. -/
theorem lexerSkipWhitespace_gap (l : Lexer) :
    ∃ gap, l.rest = gap ++ (lexerSkipWhitespace l).rest ∧
      Gap gap (lexerSkipWhitespace l).rest ∧ ¬ AtTrivia (lexerSkipWhitespace l).rest := by
  refine lexerSkipWhitespace_induct (P := fun l l' => ∃ gap, l.rest = gap ++ l'.rest ∧
    Gap gap l'.rest ∧ ¬ AtTrivia l'.rest) ?_ ?_ l
  · exact fun l h => ⟨[], rfl, .nil _, not_atTrivia h⟩
  · rintro l l' l'' hturn ⟨gap, hrest, hgap, hnone⟩
    obtain ⟨text, hl, htext⟩ := skipTurn_trivia hturn
    refine ⟨text ++ gap, ?_, .cons ?_ hgap, hnone⟩
    · rw [hl, hrest, List.append_assoc]
    · rwa [← hrest]

/-! ## Spellings -/

/-- The token types spelled as in the table, keywords aside. -/
def operatorTypes : List TokenType :=
  [.plus, .minus, .star, .slash, .bang, .lshift, .rshift, .bitAnd, .bitXor, .bitOr, .bitNot,
    .equalEqual, .bangEqual, .less, .lessEqual, .greater, .greaterEqual, .equal, .lparen,
    .rparen, .semicolon, .lbrace, .rbrace, .comma]

/-- The bytes of a token. -/
inductive Spelling : TokenType → List UInt8 → Prop
  | keyword {type : TokenType} (h : type ∈ keywords) : Spelling type (svOf (tokenTypeName type))
  | number {text : List UInt8} (hne : text ≠ []) (hdigits : ∀ c ∈ text, isDigit c = true) :
      Spelling .number text
  | identifier {c : UInt8} {text : List UInt8} (hstart : isNameStart c = true)
      (hbytes : ∀ b ∈ text, isNameByte b = true)
      (hplain : ∀ type ∈ keywords, c :: text ≠ svOf (tokenTypeName type)) :
      Spelling .identifier (c :: text)
  | operator {type : TokenType} (h : type ∈ operatorTypes) :
      Spelling type (svOf (tokenTypeName type))

/-- Digits, a name, or the bytes of an operator. -/
inductive Shape : List UInt8 → Prop
  | digits {c : UInt8} {text : List UInt8} (hc : isDigit c = true)
      (hdigits : ∀ b ∈ text, isDigit b = true) : Shape (c :: text)
  | name {c : UInt8} {text : List UInt8} (hstart : isNameStart c = true)
      (hbytes : ∀ b ∈ text, isNameByte b = true) : Shape (c :: text)
  | operator {type : TokenType} (h : type ∈ operatorTypes) : Shape (svOf (tokenTypeName type))

theorem Spelling.shape {type : TokenType} {text : List UInt8} (h : Spelling type text) :
    Shape text := by
  cases h with
  | keyword h =>
    have hall : ∀ type ∈ keywords, ∃ c cs, svOf (tokenTypeName type) = c :: cs ∧
        isNameStart c = true ∧ cs.all isNameByte = true := by
      simp only [keywords, List.forall_mem_cons, List.not_mem_nil, false_implies, implies_true,
        and_true]
      exact ⟨⟨_, _, rfl, by decide, by decide⟩, ⟨_, _, rfl, by decide, by decide⟩,
        ⟨_, _, rfl, by decide, by decide⟩, ⟨_, _, rfl, by decide, by decide⟩,
        ⟨_, _, rfl, by decide, by decide⟩, ⟨_, _, rfl, by decide, by decide⟩,
        ⟨_, _, rfl, by decide, by decide⟩⟩
    obtain ⟨c, cs, heq, hstart, hbytes⟩ := hall type h
    rw [heq]
    exact .name hstart (List.all_eq_true.mp hbytes)
  | number hne hdigits =>
    obtain ⟨c, cs, rfl⟩ := List.exists_cons_of_ne_nil hne
    exact .digits (hdigits c List.mem_cons_self)
      fun b hb => hdigits b (List.mem_cons_of_mem _ hb)
  | identifier hstart hbytes _ => exact .name hstart hbytes
  | operator h => exact .operator h

/-- No token that is longer is next. -/
def Longest (text rest : List UInt8) : Prop :=
  ∀ type other, Spelling type other → other <+: text ++ rest → other.length ≤ text.length

theorem length_le_takeWhile {p : UInt8 → Bool} {other bytes : List UInt8}
    (hall : ∀ b ∈ other, p b = true) (h : other <+: bytes) :
    other.length ≤ (bytes.takeWhile p).length := by
  obtain ⟨rest, rfl⟩ := h
  have htake : (other ++ rest).takeWhile p = other ++ rest.takeWhile p :=
    List.takeWhile_append_of_pos hall
  rw [htake, List.length_append]
  exact Nat.le_add_right _ _

/-- Which bytes an operator starts with, and what can follow. -/
theorem operator_head : ∀ type ∈ operatorTypes, ∃ c cs, svOf (tokenTypeName type) = c :: cs ∧
    isDigit c = false ∧ isNameStart c = false ∧
    (singleByte c ≠ none ∧ cs = [] ∨ singleByte c = none ∧ (c = 33 ∨ c = 61 ∨ c = 62 ∨ c = 60) ∧
      (cs = [] ∨ cs = [61] ∨ c = 62 ∧ cs = [62] ∨ c = 60 ∧ cs = [60])) := by
  simp only [operatorTypes, List.forall_mem_cons, List.not_mem_nil, false_implies, implies_true,
    and_true]
  refine ⟨?_, ?_, ?_, ?_, ?_, ?_, ?_, ?_, ?_, ?_, ?_, ?_, ?_, ?_, ?_, ?_, ?_, ?_, ?_, ?_, ?_,
    ?_, ?_, ?_⟩ <;> exact ⟨_, _, rfl, by decide⟩

theorem not_nameStart_of_digit {c : UInt8} (h : isDigit c = true) : isNameStart c = false := by
  have hall : ∀ c : Fin 256, isDigit ⟨⟨c⟩⟩ = true → isNameStart ⟨⟨c⟩⟩ = false := by decide +kernel
  exact hall c.toBitVec.toFin h

section

variable {c : UInt8} {cs rest : List UInt8}

theorem longest_digits (hc : isDigit c = true) :
    Longest ((c :: cs).takeWhile isDigit) ((c :: cs).dropWhile isDigit) := by
  intro type other hother hinit
  rw [List.takeWhile_append_dropWhile] at hinit
  have hshape := hother.shape
  cases hshape with
  | @digits d text hd hdigits =>
    exact length_le_takeWhile (List.forall_mem_cons.mpr ⟨hd, hdigits⟩) hinit
  | @name d text hstart hbytes =>
    obtain ⟨rfl, -⟩ := List.cons_prefix_cons.mp hinit
    rw [not_nameStart_of_digit hc] at hstart
    cases hstart
  | operator h =>
    obtain ⟨d, ds, heq, hd, -⟩ := operator_head _ h
    rw [heq] at hinit
    obtain ⟨rfl, -⟩ := List.cons_prefix_cons.mp hinit
    rw [hd] at hc
    cases hc

theorem longest_name (hc : isNameStart c = true) :
    Longest ((c :: cs).takeWhile isNameByte) ((c :: cs).dropWhile isNameByte) := by
  intro type other hother hinit
  rw [List.takeWhile_append_dropWhile] at hinit
  have hshape := hother.shape
  cases hshape with
  | @digits d text hd hdigits =>
    obtain ⟨rfl, -⟩ := List.cons_prefix_cons.mp hinit
    rw [not_nameStart_of_digit hd] at hc
    cases hc
  | @name d text hstart hbytes =>
    refine length_le_takeWhile (List.forall_mem_cons.mpr ⟨?_, hbytes⟩) hinit
    simp [isNameByte, hstart]
  | operator h =>
    obtain ⟨d, ds, heq, -, hd, -⟩ := operator_head _ h
    rw [heq] at hinit
    obtain ⟨rfl, -⟩ := List.cons_prefix_cons.mp hinit
    rw [hd] at hc
    cases hc

/-- Behind a byte that is neither a digit nor starts a name only operatorTypes can be. -/
theorem operator_of_spelling (hdigit : isDigit c = false) (hname : isNameStart c = false)
    {type : TokenType} {other : List UInt8} (h : Spelling type other)
    (hinit : other <+: c :: cs) :
    ∃ ds, other = c :: ds ∧ ds <+: cs ∧ (singleByte c ≠ none ∧ ds = [] ∨ singleByte c = none ∧
      (c = 33 ∨ c = 61 ∨ c = 62 ∨ c = 60) ∧
      (ds = [] ∨ ds = [61] ∨ c = 62 ∧ ds = [62] ∨ c = 60 ∧ ds = [60])) := by
  have hshape := h.shape
  cases hshape with
  | @digits d text hd _ =>
    obtain ⟨rfl, -⟩ := List.cons_prefix_cons.mp hinit
    rw [hdigit] at hd
    cases hd
  | @name d text hstart _ =>
    obtain ⟨rfl, -⟩ := List.cons_prefix_cons.mp hinit
    rw [hname] at hstart
    cases hstart
  | operator hmem =>
    obtain ⟨d, ds, heq, -, -, hcases⟩ := operator_head _ hmem
    rw [heq] at hinit
    obtain ⟨rfl, hds⟩ := List.cons_prefix_cons.mp hinit
    exact ⟨ds, heq, hds, hcases⟩

theorem longest_pair (hdigit : isDigit c = false) (hname : isNameStart c = false) (d : UInt8) :
    Longest [c, d] rest := by
  intro type other hother hinit
  obtain ⟨ds, rfl, -, ⟨-, rfl⟩ | ⟨-, -, rfl | rfl | ⟨-, rfl⟩ | ⟨-, rfl⟩⟩⟩ :=
    operator_of_spelling hdigit hname hother hinit
  all_goals simp

/-- A single byte is the longest operator where the second byte of none follows. -/
theorem longest_single (hdigit : isDigit c = false) (hname : isNameStart c = false)
    (h : singleByte c = none → ¬ [61] <+: rest ∧ (c = 62 → ¬ [62] <+: rest) ∧
      (c = 60 → ¬ [60] <+: rest)) : Longest [c] rest := by
  intro type other hother hinit
  obtain ⟨ds, rfl, hds, ⟨-, rfl⟩ | ⟨hnone, -, rfl | rfl | ⟨rfl, rfl⟩ | ⟨rfl, rfl⟩⟩⟩ :=
    operator_of_spelling hdigit hname hother hinit
  · exact Nat.le_refl _
  · exact Nat.le_refl _
  · exact absurd hds (h hnone).1
  · exact absurd hds ((h hnone).2.1 rfl)
  · exact absurd hds ((h hnone).2.2 rfl)

end

/-! ## Tokens -/

/-- The bytes of a token, and the bytes behind it. -/
inductive TokenAt : TokenType → List UInt8 → List UInt8 → Prop
  | token {type : TokenType} {text rest : List UInt8} (hspelling : Spelling type text)
      (hlongest : Longest text rest) : TokenAt type text rest
  /-- A byte that starts no token. -/
  | illegal {c : UInt8} (rest : List UInt8)
      (hnone : ∀ type text, Spelling type text → text.head? ≠ some c) : TokenAt .error [c] rest

theorem TokenAt.ne_nil {type : TokenType} {text rest : List UInt8} (h : TokenAt type text rest) :
    text ≠ [] := by
  cases h with
  | token hspelling _ =>
    have hshape := hspelling.shape
    cases hshape with
    | digits _ _ => simp
    | name _ _ => simp
    | operator hmem =>
      obtain ⟨c, cs, heq, -⟩ := operator_head _ hmem
      simp [heq]
  | illegal _ _ => simp

theorem spelling_single {c : UInt8} {type : TokenType} (h : singleByte c = some type) :
    Spelling type [c] := by
  have hall : ∀ e ∈ singleBytes,
      e.2 ∈ operatorTypes ∧ svOf (tokenTypeName e.2) = [e.1] := by decide
  obtain ⟨hmem, heq⟩ := hall _ (singleByte_mem h)
  have hspelling := Spelling.operator hmem
  rwa [heq] at hspelling

section

variable {c : UInt8} {l : Lexer}

/-- Behind the byte `c`, a token and the lexer behind it. -/
def TokenBehind (c : UInt8) (l : Lexer) (r : Token × Lexer) : Prop :=
  ∃ text, c :: l.rest = text ++ r.2.rest ∧ TokenAt r.1.type text r.2.rest

theorem tokenBehind_orDouble {second : UInt8} {double : TokenType} {other : Token × Lexer}
    (hdigit : isDigit c = false) (hname : isNameStart c = false)
    (hdouble : Spelling double [c, second])
    (hother : ¬ [second] <+: l.rest → TokenBehind c l other) :
    TokenBehind c l (l.orDouble second double other) := by
  unfold Lexer.orDouble
  split
  · rename_i d ds hrest
    split
    · subst d
      exact ⟨[c, second], by rw [hrest]; rfl, .token hdouble (longest_pair hdigit hname _)⟩
    · rename_i hne
      refine hother fun hinit => hne ?_
      rw [hrest] at hinit
      exact (List.cons_prefix_cons.mp hinit).1.symm
  · rename_i hrest
    refine hother fun hinit => ?_
    rw [hrest] at hinit
    have := hinit.length_le
    simp at this

theorem tokenBehind_operatorToken (hdigit : isDigit c = false) (hname : isNameStart c = false) :
    TokenBehind c l (operatorToken c l) := by
  have hself : ∀ {type : TokenType}, Spelling type [c] →
      (singleByte c = none → ¬ [61] <+: l.rest ∧ (c = 62 → ¬ [62] <+: l.rest) ∧
        (c = 60 → ¬ [60] <+: l.rest)) → TokenBehind c l (l.tokenNoSv type) :=
    fun hspelling h => ⟨[c], rfl, .token hspelling (longest_single hdigit hname h)⟩
  have hop : ∀ type ∈ operatorTypes, Spelling type (svOf (tokenTypeName type)) := fun _ => .operator
  unfold operatorToken
  split
  · rename_i type hsingle
    refine ⟨[c], rfl, .token (spelling_single hsingle) (longest_single hdigit hname ?_)⟩
    intro hnone
    rw [hsingle] at hnone
    cases hnone
  · rename_i hsingle
    split
    · subst c
      exact tokenBehind_orDouble hdigit hname (hop .bangEqual (by decide))
        fun h => hself (hop .bang (by decide))
          fun _ => ⟨h, fun h => absurd h (by decide), fun h => absurd h (by decide)⟩
    · split
      · subst c
        exact tokenBehind_orDouble hdigit hname (hop .equalEqual (by decide))
          fun h => hself (hop .equal (by decide))
            fun _ => ⟨h, fun h => absurd h (by decide), fun h => absurd h (by decide)⟩
      · split
        · subst c
          exact tokenBehind_orDouble hdigit hname (hop .greaterEqual (by decide))
            fun h => tokenBehind_orDouble hdigit hname (hop .rshift (by decide))
              fun h' => hself (hop .greater (by decide))
                fun _ => ⟨h, fun _ => h', fun h => absurd h (by decide)⟩
        · split
          · subst c
            exact tokenBehind_orDouble hdigit hname (hop .lessEqual (by decide))
              fun h => tokenBehind_orDouble hdigit hname (hop .lshift (by decide))
                fun h' => hself (hop .less (by decide))
                  fun _ => ⟨h, fun h => absurd h (by decide), fun _ => h'⟩
          · rename_i h₁ h₂ h₃ h₄
            refine ⟨[c], rfl, .illegal _ fun type text hspelling hhead => ?_⟩
            obtain ⟨cs, rfl⟩ := List.head?_eq_some_iff.mp hhead
            obtain ⟨ds, -, -, ⟨hne, -⟩ | ⟨-, hc, -⟩⟩ :=
              operator_of_spelling hdigit hname hspelling (List.prefix_refl _)
            · exact hne hsingle
            · obtain rfl | rfl | rfl | rfl := hc <;> contradiction

end

theorem spelling_number {c : UInt8} (cs : List UInt8) (hc : isDigit c = true) :
    Spelling .number ((c :: cs).takeWhile isDigit) := by
  refine .number ?_ (List.all_eq_true.mp (all_takeWhile isDigit _))
  rw [List.takeWhile_cons, if_pos hc]
  exact List.cons_ne_nil _ _

theorem spelling_word {c : UInt8} (cs : List UInt8) (hc : isNameStart c = true) :
    Spelling (checkKeyword ((c :: cs).takeWhile isNameByte)) ((c :: cs).takeWhile isNameByte) := by
  have hall := List.all_eq_true.mp (all_takeWhile isNameByte cs)
  rw [List.takeWhile_cons, if_pos (by simp [isNameByte, hc])]
  generalize cs.takeWhile isNameByte = text at hall
  cases hfind : keywords.find? fun type => svEq (c :: text) (svOf (tokenTypeName type)) with
  | none =>
    have hkind : checkKeyword (c :: text) = .identifier := by simp [checkKeyword, hfind]
    rw [hkind]
    refine .identifier hc hall fun type hmem heq => ?_
    have := List.find?_eq_none.mp hfind type hmem
    exact this ((svEq_iff _ _).mpr heq)
  | some type =>
    have hkind : checkKeyword (c :: text) = type := by simp [checkKeyword, hfind]
    rw [hkind, (svEq_iff _ _).mp (List.find?_some hfind :)]
    exact .keyword (List.mem_of_find?_eq_some hfind)

/-- Behind a keyword the word is over. -/
theorem TokenAt.whole_word {type : TokenType} {text rest : List UInt8}
    (h : TokenAt type text rest) (hkeyword : type ∈ keywords) :
    ∀ c ∈ rest.head?, isNameByte c = false := by
  intro c hc
  obtain ⟨cs, rfl⟩ := List.head?_eq_some_iff.mp hc
  cases h with
  | illegal _ _ => exact absurd hkeyword (by decide)
  | token hspelling hlongest =>
    have hword : ∃ b bs, text = b :: bs ∧ isNameStart b = true ∧
        ∀ d ∈ bs, isNameByte d = true := by
      have hdisjoint : ∀ type ∈ keywords, type ∉ operatorTypes ∧ type ≠ .number := by decide
      cases hspelling with
      | keyword h =>
        have hall : ∀ type ∈ keywords, isName (svOf (tokenTypeName type)) = false ∧
            isNameStart ((svOf (tokenTypeName type)).headD 0) = true ∧
            (svOf (tokenTypeName type)).all isNameByte = true ∧
            svOf (tokenTypeName type) ≠ [] := by decide
        obtain ⟨-, hstart, hbytes, hne⟩ := hall _ h
        obtain ⟨b, bs, heq⟩ := List.exists_cons_of_ne_nil hne
        rw [heq] at hstart hbytes
        exact ⟨b, bs, heq, hstart, fun d hd =>
          List.all_eq_true.mp hbytes d (List.mem_cons_of_mem _ hd)⟩
      | number _ _ => exact absurd rfl (hdisjoint _ hkeyword).2
      | identifier hstart hbytes _ => exact ⟨_, _, rfl, hstart, hbytes⟩
      | operator h => exact absurd h (hdisjoint _ hkeyword).1
    obtain ⟨b, bs, rfl, hstart, hbytes⟩ := hword
    rw [← Bool.not_eq_true]
    intro hname
    -- the word with the next byte is a word, too, and longer
    have hlonger : ∀ d ∈ bs ++ [c], isNameByte d = true := by
      intro d hd
      rcases List.mem_append.mp hd with hd' | hd'
      · exact hbytes d hd'
      · rwa [List.mem_singleton.mp hd']
    have htake : (b :: (bs ++ [c])).takeWhile isNameByte = b :: (bs ++ [c]) := by
      rw [List.takeWhile_cons, if_pos (by simp [isNameByte, hstart]),
        List.takeWhile_eq_self_iff.mpr hlonger]
    have hspelling' := spelling_word (bs ++ [c]) hstart
    rw [htake] at hspelling'
    have hle := hlongest _ _ hspelling' ⟨cs, by simp⟩
    simp only [List.length_cons, List.length_append, List.length_nil] at hle
    omega

/-! ## The reading of a file -/

/-- Trivia and tokens in turn, from an offset to the end of the file: the type of each token
and the offset behind it.  Before a token all trivia are skipped. -/
inductive Tokenized : Nat → List UInt8 → List (TokenType × Nat) → Prop
  | eof {start : Nat} {gap : List UInt8} (hgap : Gap gap []) :
      Tokenized start gap [(.eof, start + gap.length)]
  | token {start : Nat} {gap text rest : List UInt8} {type : TokenType}
      {calls : List (TokenType × Nat)} (hgap : Gap gap (text ++ rest))
      (hnone : ¬ AtTrivia (text ++ rest)) (htoken : TokenAt type text rest)
      (hrest : Tokenized (start + (gap ++ text).length) rest calls) :
      Tokenized start (gap ++ (text ++ rest)) ((type, start + (gap ++ text).length) :: calls)

theorem TokenAt.ne_eof {type : TokenType} {text rest : List UInt8} (h : TokenAt type text rest) :
    type ≠ .eof := by
  rintro rfl
  cases h with
  | token hspelling _ =>
    cases hspelling with
    | keyword h => exact absurd h (by decide)
    | operator h => exact absurd h (by decide)

/-- What `lexer_next` returns: the end of the file behind trivia, or the longest token behind
them. -/
theorem lexerNext_spec (l : Lexer) :
    (lexerNext l).1.type = .eof ∧ Gap l.rest [] ∧ (lexerNext l).2.rest = [] ∨
    ∃ gap text, l.rest = gap ++ (text ++ (lexerNext l).2.rest) ∧
      Gap gap (text ++ (lexerNext l).2.rest) ∧ ¬ AtTrivia (text ++ (lexerNext l).2.rest) ∧
      TokenAt (lexerNext l).1.type text (lexerNext l).2.rest := by
  obtain ⟨gap, hl, hgap, hnone⟩ := lexerSkipWhitespace_gap l
  unfold lexerNext
  generalize lexerSkipWhitespace l = l₁ at hl hgap hnone ⊢
  obtain ⟨rest, line, column⟩ := l₁
  cases rest with
  | nil =>
    refine .inl ⟨rfl, ?_, rfl⟩
    rw [hl, List.append_nil]
    exact hgap
  | cons c cs =>
    have hbehind : ∀ {text rest' : List UInt8} {type : TokenType}, c :: cs = text ++ rest' →
        TokenAt type text rest' → ∃ gap text, l.rest = gap ++ (text ++ rest') ∧
          Gap gap (text ++ rest') ∧ ¬ AtTrivia (text ++ rest') ∧ TokenAt type text rest' := by
      intro text rest' type heq htoken
      exact ⟨gap, text, by rw [← heq]; exact hl, by rw [← heq]; exact hgap,
        by rw [← heq]; exact hnone, htoken⟩
    refine .inr ?_
    simp only
    split
    · rename_i hdigit
      exact hbehind List.takeWhile_append_dropWhile.symm
        (.token (spelling_number cs hdigit) (longest_digits hdigit))
    · split
      · rename_i hname
        exact hbehind List.takeWhile_append_dropWhile.symm
          (.token (spelling_word cs hname) (longest_name hname))
      · rename_i hdigit hname
        obtain ⟨text, heq, htoken⟩ := tokenBehind_operatorToken
          (l := ⟨cs, line, column + 1⟩) (by simpa using hdigit) (by simpa using hname)
        exact hbehind heq htoken

end TinyCompile.Parser
