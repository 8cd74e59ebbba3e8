import TinyCompile.Parser.Lexer

set_option autoImplicit false

/-!
# Parser: what the lexer makes of the bytes

The language of trivia and tokens, from `lexer_tokens.def`, and the proof that `lexer_next`
cuts a file into it: trivia, then the longest token there is.
-/

namespace TinyCompile.Parser

open TinyCompile.Source

/-! ## Turns -/

/-- A turn of the loop of `lexer_skip_whitespace`. -/
def skipTurn (l : Lexer) : Option Lexer :=
  match l.rest with
  | [] => none
  | c :: cs =>
      if c = 32 ∨ c = 13 ∨ c = 9 then some ⟨cs, l.line, l.column + 1⟩
      else if c = 10 then some ⟨cs, l.line + 1, 2⟩
      else if c = 47 then isComment l
      else if c = 35 then some (skipLine l.rest l.line l.column)
      else none

theorem skipWhitespace_succ (n : Nat) (l : Lexer) : skipWhitespace (n + 1) l =
    match skipTurn l with
    | some l' => skipWhitespace n l'
    | none => l := by
  obtain ⟨rest, line, column⟩ := l
  cases rest with
  | nil => rfl
  | cons c cs =>
    simp only [skipWhitespace, skipTurn]
    split
    · rfl
    · split
      · rfl
      · split
        · rfl
        · split <;> rfl

theorem skipTurn_lt {l l' : Lexer} (h : skipTurn l = some l') :
    l'.rest.length < l.rest.length := by
  unfold skipTurn at h
  split at h
  · cases h
  · rename_i c cs hrest
    rw [hrest, List.length_cons]
    split at h
    · cases h
      exact Nat.lt_succ_self _
    · split at h
      · cases h
        exact Nat.lt_succ_self _
      · split at h
        · have := isComment_le h
          rwa [hrest, List.length_cons] at this
        · split at h
          · rename_i hnewline _ _
            cases h
            rw [hrest, skipLine, if_neg hnewline]
            exact Nat.lt_succ_of_le (skipLine_le _ _ _)
          · cases h

theorem skipWhitespace_enough {n m : Nat} {l : Lexer} (hn : l.rest.length ≤ n)
    (hm : l.rest.length ≤ m) : skipWhitespace n l = skipWhitespace m l := by
  induction n generalizing m l with
  | zero =>
    have hnone : skipTurn l = none := by
      unfold skipTurn
      rw [List.eq_nil_of_length_eq_zero (Nat.le_zero.mp hn)]
    cases m with
    | zero => rfl
    | succ m => rw [skipWhitespace_succ, hnone, skipWhitespace]
  | succ n ih =>
    cases m with
    | zero =>
      have hnone : skipTurn l = none := by
        unfold skipTurn
        rw [List.eq_nil_of_length_eq_zero (Nat.le_zero.mp hm)]
      rw [skipWhitespace_succ, hnone, skipWhitespace]
    | succ m =>
      rw [skipWhitespace_succ, skipWhitespace_succ]
      cases hturn : skipTurn l with
      | none => rfl
      | some l' =>
        have := skipTurn_lt hturn
        exact ih (by omega) (by omega)

/-- Skipping is a turn and skipping what is behind it. -/
theorem lexerSkipWhitespace_of_turn {l l' : Lexer} (h : skipTurn l = some l') :
    lexerSkipWhitespace l = lexerSkipWhitespace l' := by
  have hlt := skipTurn_lt h
  unfold lexerSkipWhitespace
  rw [skipWhitespace_enough (Nat.le_refl _) (Nat.le_succ _), skipWhitespace_succ, h]
  exact skipWhitespace_enough (by omega) (Nat.le_refl _)

theorem lexerSkipWhitespace_of_none {l : Lexer} (h : skipTurn l = none) :
    lexerSkipWhitespace l = l := by
  unfold lexerSkipWhitespace
  rw [skipWhitespace_enough (Nat.le_refl _) (Nat.le_succ _), skipWhitespace_succ, h]

/-- What holds before a turn and is kept by turns holds when there is none left. -/
theorem lexerSkipWhitespace_induct {P : Lexer → Lexer → Prop}
    (hdone : ∀ l, skipTurn l = none → P l l)
    (hturn : ∀ l l' l'', skipTurn l = some l' → P l' l'' → P l l'') (l : Lexer) :
    P l (lexerSkipWhitespace l) := by
  cases h : skipTurn l with
  | none =>
    rw [lexerSkipWhitespace_of_none h]
    exact hdone l h
  | some l' =>
    have := skipTurn_lt h
    rw [lexerSkipWhitespace_of_turn h]
    exact hturn l l' _ h (lexerSkipWhitespace_induct hdone hturn l')
termination_by l.rest.length

/-! ## Moves -/

/-- The lexer moves over bytes: a newline counts as the first byte of its line. -/
inductive Moves : Lexer → Lexer → Prop
  | refl (l : Lexer) : Moves l l
  | byte {c : UInt8} {cs : List UInt8} {line column : Nat} {l' : Lexer} (hc : c ≠ 10)
      (hrest : Moves ⟨cs, line, column + 1⟩ l') : Moves ⟨c :: cs, line, column⟩ l'
  | newline {cs : List UInt8} {line column : Nat} {l' : Lexer}
      (hrest : Moves ⟨cs, line + 1, 2⟩ l') : Moves ⟨10 :: cs, line, column⟩ l'

theorem Moves.trans {l l' l'' : Lexer} (h : Moves l l') (h' : Moves l' l'') : Moves l l'' := by
  induction h with
  | refl l => exact h'
  | byte hc _ ih => exact .byte hc (ih h')
  | newline _ ih => exact .newline (ih h')

theorem moves_skipLine (cs : List UInt8) (line column : Nat) :
    Moves ⟨cs, line, column⟩ (skipLine cs line column) := by
  induction cs generalizing column with
  | nil => exact .refl _
  | cons c cs ih =>
    unfold skipLine
    split
    · exact .refl _
    · exact .byte ‹_› (ih _)

theorem moves_skipComment (cs : List UInt8) (line column : Nat) :
    Moves ⟨cs, line, column⟩ (skipComment cs line column) := by
  induction cs, line, column using skipComment.induct with
  | case1 line column => exact .refl _
  | case2 line column cs => exact .byte (by decide) (.byte (by decide) (.refl _))
  | case3 line column cs ih => exact .newline ih
  | case4 c line column cs hclose hnewline ih =>
    rw [skipComment.eq_4 _ _ _ _ hclose hnewline]
    exact .byte hnewline ih

theorem moves_isComment {l l' : Lexer} (h : isComment l = some l') : Moves l l' := by
  obtain ⟨rest, line, column⟩ := l
  unfold isComment at h
  split at h
  · cases h
    exact moves_skipLine _ _ _
  · rename_i cs hrest
    cases h
    obtain rfl : rest = 47 :: 42 :: cs := hrest
    exact .byte (by decide) (.byte (by decide) (moves_skipComment _ _ _))
  · cases h

theorem moves_skipTurn {l l' : Lexer} (h : skipTurn l = some l') : Moves l l' := by
  obtain ⟨rest, line, column⟩ := l
  unfold skipTurn at h
  split at h
  · cases h
  · rename_i c cs hrest
    obtain rfl : rest = c :: cs := hrest
    split at h
    · rename_i hblank
      cases h
      refine .byte ?_ (.refl _)
      rintro rfl
      simp at hblank
    · split at h
      · subst c
        cases h
        exact .newline (.refl _)
      · split at h
        · exact moves_isComment h
        · split at h
          · cases h
            exact moves_skipLine _ _ _
          · cases h

theorem moves_skipWhitespace (l : Lexer) : Moves l (lexerSkipWhitespace l) :=
  lexerSkipWhitespace_induct (P := Moves) (fun l _ => .refl l)
    (fun _ _ _ hturn h => (moves_skipTurn hturn).trans h) l

/-- Over a run of bytes without a newline. -/
theorem moves_run {p : UInt8 → Bool} (hp : p 10 = false) (cs : List UInt8) (line column : Nat) :
    Moves ⟨cs, line, column⟩ ⟨cs.dropWhile p, line, column + (cs.takeWhile p).length⟩ := by
  induction cs generalizing column with
  | nil => exact .refl _
  | cons c cs ih =>
    rw [List.dropWhile_cons, List.takeWhile_cons]
    by_cases hc : p c = true
    · rw [if_pos hc, if_pos hc, List.length_cons, Nat.add_comm _ 1, ← Nat.add_assoc]
      refine .byte ?_ (ih _)
      rintro rfl
      rw [hp] at hc
      cases hc
    · rw [if_neg hc, if_neg hc]
      exact .refl _

theorem moves_orDouble {l : Lexer} {second : UInt8} {double : TokenType} {other : Token × Lexer}
    (hsecond : second ≠ 10) (hother : Moves l other.2) :
    Moves l (l.orDouble second double other).2 := by
  obtain ⟨rest, line, column⟩ := l
  unfold Lexer.orDouble
  split
  · rename_i c cs hrest
    obtain rfl : rest = c :: cs := hrest
    split
    · subst c
      exact .byte hsecond (.refl _)
    · exact hother
  · exact hother

theorem moves_operatorToken (c : UInt8) (l : Lexer) : Moves l (operatorToken c l).2 := by
  have hself : ∀ type, Moves l (l.tokenNoSv type).2 := fun _ => .refl l
  unfold operatorToken
  split
  · exact .refl l
  · split
    · exact moves_orDouble (by decide) (hself _)
    · split
      · exact moves_orDouble (by decide) (hself _)
      · split
        · exact moves_orDouble (by decide) (moves_orDouble (by decide) (hself _))
        · split
          · exact moves_orDouble (by decide) (moves_orDouble (by decide) (hself _))
          · exact hself _

/-- A newline is skipped before a token. -/
theorem skipTurn_newline {cs : List UInt8} {line column : Nat} :
    skipTurn ⟨10 :: cs, line, column⟩ = some ⟨cs, line + 1, 2⟩ := rfl

theorem skipTurn_lexerSkipWhitespace (l : Lexer) : skipTurn (lexerSkipWhitespace l) = none :=
  lexerSkipWhitespace_induct (P := fun _ l' => skipTurn l' = none) (fun _ h => h)
    (fun _ _ _ _ h => h) l

theorem moves_lexerNext (l : Lexer) : Moves l (lexerNext l).2 := by
  refine (moves_skipWhitespace l).trans ?_
  have hnone := skipTurn_lexerSkipWhitespace l
  unfold lexerNext
  generalize lexerSkipWhitespace l = l at hnone ⊢
  obtain ⟨rest, line, column⟩ := l
  cases rest with
  | nil => exact .refl _
  | cons c cs =>
    simp only
    split
    · exact moves_run (by decide) _ _ _
    · split
      · exact moves_run (by decide) _ _ _
      · refine .byte ?_ (moves_operatorToken c _)
        rintro rfl
        rw [skipTurn_newline] at hnone
        cases hnone

/-! ## Positions -/

/-- The bytes behind the last newline. -/
def sinceNewline (bytes : List UInt8) : Nat := (bytes.reverse.takeWhile (· != 10)).length

/-- The line that the lexer counts. -/
def lineAfter (bytes : List UInt8) : Nat := 1 + bytes.count 10

/-- The column that the lexer counts: on every line but the first it is one too large. -/
def columnAfter (bytes : List UInt8) : Nat :=
  (if 10 ∈ bytes then 2 else 1) + sinceNewline bytes

theorem sinceNewline_append {c : UInt8} (hc : c ≠ 10) (bytes : List UInt8) :
    sinceNewline (bytes ++ [c]) = sinceNewline bytes + 1 := by
  unfold sinceNewline
  rw [List.reverse_append, List.reverse_singleton, List.singleton_append, List.takeWhile_cons,
    if_pos (by simpa using hc), List.length_cons]

theorem sinceNewline_newline (bytes : List UInt8) : sinceNewline (bytes ++ [10]) = 0 := by
  unfold sinceNewline
  rw [List.reverse_append, List.reverse_singleton, List.singleton_append, List.takeWhile_cons]
  rfl

/-- The counters after the bytes consumed. -/
theorem Moves.position {l l' : Lexer} (h : Moves l l') : ∀ bytes : List UInt8,
    l.line = lineAfter bytes → l.column = columnAfter bytes →
    ∃ more, l.rest = more ++ l'.rest ∧ l'.line = lineAfter (bytes ++ more) ∧
      l'.column = columnAfter (bytes ++ more) := by
  induction h with
  | refl l => exact fun _ hline hcolumn => ⟨[], rfl, by rwa [List.append_nil],
      by rwa [List.append_nil]⟩
  | @byte c cs line column l' hc _ ih =>
    intro bytes hline hcolumn
    obtain ⟨more, hrest, hline', hcolumn'⟩ := ih (bytes ++ [c])
      (by simpa [lineAfter, hc] using hline)
      (by
        simp only at hcolumn ⊢
        simp [columnAfter, sinceNewline_append hc, Ne.symm hc, hcolumn]
        omega)
    refine ⟨c :: more, by simpa using hrest, ?_, ?_⟩
    · rw [hline']
      simp
    · rw [hcolumn']
      simp
  | @newline cs line column l' _ ih =>
    intro bytes hline hcolumn
    obtain ⟨more, hrest, hline', hcolumn'⟩ := ih (bytes ++ [10])
      (by
        simp only at hline ⊢
        simp [lineAfter, hline]
        omega)
      (by simp [columnAfter, sinceNewline_newline])
    refine ⟨10 :: more, by simpa using hrest, ?_, ?_⟩
    · rw [hline']
      simp
    · rw [hcolumn']
      simp

end TinyCompile.Parser
