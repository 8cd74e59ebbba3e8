import TinyCompile.Logic.Loop
import TinyCompile.Parser.Longest

set_option autoImplicit false

/-!
# Parser: the lexer on its buffer

`srcs/lexer/lexer.c` and `srcs/lexer/helpers.c` again, as they read the mapped file: `curr`
is an offset from its start, a read outside of it is a fault, and the counters are C's
`int`.  Every operation returns, and does what the lexer on a list does.
-/

namespace TinyCompile.Parser.Buffer

open TinyCompile.Source TinyCompile.Logic

/-! ## Reading and advancing -/

/-- How the process can end inside the lexer. -/
inductive Fault where
  /-- A read outside the buffer. -/
  | outside
  /-- A loop exceeds the bound on its turns. -/
  | outOfTurns
  deriving DecidableEq, Repr

/-- `Lexer`, with `curr` as an offset. -/
structure Cursor where
  curr : Nat
  line : BitVec 32
  column : BitVec 32
  deriving DecidableEq, Repr

/-- The lexer's computations. -/
abbrev LexM := StateT Cursor (Except Fault)

/-- `lexer_init`. -/
def lexerInit : Cursor := ⟨0, 1, 1⟩

section

variable (data : List UInt8)

/-- Read a byte of the buffer. -/
def readByte (i : Nat) : LexM UInt8 :=
  match data[i]? with
  | some c => return c
  | none => throw .outside

/-- `lexer_peek`. -/
def lexerPeek : LexM UInt8 := do
  let l ← get
  if l.curr ≥ data.length then return 0 else readByte data l.curr

/-- `lexer_peek_next`. -/
def lexerPeekNext : LexM UInt8 := do
  let l ← get
  if l.curr + 1 ≥ data.length then return 0 else readByte data (l.curr + 1)

/-- `lexer_advance`. -/
def lexerAdvance : LexM UInt8 := do
  modify fun l => { l with curr := l.curr + 1, column := l.column + 1 }
  let l ← get
  readByte data (l.curr - 1)

/-- A loop of the lexer; every turn but the last takes a byte. -/
def whileTurns (turn : LexM (Turn Unit Unit)) : LexM Unit :=
  loop .outOfTurns (fun _ => turn) (data.length + 1) ()

/-! ## Whitespace and comments -/

/-- Advance by a byte and go on. -/
def advanceAgain : LexM (Turn Unit Unit) := do
  let _ ← lexerAdvance data
  return .again ()

/-- The body of the loop up to the end of the line. -/
def lineTurn : LexM (Turn Unit Unit) := do
  let c ← lexerPeek data
  let l ← get
  if c ≠ 10 ∧ l.curr < data.length then advanceAgain data else return .leave ()

/-- `line++` and `column = 1`. -/
def newline : LexM Unit := modify fun l => { l with line := l.line + 1, column := 1 }

/-- Whether the two bytes that close a comment are next; the second is looked at only
behind a star. -/
def atClose : LexM Bool := do
  let c ← lexerPeek data
  if c = 42 then do
    let d ← lexerPeekNext data
    return d == 47
  else return false

/-- The body of the loop over a block comment. -/
def commentTurn : LexM (Turn Unit Unit) := do
  let l ← get
  if l.curr < data.length then do
    let close ← atClose data
    if close then do
      let _ ← lexerAdvance data
      let _ ← lexerAdvance data
      return .leave ()
    else do
      let c ← lexerPeek data
      if c = 10 then do
        newline
        advanceAgain data
      else advanceAgain data
  else return .leave ()

/-- `is_comment`. -/
def isComment : LexM Bool := do
  let c ← lexerPeekNext data
  if c = 47 then do
    whileTurns data (lineTurn data)
    return true
  else if c = 42 then do
    let _ ← lexerAdvance data
    let _ ← lexerAdvance data
    whileTurns data (commentTurn data)
    return true
  else return false

/-- The body of the loop of `lexer_skip_whitespace`. -/
def whitespaceTurn : LexM (Turn Unit Unit) := do
  let l ← get
  if l.curr < data.length then do
    let c ← readByte data l.curr
    if c = 32 ∨ c = 13 ∨ c = 9 then advanceAgain data
    else if c = 10 then do
      newline
      advanceAgain data
    else if c = 47 then do
      let comment ← isComment data
      return if comment then .again () else .leave ()
    else if c = 35 then do
      whileTurns data (lineTurn data)
      return .again ()
    else return .leave ()
  else return .leave ()

/-- `lexer_skip_whitespace`. -/
def lexerSkipWhitespace : LexM Unit := whileTurns data (whitespaceTurn data)

/-! ## Tokens -/

/-- `lexer_make_token`; a token keeps the counters as numbers. -/
def lexerMakeToken (type : TokenType) (text : StringView) : LexM Token := do
  let l ← get
  return ⟨type, text, l.line.toNat, l.column.toNat⟩

/-- `lexer_make_token_no_sv`. -/
def lexerMakeTokenNoSv (type : TokenType) : LexM Token := lexerMakeToken type []

/-- The bytes from `start` to `curr`. -/
def textFrom (start : Nat) : LexM StringView := do
  let l ← get
  return (data.drop start).take (l.curr - start)

/-- The body of a loop over a run of bytes. -/
def runTurn (p : UInt8 → Bool) : LexM (Turn Unit Unit) := do
  let l ← get
  if l.curr < data.length then do
    let c ← readByte data l.curr
    if p c then advanceAgain data else return .leave ()
  else return .leave ()

/-- A token of one or two bytes: `double` where the byte `second` follows. -/
def orDouble (second : UInt8) (double : TokenType) (other : LexM Token) : LexM Token := do
  let c ← lexerPeek data
  if c = second then do
    let _ ← lexerAdvance data
    lexerMakeTokenNoSv double
  else other

/-- The `switch` of `lexer_next`: the byte `c` has been taken. -/
def operatorToken (c : UInt8) (text : StringView) : LexM Token :=
  match singleByte c with
  | some type => lexerMakeToken type text
  | none =>
      if c = 33 then orDouble data 61 .bangEqual (lexerMakeTokenNoSv .bang)
      else if c = 61 then orDouble data 61 .equalEqual (lexerMakeTokenNoSv .equal)
      else if c = 62 then
        orDouble data 61 .greaterEqual (orDouble data 62 .rshift (lexerMakeTokenNoSv .greater))
      else if c = 60 then
        orDouble data 61 .lessEqual (orDouble data 60 .lshift (lexerMakeTokenNoSv .less))
      else lexerMakeTokenNoSv .error

/-- `lexer_next`. -/
def lexerNext : LexM Token := do
  lexerSkipWhitespace data
  let l ← get
  if l.curr ≥ data.length then lexerMakeTokenNoSv .eof
  else do
    let c ← readByte data l.curr
    if isDigit c then do
      whileTurns data (runTurn data isDigit)
      let text ← textFrom data l.curr
      lexerMakeToken .number text
    else if isNameStart c then do
      whileTurns data (runTurn data isNameByte)
      let text ← textFrom data l.curr
      lexerMakeToken (checkKeyword text) text
    else do
      let _ ← lexerAdvance data
      let text ← textFrom data l.curr
      operatorToken data c text

end

/-! ## The lexer on a list -/

/-- A cursor is where a lexer on a list is. -/
structure Matches (data : List UInt8) (c : Cursor) (l : Lexer) : Prop where
  inside : c.curr ≤ data.length
  rest : data.drop c.curr = l.rest
  line : c.line = .ofNat 32 l.line
  column : c.column = .ofNat 32 l.column

section

variable {data : List UInt8} {c : Cursor} {l : Lexer}

theorem matches_init (data : List UInt8) :
    Matches data lexerInit (TinyCompile.Parser.lexerInit data) :=
  ⟨Nat.zero_le _, rfl, rfl, rfl⟩

theorem Matches.length (h : Matches data c l) : c.curr + l.rest.length = data.length := by
  have := h.inside
  rw [← h.rest, List.length_drop]
  omega

theorem Matches.getElem? (h : Matches data c l) (i : Nat) : data[c.curr + i]? = l.rest[i]? := by
  rw [← h.rest, List.getElem?_drop]

theorem Matches.advance {b : UInt8} {bs : List UInt8} {line column : Nat}
    (h : Matches data c ⟨b :: bs, line, column⟩) :
    Matches data { c with curr := c.curr + 1, column := c.column + 1 } ⟨bs, line, column + 1⟩ where
  inside := by
    have := h.length
    rw [List.length_cons] at this
    show c.curr + 1 ≤ _
    omega
  rest := by
    show data.drop (c.curr + 1) = bs
    rw [← List.drop_drop, h.rest]
    rfl
  line := h.line
  column := by
    show c.column + 1 = _
    rw [h.column, BitVec.ofNat_add]
    rfl

theorem Matches.newline {bs : List UInt8} {line column : Nat}
    (h : Matches data c ⟨bs, line, column⟩) :
    Matches data { c with line := c.line + 1, column := 1 } ⟨bs, line + 1, 1⟩ where
  inside := h.inside
  rest := h.rest
  line := by
    show c.line + 1 = _
    rw [h.line, BitVec.ofNat_add]
    rfl
  column := rfl

/-! ## Every operation does what the lexer on a list does -/

/-- Total correctness: a run that must not fault. -/
abbrev Does {α : Type} (x : LexM α) (Q : α → Cursor → Prop) (c : Cursor) : Prop :=
  wp (fun _ => False) x Q c

theorem does_readByte {Q : UInt8 → Cursor → Prop} {i : Nat} {b : UInt8}
    (h : data[i]? = some b) (hQ : Q b c) : Does (readByte data i) Q c := by
  unfold readByte
  rw [h]
  exact hQ

/-- Behind the end the lexer sees a zero byte. -/
theorem does_lexerPeek {Q : UInt8 → Cursor → Prop} (h : Matches data c l)
    (hQ : Q (l.rest.head?.getD 0) c) : Does (lexerPeek data) Q c := by
  have hlength := h.length
  have hbyte := h.getElem? 0
  unfold Does lexerPeek
  rw [wp_bind, wp_get]
  cases hrest : l.rest with
  | nil =>
    rw [hrest] at hlength hQ
    rw [if_pos (by rw [← hlength]; exact Nat.le_refl _)]
    exact hQ
  | cons b bs =>
    rw [hrest] at hlength hQ hbyte
    rw [if_neg (by simp only [List.length_cons] at hlength; omega)]
    exact does_readByte hbyte hQ

theorem does_lexerPeekNext {Q : UInt8 → Cursor → Prop} (h : Matches data c l)
    (hQ : Q (l.rest[1]?.getD 0) c) : Does (lexerPeekNext data) Q c := by
  have hlength := h.length
  have hbyte := h.getElem? 1
  unfold Does lexerPeekNext
  rw [wp_bind, wp_get]
  cases hnext : l.rest[1]? with
  | none =>
    rw [hnext] at hQ
    rw [if_pos (by have := List.getElem?_eq_none_iff.mp hnext; omega)]
    exact hQ
  | some b =>
    rw [hnext] at hQ hbyte
    obtain ⟨hlt, -⟩ := List.getElem?_eq_some_iff.mp hnext
    rw [if_neg (by omega)]
    exact does_readByte hbyte hQ

theorem does_lexerAdvance {Q : UInt8 → Cursor → Prop} {b : UInt8} {bs : List UInt8}
    {line column : Nat} (h : Matches data c ⟨b :: bs, line, column⟩)
    (hQ : ∀ c', Matches data c' ⟨bs, line, column + 1⟩ → c'.curr = c.curr + 1 → Q b c') :
    Does (lexerAdvance data) Q c := by
  unfold Does lexerAdvance
  rw [wp_bind, wp_modify, wp_bind, wp_get]
  exact does_readByte (h.getElem? 0) (hQ _ h.advance rfl)

theorem does_advanceAgain {Q : Turn Unit Unit → Cursor → Prop} {b : UInt8} {bs : List UInt8}
    {line column : Nat} (h : Matches data c ⟨b :: bs, line, column⟩)
    (hQ : ∀ c', Matches data c' ⟨bs, line, column + 1⟩ → c'.curr = c.curr + 1 → Q (.again ()) c') :
    Does (advanceAgain data) Q c := by
  unfold Does advanceAgain
  rw [wp_bind]
  exact does_lexerAdvance h hQ

/-- A loop that is done when a condition on the lexer is met. -/
theorem does_whileTurns {turn : LexM (Turn Unit Unit)} {Q : Unit → Cursor → Prop}
    (inv : Cursor → Lexer → Prop)
    (hturn : ∀ c l, Matches data c l → inv c l → Does turn (fun r c' =>
      match r with
      | .again _ => ∃ l', Matches data c' l' ∧ inv c' l' ∧ c.curr < c'.curr
      | .leave _ => Q () c') c)
    (h : Matches data c l) (hinv : inv c l) : Does (whileTurns data turn) Q c := by
  refine wp_loop (fun _ c => ∃ l, Matches data c l ∧ inv c l) (fun c => data.length - c.curr) ?_
    ⟨l, h, hinv⟩ (by omega)
  rintro _ c ⟨l, h, hinv⟩
  refine wp_mono (hturn c l h hinv) fun r c' hr => ?_
  cases r with
  | again u =>
    obtain ⟨l', h', hinv', hlt⟩ := hr
    have := h'.inside
    exact ⟨⟨l', h', hinv'⟩, by omega⟩
  | leave u => exact hr

theorem does_skipLine {Q : Unit → Cursor → Prop} (h : Matches data c l)
    (hQ : ∀ c', Matches data c' (skipLine l.rest l.line l.column) → c.curr ≤ c'.curr → Q () c') :
    Does (whileTurns data (lineTurn data)) Q c := by
  refine does_whileTurns (fun c₁ l₁ => c.curr ≤ c₁.curr ∧
    skipLine l₁.rest l₁.line l₁.column = skipLine l.rest l.line l.column) ?_ h ⟨Nat.le_refl _, rfl⟩
  rintro c₁ ⟨rest, line, column⟩ h₁ ⟨hle, hline⟩
  unfold lineTurn Does
  rw [wp_bind]
  refine does_lexerPeek h₁ ?_
  rw [wp_bind, wp_get]
  have hlength := h₁.length
  cases rest with
  | nil =>
    rw [if_neg (fun hc => by simp only [List.length_nil] at hlength; omega)]
    refine hQ c₁ ?_ hle
    rw [← hline]
    exact h₁
  | cons b bs =>
    by_cases hb : b = 10
    · subst hb
      rw [if_neg (fun hc => hc.1 rfl)]
      refine hQ c₁ ?_ hle
      rw [← hline]
      exact h₁
    · rw [if_pos ⟨hb, by simp only [List.length_cons] at hlength; omega⟩]
      refine does_advanceAgain h₁ fun c₂ h₂ hcurr => ⟨_, h₂, ⟨by omega, ?_⟩, by omega⟩
      rw [← hline]
      exact (if_neg hb).symm

theorem skipComment_close (cs : List UInt8) (line column : Nat) :
    skipComment (42 :: 47 :: cs) line column = ⟨cs, line, column + 2⟩ := rfl

theorem skipComment_step {b : UInt8} {bs : List UInt8} {line column : Nat}
    (hclose : ¬ (b = 42 ∧ bs.head? = some 47)) : skipComment (b :: bs) line column =
      if b = 10 then skipComment bs (line + 1) 2 else skipComment bs line (column + 1) := by
  split
  · subst b
    rfl
  · refine skipComment.eq_4 _ _ _ _ (fun cs hb hbs => hclose ⟨hb, ?_⟩) ‹_›
    rw [hbs]
    rfl

theorem does_atClose {Q : Bool → Cursor → Prop} (h : Matches data c l)
    (hQ : Q (l.rest.head?.getD 0 = 42 ∧ l.rest[1]?.getD 0 = 47) c) :
    Does (atClose data) Q c := by
  unfold Does atClose
  rw [wp_bind]
  refine does_lexerPeek h (wp_ite (fun hstar => ?_) fun hstar => ?_)
  · rw [wp_bind]
    refine does_lexerPeekNext h ?_
    simp only [hstar, true_and] at hQ
    exact hQ
  · simp only [hstar, false_and] at hQ
    exact hQ

theorem does_skipComment {Q : Unit → Cursor → Prop} (h : Matches data c l)
    (hQ : ∀ c', Matches data c' (skipComment l.rest l.line l.column) → c.curr ≤ c'.curr →
      Q () c') : Does (whileTurns data (commentTurn data)) Q c := by
  refine does_whileTurns (fun c₁ l₁ => c.curr ≤ c₁.curr ∧
    skipComment l₁.rest l₁.line l₁.column = skipComment l.rest l.line l.column) ?_ h
    ⟨Nat.le_refl _, rfl⟩
  rintro c₁ ⟨rest, line, column⟩ h₁ ⟨hle, hcomment⟩
  have hlength := h₁.length
  unfold commentTurn Does
  rw [wp_bind, wp_get]
  cases rest with
  | nil =>
    rw [if_neg (by simp only [List.length_nil] at hlength; omega)]
    refine hQ c₁ ?_ hle
    rw [← hcomment]
    exact h₁
  | cons b bs =>
    rw [if_pos (by simp only [List.length_cons] at hlength; omega), wp_bind]
    refine does_atClose h₁ ?_
    by_cases hclose : b = 42 ∧ bs.head? = some 47
    · obtain ⟨rfl, hhead⟩ := hclose
      obtain ⟨bs, rfl⟩ := List.head?_eq_some_iff.mp hhead
      rw [if_pos (by simp), wp_bind]
      refine does_lexerAdvance h₁ fun c₂ h₂ hcurr₂ => ?_
      rw [wp_bind]
      refine does_lexerAdvance h₂ fun c₃ h₃ hcurr₃ => hQ c₃ ?_ (by omega)
      rw [← hcomment, skipComment_close]
      exact h₃
    · rw [if_neg ?_, wp_bind]
      · refine does_lexerPeek h₁ ?_
        simp only [skipComment_step hclose] at hcomment
        refine wp_ite (fun hb => ?_) fun hb => ?_
        · obtain rfl : b = 10 := hb
          rw [if_pos rfl] at hcomment
          unfold newline
          rw [wp_bind, wp_modify]
          exact does_advanceAgain h₁.newline fun c₂ h₂ hcurr =>
            ⟨_, h₂, ⟨by simp only at hcurr; omega, hcomment⟩, by simp only at hcurr; omega⟩
        · rw [if_neg (show ¬ b = 10 from hb)] at hcomment
          exact does_advanceAgain h₁ fun c₂ h₂ hcurr => ⟨_, h₂, ⟨by omega, hcomment⟩, by omega⟩
      · intro hboth
        refine hclose ?_
        cases bs with
        | nil => simp at hboth
        | cons d ds => simpa using hboth

/-- The lexer is on a slash. -/
theorem does_isComment {Q : Bool → Cursor → Prop} {bs : List UInt8} {line column : Nat}
    (h : Matches data c ⟨47 :: bs, line, column⟩)
    (hsome : ∀ l' c', TinyCompile.Parser.isComment ⟨47 :: bs, line, column⟩ = some l' →
      Matches data c' l' → c.curr < c'.curr → Q true c')
    (hnone : TinyCompile.Parser.isComment ⟨47 :: bs, line, column⟩ = none → Q false c) :
    Does (isComment data) Q c := by
  unfold Does isComment
  rw [wp_bind]
  refine does_lexerPeekNext h (wp_ite (fun hslash => ?_) fun hslash => wp_ite (fun hstar => ?_)
    fun hstar => ?_)
  · cases bs with
    | nil => cases hslash
    | cons b bs =>
      obtain rfl : b = 47 := hslash
      rw [wp_bind]
      -- the first byte is no newline, so that the line takes it
      refine does_skipLine h fun c' h' hle => hsome _ c' rfl h' ?_
      have hlength := h.length
      have hlength' := h'.length
      have hshort := isComment_le (l := ⟨47 :: 47 :: bs, line, column⟩) rfl
      simp only at hlength hlength' hshort
      omega
  · cases bs with
    | nil => cases hstar
    | cons b bs =>
      obtain rfl : b = 42 := hstar
      rw [wp_bind]
      refine does_lexerAdvance h fun c₁ h₁ hcurr₁ => ?_
      rw [wp_bind]
      refine does_lexerAdvance h₁ fun c₂ h₂ hcurr₂ => ?_
      rw [wp_bind]
      exact does_skipComment h₂ fun c' h' hle => hsome _ c' rfl h' (by omega)
  · refine hnone ?_
    cases bs with
    | nil => rfl
    | cons b bs =>
      unfold TinyCompile.Parser.isComment
      split
      · rename_i heq
        cases heq
        exact absurd rfl hslash
      · rename_i heq
        cases heq
        exact absurd rfl hstar
      · rfl

/-- A turn of the loop of `lexer_skip_whitespace`. -/
theorem does_whitespaceTurn {Q : Turn Unit Unit → Cursor → Prop} (h : Matches data c l)
    (hsome : ∀ l' c', skipTurn l = some l' → Matches data c' l' → c.curr < c'.curr →
      Q (.again ()) c')
    (hnone : skipTurn l = none → Q (.leave ()) c) : Does (whitespaceTurn data) Q c := by
  obtain ⟨rest, line, column⟩ := l
  have hlength := h.length
  unfold whitespaceTurn Does
  rw [wp_bind, wp_get]
  cases rest with
  | nil =>
    rw [if_neg (by simp only [List.length_nil] at hlength; omega)]
    exact hnone rfl
  | cons b bs =>
    rw [if_pos (by simp only [List.length_cons] at hlength; omega), wp_bind]
    refine does_readByte (h.getElem? 0) ?_
    simp only [skipTurn] at hsome hnone
    split
    · rename_i hblank
      rw [if_pos hblank] at hsome
      exact does_advanceAgain h fun c' h' hcurr => hsome _ c' rfl h' (by omega)
    · rename_i hblank
      rw [if_neg hblank] at hsome hnone
      split
      · rename_i hb
        rw [if_pos hb] at hsome
        unfold newline
        rw [wp_bind, wp_modify]
        exact does_advanceAgain h.newline fun c' h' hcurr =>
          hsome _ c' rfl h' (by simp only at hcurr; omega)
      · rename_i hnewline
        rw [if_neg hnewline] at hsome hnone
        split
        · rename_i hb
          subst b
          rw [if_pos rfl] at hsome hnone
          rw [wp_bind]
          exact does_isComment h hsome hnone
        · rename_i hslash
          rw [if_neg hslash] at hsome hnone
          split
          · rename_i hb
            rw [if_pos hb] at hsome
            rw [wp_bind]
            refine does_skipLine h fun c' h' hle => hsome _ c' rfl h' ?_
            have hlength' := h'.length
            have hshort := skipLine_le bs line (column + 1)
            have hline : skipLine (b :: bs) line column = skipLine bs line (column + 1) :=
              if_neg hnewline
            rw [hline] at hlength'
            simp only [List.length_cons] at hlength
            omega
          · rename_i hhash
            rw [if_neg hhash] at hnone
            exact hnone rfl

theorem does_lexerSkipWhitespace {Q : Unit → Cursor → Prop} (h : Matches data c l)
    (hQ : ∀ c', Matches data c' (TinyCompile.Parser.lexerSkipWhitespace l) → c.curr ≤ c'.curr →
      Q () c') : Does (lexerSkipWhitespace data) Q c := by
  refine does_whileTurns (fun c₁ l₁ => c.curr ≤ c₁.curr ∧
    TinyCompile.Parser.lexerSkipWhitespace l₁ = TinyCompile.Parser.lexerSkipWhitespace l) ?_ h
    ⟨Nat.le_refl _, rfl⟩
  intro c₁ l₁ h₁ ⟨hle, hskip⟩
  refine does_whitespaceTurn h₁ (fun l' c' hturn h' hlt => ⟨l', h', ⟨by omega, ?_⟩, hlt⟩)
    fun hturn => hQ c₁ ?_ hle
  · rw [← hskip, lexerSkipWhitespace_of_turn hturn]
  · rw [← hskip, lexerSkipWhitespace_of_none hturn]
    exact h₁

/-! ## Tokens -/

/-- A token with the counters of C. -/
def asToken (t : Token) : Token :=
  ⟨t.type, t.text, (BitVec.ofNat 32 t.line).toNat, (BitVec.ofNat 32 t.column).toNat⟩

/-- The operation makes the token and leaves the lexer as the one on a list does. -/
abbrev Makes (data : List UInt8) (x : LexM Token) (r : Token × Lexer) (c : Cursor) : Prop :=
  Does x (fun t c' => t = asToken r.1 ∧ Matches data c' r.2 ∧ c.curr ≤ c'.curr) c

theorem makes_token (h : Matches data c l) (type : TokenType) (text : StringView) :
    Makes data (lexerMakeToken type text) (l.token type text) c := by
  refine ⟨?_, h, Nat.le_refl _⟩
  rw [h.line, h.column]
  rfl

theorem makes_tokenNoSv (h : Matches data c l) (type : TokenType) :
    Makes data (lexerMakeTokenNoSv type) (l.tokenNoSv type) c :=
  makes_token h type []

/-- A run of bytes that satisfy `p`. -/
theorem does_run {Q : Unit → Cursor → Prop} (p : UInt8 → Bool) (h : Matches data c l)
    (hQ : ∀ c', Matches data c' ⟨l.rest.dropWhile p, l.line,
      l.column + (l.rest.takeWhile p).length⟩ →
      c'.curr = c.curr + (l.rest.takeWhile p).length → Q () c') :
    Does (whileTurns data (runTurn data p)) Q c := by
  refine does_whileTurns (fun c₁ l₁ => l₁.line = l.line ∧
    l₁.rest.dropWhile p = l.rest.dropWhile p ∧
    l₁.column + (l₁.rest.takeWhile p).length = l.column + (l.rest.takeWhile p).length ∧
    c₁.curr + (l₁.rest.takeWhile p).length = c.curr + (l.rest.takeWhile p).length) ?_ h
    ⟨rfl, rfl, rfl, rfl⟩
  rintro c₁ ⟨rest, line, column⟩ h₁ ⟨hline, hdrop, hcolumn, hcurr⟩
  have hlength := h₁.length
  simp only at hline hdrop hcolumn hcurr
  unfold runTurn Does
  rw [wp_bind, wp_get]
  cases rest with
  | nil =>
    rw [if_neg (by simp only [List.length_nil] at hlength; omega)]
    refine hQ c₁ ?_ hcurr
    rw [← hline, ← hdrop, ← hcolumn]
    exact h₁
  | cons b bs =>
    rw [if_pos (by simp only [List.length_cons] at hlength; omega), wp_bind]
    refine does_readByte (h₁.getElem? 0) ?_
    rw [List.dropWhile_cons] at hdrop
    rw [List.takeWhile_cons] at hcolumn hcurr
    split
    · rename_i hb
      rw [if_pos hb] at hdrop hcolumn hcurr
      rw [List.length_cons] at hcolumn hcurr
      exact does_advanceAgain h₁ fun c₂ h₂ hcurr₂ =>
        ⟨_, h₂, ⟨hline, hdrop, by simp only; omega, by simp only; omega⟩, by omega⟩
    · rename_i hb
      rw [if_neg hb] at hdrop hcolumn hcurr
      refine hQ c₁ ?_ hcurr
      rw [← hline, ← hdrop, ← hcolumn]
      exact h₁

theorem makes_orDouble {second : UInt8} {double : TokenType} {other : LexM Token}
    {other' : Token × Lexer} (h : Matches data c l) (hsecond : second ≠ 0)
    (hother : Makes data other other' c) :
    Makes data (orDouble data second double other) (l.orDouble second double other') c := by
  obtain ⟨rest, line, column⟩ := l
  unfold orDouble Makes Does
  rw [wp_bind]
  refine does_lexerPeek h ?_
  cases rest with
  | nil => exact wp_ite (fun hb => absurd hb.symm hsecond) fun _ => hother
  | cons b bs =>
    have hcases : Lexer.orDouble ⟨b :: bs, line, column⟩ second double other' =
        if b = second then (⟨bs, line, column + 1⟩ : Lexer).tokenNoSv double else other' := rfl
    rw [hcases]
    refine wp_ite (fun hb => ?_) fun hb => ?_
    · rw [if_pos (show b = second from hb), wp_bind]
      refine does_lexerAdvance h fun c' h' hcurr => ?_
      exact wp_mono (makes_tokenNoSv h' double) fun t c'' ht => ⟨ht.1, ht.2.1, by
        have := ht.2.2
        omega⟩
    · rw [if_neg (show ¬ b = second from hb)]
      exact hother

theorem makes_ite {p : Prop} [Decidable p] {x y : LexM Token} {r r' : Token × Lexer}
    (hpos : Makes data x r c) (hneg : Makes data y r' c) :
    Makes data (if p then x else y) (if p then r else r') c := by
  by_cases hp : p
  · rw [if_pos hp, if_pos hp]
    exact hpos
  · rw [if_neg hp, if_neg hp]
    exact hneg

theorem makes_operatorToken (h : Matches data c l) (b : UInt8) :
    Makes data (operatorToken data b [b]) (TinyCompile.Parser.operatorToken b l) c := by
  unfold operatorToken TinyCompile.Parser.operatorToken
  cases singleByte b with
  | some type => exact makes_token h type [b]
  | none =>
    have hself := fun type => makes_tokenNoSv h type
    have hpair := fun {second : UInt8} {double : TokenType} {other : LexM Token}
      {other' : Token × Lexer} (hsecond : second ≠ 0) (hother : Makes data other other' c) =>
      @makes_orDouble _ _ _ _ double _ _ h hsecond hother
    refine makes_ite (hpair (by decide) (hself _)) (makes_ite (hpair (by decide) (hself _))
      (makes_ite (hpair (by decide) (hpair (by decide) (hself _)))
        (makes_ite (hpair (by decide) (hpair (by decide) (hself _))) (hself _))))

/-- The text of a token that began at `c`. -/
theorem does_textFrom {Q : StringView → Cursor → Prop} {c₂ : Cursor} (h : Matches data c l)
    {k : Nat} (hcurr : c₂.curr = c.curr + k) (hQ : Q (l.rest.take k) c₂) :
    Does (textFrom data c.curr) Q c₂ := by
  unfold textFrom Does
  rw [wp_bind, wp_get, hcurr, Nat.add_sub_cancel_left, h.rest]
  exact hQ

theorem take_takeWhile (p : UInt8 → Bool) (bytes : List UInt8) :
    bytes.take (bytes.takeWhile p).length = bytes.takeWhile p := by
  have hsplit := @List.takeWhile_append_dropWhile _ p bytes
  calc bytes.take (bytes.takeWhile p).length
      = (bytes.takeWhile p ++ bytes.dropWhile p).take (bytes.takeWhile p).length := by
        rw [hsplit]
    _ = bytes.takeWhile p := List.take_left

/-- `lexer_next` reads only inside the buffer, returns, and does what the lexer on a list
does. -/
theorem makes_lexerNext (h : Matches data c l) :
    Makes data (lexerNext data) (TinyCompile.Parser.lexerNext l) c := by
  unfold lexerNext TinyCompile.Parser.lexerNext Makes Does
  rw [wp_bind]
  refine does_lexerSkipWhitespace h fun c₁ h₁ hle => ?_
  generalize TinyCompile.Parser.lexerSkipWhitespace l = l₁ at h₁ ⊢
  obtain ⟨rest, line, column⟩ := l₁
  have hlength := h₁.length
  have hdrop := h₁.rest
  have hweaken : ∀ {x : LexM Token} {r : Token × Lexer} {c₂ : Cursor}, c₁.curr ≤ c₂.curr →
      Makes data x r c₂ → wp (fun _ => False) x
        (fun t c' => t = asToken r.1 ∧ Matches data c' r.2 ∧ c.curr ≤ c'.curr) c₂ :=
    fun hle' hx => wp_mono hx fun t c' ht => ⟨ht.1, ht.2.1, by have := ht.2.2; omega⟩
  rw [wp_bind, wp_get]
  cases rest with
  | nil =>
    rw [if_pos (by simp only [List.length_nil] at hlength; omega)]
    exact hweaken (Nat.le_refl _) (makes_tokenNoSv h₁ .eof)
  | cons b bs =>
    rw [if_neg (by simp only [List.length_cons] at hlength; omega), wp_bind]
    refine does_readByte (h₁.getElem? 0) ?_
    have hword : ∀ (p : UInt8 → Bool) (type : StringView → TokenType),
        wp (fun _ => False) (do
            whileTurns data (runTurn data p)
            let text ← textFrom data c₁.curr
            lexerMakeToken (type text) text)
          (fun t c' => t = asToken ((⟨(b :: bs).dropWhile p, line,
              column + ((b :: bs).takeWhile p).length⟩ : Lexer).token
              (type ((b :: bs).takeWhile p)) ((b :: bs).takeWhile p)).1 ∧
            Matches data c' ⟨(b :: bs).dropWhile p, line,
              column + ((b :: bs).takeWhile p).length⟩ ∧ c.curr ≤ c'.curr) c₁ := by
      intro p type
      rw [wp_bind]
      refine does_run p h₁ fun c₂ h₂ hcurr => ?_
      rw [wp_bind]
      refine does_textFrom h₁ hcurr ?_
      simp only [take_takeWhile]
      exact hweaken (by omega) (makes_token h₂ _ _)
    simp only
    by_cases hdigit : isDigit b = true
    · rw [if_pos hdigit, if_pos hdigit]
      exact hword isDigit fun _ => .number
    · rw [if_neg hdigit, if_neg hdigit]
      by_cases hname : isNameStart b = true
      · rw [if_pos hname, if_pos hname]
        exact hword isNameByte checkKeyword
      · rw [if_neg hname, if_neg hname, wp_bind]
        refine does_lexerAdvance h₁ fun c₂ h₂ hcurr => ?_
        rw [wp_bind]
        exact does_textFrom h₁ hcurr (hweaken (by omega) (makes_operatorToken h₂ b))

end

/-! ## Calls up to the end of the file -/

/-- Calls of `lexer_next`, up to the one that returns the end of the file: the tokens, and
`curr` behind each. -/
def lexerCalls (data : List UInt8) : Nat → Cursor → Except Fault (List (Token × Nat))
  | 0, _ => throw .outOfTurns
  | n + 1, c => do
      let (t, c) ← lexerNext data c
      if t.type = .eof then return [(t, c.curr)]
      else do
        let calls ← lexerCalls data n c
        return (t, c.curr) :: calls

section

variable {data : List UInt8} {c : Cursor} {l : Lexer}

theorem lexerCalls_succ {n : Nat} {t : Token} {c' : Cursor}
    (h : lexerNext data c = .ok (t, c')) : lexerCalls data (n + 1) c =
      if t.type = .eof then .ok [(t, c'.curr)]
      else (lexerCalls data n c').map ((t, c'.curr) :: ·) := by
  rw [lexerCalls, h]
  show (if t.type = .eof then _ else _) = _
  split
  · rfl
  · cases lexerCalls data n c' <;> rfl

/-- Every call returns the token of the lexer on a list, with the offset behind it. -/
theorem lexerCalls_reading (n : Nat) (h : Matches data c l) (hn : l.rest.length ≤ n) :
    ∃ calls, lexerCalls data (n + 1) c = .ok calls ∧
      calls.map (·.1) = ((lexTokens n l).1 ++ [(lexTokens n l).2]).map asToken ∧
      Tokenized c.curr l.rest (calls.map fun call => (call.1.type, call.2)) := by
  induction n generalizing c l with
  | zero =>
    obtain ⟨t, c', hrun, ht, h', -⟩ := wp_total (makes_lexerNext h)
    have hrest : l.rest = [] := List.eq_nil_of_length_eq_zero (Nat.le_zero.mp hn)
    obtain ⟨heof, hgap, hend⟩ | ⟨gap, text, hl, -, -, htoken⟩ := lexerNext_spec l
    · have htype : t.type = .eof := by rw [ht]; exact heof
      have hlength := h.length
      have hlength' := h'.length
      refine ⟨[(t, c'.curr)], ?_, by rw [ht]; rfl, ?_⟩
      · rw [lexerCalls_succ hrun, if_pos htype]
      · rw [hrest, hend] at *
        rw [List.map_singleton, htype]
        have hcurr : c'.curr = c.curr + ([] : List UInt8).length := by
          simp only [List.length_nil] at *
          omega
        rw [hcurr]
        exact .eof hgap
    · rw [hrest] at hl
      exact absurd (List.append_eq_nil_iff.mp (List.append_eq_nil_iff.mp hl.symm).2).1
        htoken.ne_nil
  | succ n ih =>
    obtain ⟨t, c', hrun, ht, h', -⟩ := wp_total (makes_lexerNext h)
    have hlength := h.length
    have hlength' := h'.length
    unfold lexTokens
    obtain ⟨heof, hgap, hend⟩ | ⟨gap, text, hl, hgap, hnone, htoken⟩ := lexerNext_spec l
    · have htype : t.type = .eof := by rw [ht]; exact heof
      rw [if_pos heof]
      refine ⟨[(t, c'.curr)], ?_, by rw [ht]; rfl, ?_⟩
      · rw [lexerCalls_succ hrun, if_pos htype]
      · rw [List.map_singleton, htype]
        have hcurr : c'.curr = c.curr + l.rest.length := by
          rw [hend, List.length_nil] at hlength'
          omega
        rw [hcurr]
        exact .eof hgap
    · have htype : t.type = (TinyCompile.Parser.lexerNext l).1.type := by rw [ht]; rfl
      have hne : t.type ≠ .eof := by rw [htype]; exact htoken.ne_eof
      have hpos := List.length_pos_iff.mpr htoken.ne_nil
      have hsum := congrArg List.length hl
      simp only [List.length_append] at hsum
      obtain ⟨calls, hcalls, htokens, hreading⟩ := ih h' (by omega)
      rw [if_neg htoken.ne_eof]
      refine ⟨(t, c'.curr) :: calls, ?_, ?_, ?_⟩
      · rw [lexerCalls_succ hrun, if_neg hne, hcalls]
        rfl
      · rw [List.map_cons, htokens, ht]
        rfl
      · have hcurr : c'.curr = c.curr + (gap ++ text).length := by
          rw [List.length_append]
          omega
        rw [hl, List.map_cons, htype, hcurr]
        rw [hcurr] at hreading
        exact .token hgap hnone htoken hreading

/-- The tokens that the parser gets are those of the lexer on its buffer. -/
theorem lexerCalls_tokenStream (data : List UInt8) :
    ∃ calls, lexerCalls data (data.length + 1) lexerInit = .ok calls ∧
      calls.map (·.1) = ((tokenStream data).tokens ++ [(tokenStream data).eof]).map asToken ∧
      Tokenized 0 data (calls.map fun call => (call.1.type, call.2)) :=
  lexerCalls_reading data.length (matches_init data) (Nat.le_refl _)

/-! ## The states of the lexer -/

/-- A state between two operations: at the start, behind a blank, a newline, a comment or a
`#` line, behind all of them, and behind a token. -/
inductive Reached (data : List UInt8) : Cursor → Prop
  | init : Reached data lexerInit
  | turn {c c' : Cursor} (h : Reached data c)
      (hturn : whitespaceTurn data c = .ok (.again (), c')) : Reached data c'
  | skip {c c' : Cursor} (h : Reached data c)
      (hskip : lexerSkipWhitespace data c = .ok ((), c')) : Reached data c'
  | next {c c' : Cursor} {t : Token} (h : Reached data c)
      (hnext : lexerNext data c = .ok (t, c')) : Reached data c'

/-- The lexer on a list has moved to every state. -/
theorem Reached.matches (h : Reached data c) :
    ∃ l, Matches data c l ∧ Moves (TinyCompile.Parser.lexerInit data) l := by
  induction h with
  | init => exact ⟨_, matches_init data, .refl _⟩
  | @turn c c' _ hturn ih =>
    obtain ⟨l, h, hmoves⟩ := ih
    have hspec : Does (whitespaceTurn data) (fun r c' => r = .again () →
        ∃ l', Matches data c' l' ∧ Moves l l') c :=
      does_whitespaceTurn h (fun l' c' hturn h' _ _ => ⟨l', h', moves_skipTurn hturn⟩) nofun
    obtain ⟨l', h', hmoves'⟩ := wp_of_ok hturn hspec rfl
    exact ⟨l', h', hmoves.trans hmoves'⟩
  | @skip c c' _ hskip ih =>
    obtain ⟨l, h, hmoves⟩ := ih
    have hspec : Does (lexerSkipWhitespace data) (fun _ c' => Matches data c'
        (TinyCompile.Parser.lexerSkipWhitespace l)) c :=
      does_lexerSkipWhitespace h fun c' h' _ => h'
    have h' := wp_of_ok hskip hspec
    exact ⟨_, h', hmoves.trans (moves_skipWhitespace l)⟩
  | @next c c' t _ hnext ih =>
    obtain ⟨l, h, hmoves⟩ := ih
    obtain ⟨-, h', -⟩ := wp_of_ok hnext (makes_lexerNext h)
    exact ⟨_, h', hmoves.trans (moves_lexerNext l)⟩

/-- For every byte string: from every state `lexer_next` returns without reading outside the
buffer, and takes a byte unless it is at the end.  The calls from the start on end, and cut
the bytes into trivia and tokens, each of them the longest one.  Behind a keyword the word
is over. -/
theorem lexing_complete (data : List UInt8) :
    (∀ c, Reached data c → ∃ t c', lexerNext data c = .ok (t, c') ∧ c'.curr ≤ data.length ∧
      (t.type ≠ .eof → c.curr < c'.curr) ∧ (t.type = .eof → c'.curr = data.length)) ∧
    (∃ calls, lexerCalls data (data.length + 1) lexerInit = .ok calls ∧
      Tokenized 0 data (calls.map fun call => (call.1.type, call.2))) ∧
    ∀ type text rest, TokenAt type text rest → type ∈ keywords →
      ∀ c ∈ rest.head?, isNameByte c = false := by
  refine ⟨fun c hc => ?_, ?_, fun type text rest h => h.whole_word⟩
  · obtain ⟨l, h, -⟩ := hc.matches
    obtain ⟨t, c', hrun, ht, h', -⟩ := wp_total (makes_lexerNext h)
    have hlength := h.length
    have hlength' := h'.length
    have htype : t.type = (TinyCompile.Parser.lexerNext l).1.type := by rw [ht]; rfl
    refine ⟨t, c', hrun, h'.inside, ?_, ?_⟩
    · intro hne
      rw [htype] at hne
      have := (lexerNext_takes l).resolve_left hne
      omega
    · intro heof
      rw [htype] at heof
      obtain ⟨-, -, hend⟩ | ⟨gap, text, -, -, -, htoken⟩ := lexerNext_spec l
      · rw [hend, List.length_nil] at hlength'
        omega
      · exact absurd heof htoken.ne_eof
  · obtain ⟨calls, hcalls, -, hreading⟩ := lexerCalls_tokenStream data
    exact ⟨calls, hcalls, hreading⟩

/-! ## Positions -/

theorem sinceNewline_of_not_mem {bytes : List UInt8} (h : 10 ∉ bytes) :
    sinceNewline bytes = bytes.length := by
  unfold sinceNewline
  rw [List.takeWhile_eq_self_iff.mpr, List.length_reverse]
  intro b hb
  rw [List.mem_reverse] at hb
  simp only [bne_iff_ne, ne_eq]
  rintro rfl
  exact h hb

/-- The counters in every state. -/
theorem Reached.position (h : Reached data c) : c.curr ≤ data.length ∧
    c.line = .ofNat 32 (lineAfter (data.take c.curr)) ∧
    c.column = .ofNat 32 (columnAfter (data.take c.curr)) := by
  obtain ⟨l, hmatches, hmoves⟩ := h.matches
  obtain ⟨more, hdata, hline, hcolumn⟩ := hmoves.position [] rfl rfl
  have hdata' : data = more ++ l.rest := hdata
  have hlength := hmatches.length
  have hsum := congrArg List.length hdata'
  rw [List.length_append] at hsum
  have hmore : data.take c.curr = more := by
    rw [hdata', show c.curr = more.length by omega]
    exact List.take_left
  rw [List.nil_append] at hline hcolumn
  rw [hmore, ← hline, ← hcolumn]
  exact ⟨hmatches.inside, hmatches.line, hmatches.column⟩

/-- A counter that has not reached the limit has its value. -/
theorem toInt_counter (n : Nat) : (BitVec.ofNat 32 n).toInt = n ↔ n < 2 ^ 31 := by
  rw [BitVec.toInt_eq_toNat_cond, BitVec.toNat_ofNat]
  split <;> omega

/-- A counter that is one too large does not have its value. -/
theorem toInt_counter_succ (n : Nat) : (BitVec.ofNat 32 (n + 1)).toInt ≠ n := by
  rw [BitVec.toInt_eq_toNat_cond, BitVec.toNat_ofNat]
  split <;> omega

/-- In every state, line and column are the position if and only if no newline has been
consumed, and the counters, which are taken to wrap, have not reached the limit of `int`. -/
theorem position_iff (h : Reached data c) :
    (c.line.toInt = 1 + ((data.take c.curr).count 10 : Int) ∧
      c.column.toInt = 1 + (sinceNewline (data.take c.curr) : Int)) ↔
    10 ∉ data.take c.curr ∧ c.curr + 1 < 2 ^ 31 := by
  obtain ⟨hinside, hline, hcolumn⟩ := h.position
  rw [hline, hcolumn]
  by_cases hnewline : 10 ∈ data.take c.curr
  · refine ⟨fun hright => ?_, fun hnone => absurd hnewline hnone.1⟩
    have hwrong := hright.2
    unfold columnAfter at hwrong
    rw [if_pos hnewline, show ∀ n, 2 + n = (1 + n) + 1 by omega] at hwrong
    exact absurd (by simpa using hwrong) (toInt_counter_succ (1 + sinceNewline _))
  · have hlength : (data.take c.curr).length = c.curr := by
      rw [List.length_take]
      omega
    have hcurr := toInt_counter (1 + c.curr)
    unfold lineAfter columnAfter
    rw [if_neg hnewline, sinceNewline_of_not_mem hnewline, hlength,
      List.count_eq_zero.mpr hnewline]
    constructor
    · intro hright
      have := hcurr.mp (by simpa using hright.2)
      exact ⟨hnewline, by omega⟩
    · intro hsmall
      exact ⟨by simp, by simpa using hcurr.mpr (by omega)⟩

/-- The calls behind the two tokens of `int f` and the newline that follows. -/
theorem position_iff_tokens : ∃ t t' c c' c'',
    lexerNext (svOf "int f\n;") lexerInit = .ok (t, c) ∧
      lexerNext (svOf "int f\n;") c = .ok (t', c') ∧
      lexerSkipWhitespace (svOf "int f\n;") c' = .ok ((), c'') ∧ c'.curr = 5 ∧ c''.curr = 6 ∧
      ∀ d ∈ [c', c''],
        ((d.line.toInt = 1 + (((svOf "int f\n;").take d.curr).count 10 : Int) ∧
            d.column.toInt = 1 + (sinceNewline ((svOf "int f\n;").take d.curr) : Int)) ↔
          10 ∉ (svOf "int f\n;").take d.curr ∧ d.curr + 1 < 2 ^ 31) := by
  refine ⟨_, _, _, _, _, rfl, rfl, rfl, rfl, rfl, fun d hd => ?_⟩
  rcases List.mem_pair.mp hd with rfl | rfl
  · exact position_iff (.next (.next .init rfl) rfl)
  · exact position_iff (.skip (.next (.next .init rfl) rfl) rfl)

/-- Behind the first newline the column is 2. -/
theorem newline_column_two : ∃ c, Reached [10] c ∧ c.curr = 1 ∧ c.line.toInt = 2 ∧
    c.column.toInt = 2 ∧
    c.column.toInt ≠ 1 + (sinceNewline (([10] : List UInt8).take c.curr) : Int) :=
  ⟨⟨1, 2, 2⟩, .turn .init rfl, rfl, by decide, by decide, by decide⟩

end

end TinyCompile.Parser.Buffer
