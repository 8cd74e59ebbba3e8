import TinyCompile.Parser.Parse

set_option autoImplicit false

/-!
# Parser: what the state functions do

One lemma or two for each function of `parser_utils.c`; the rest of the development
does not unfold them.
-/

namespace TinyCompile.Parser

open TinyCompile.Source TinyCompile.Logic

/-! ## Later states -/

/-- The parser only moves forward in the tokens, only adds errors, and comes back to the
same depth of expressions. -/
structure Later (s s' : Parser) : Prop where
  tokens : s'.tokens <:+ s.tokens
  errors : Adds s.errors s'.errors
  depth : s'.exprDepth = s.exprDepth

theorem Later.refl (s : Parser) : Later s s := ⟨List.suffix_refl _, .refl _, rfl⟩

theorem Later.trans {s s' s'' : Parser} (h : Later s s') (h' : Later s' s'') : Later s s'' :=
  ⟨h'.tokens.trans h.tokens, h.errors.trans h'.errors, h'.depth.trans h.depth⟩

theorem Later.length_le {s s' : Parser} (h : Later s s') : s'.tokens.length ≤ s.tokens.length :=
  h.tokens.length_le

/-- At least one token is taken, if there is one. -/
def Takes (s s' : Parser) : Prop := s'.tokens <:+ s.tokens.tail

theorem Takes.later {s s' s'' : Parser} (h : Takes s s') (h' : Later s' s'') : Takes s s'' :=
  h'.tokens.trans h

theorem Takes.lt {s s' : Parser} (h : Takes s s') (hne : s.next.type ≠ .eof) :
    s'.tokens.length < s.tokens.length := by
  have hle := List.IsSuffix.length_le h
  have hpos : s.tokens.length ≠ 0 := by
    intro hzero
    exact hne (Parser.tokens_eq_nil.mp (List.length_eq_zero_iff.mp hzero))
  rw [List.length_tail] at hle
  omega

/-! ## `parser_advance` -/

theorem parserAdvance_later (s : Parser) : Later s (parserAdvance s) where
  tokens := by
    rw [parserAdvance_tokens]
    exact List.tail_suffix _
  errors := .refl _
  depth := rfl

theorem parserAdvance_takes (s : Parser) : Takes s (parserAdvance s) := by
  have htokens := parserAdvance_tokens s
  unfold Takes
  simp only [htokens, List.suffix_refl]

/-! ## `parser_error` -/

@[simp] theorem parserError_tokens (s : Parser) (message : String) :
    (parserError s message).tokens = s.tokens := by
  unfold parserError
  split <;> rfl

@[simp] theorem parserError_panic (s : Parser) (message : String) :
    (parserError s message).panicMode = true := by
  unfold parserError
  split
  · assumption
  · rfl

theorem parserError_later (s : Parser) (message : String) : Later s (parserError s message) where
  tokens := by
    simp only [parserError_tokens, List.suffix_refl]
  errors := by
    unfold parserError
    split
    · exact .refl _
    · show Adds s.errors (errorAdd s.errors .parser .error _ _ _ _)
      exact adds_error _ _ (by decide) _ _ _ _
  depth := by
    unfold parserError
    split <;> rfl

/-- Out of panic mode an error is recorded. -/
theorem parserError_records {s : Parser} (h : s.panicMode = false) (message : String) :
    s.errors.nodes.length < (parserError s message).errors.nodes.length := by
  unfold parserError
  rw [if_neg (by simp [h])]
  simp

/-! ## `parser_synchronize` -/

theorem synchronizeLoop_later (n : Nat) (s : Parser) : Later s (synchronizeLoop n s) := by
  induction n generalizing s with
  | zero => exact .refl s
  | succ n ih =>
    unfold synchronizeLoop
    split
    · exact .refl s
    · split
      · exact .refl s
      · split
        · exact .refl s
        · exact (parserAdvance_later s).trans (ih _)

/-- Leaving panic mode changes nothing else. -/
theorem later_calm (s : Parser) : Later s { s with panicMode := false } :=
  ⟨List.suffix_refl _, .refl _, rfl⟩

theorem parserSynchronize_later (s : Parser) : Later s (parserSynchronize s) :=
  (later_calm s).trans (synchronizeLoop_later _ _)

/-- Where `parser_synchronize` stops. -/
def Synchronized (s : Parser) : Prop :=
  s.next.type = .eof ∨ s.current.type = .semicolon ∨ startsStatement s.next.type = true

instance (s : Parser) : Decidable (Synchronized s) :=
  inferInstanceAs (Decidable (_ ∨ _ ∨ _))

/-- A turn for every token is enough, and more turns change nothing. -/
theorem synchronizeLoop_spec {n : Nat} {s : Parser} (h : s.tokens.length ≤ n) :
    Synchronized (synchronizeLoop n s) ∧
      synchronizeLoop n s = synchronizeLoop s.tokens.length s := by
  induction n generalizing s with
  | zero =>
    have hempty : s.tokens = [] := List.length_eq_zero_iff.mp (by omega)
    rw [hempty]
    exact ⟨.inl (Parser.tokens_eq_nil.mp hempty), rfl⟩
  | succ n ih =>
    by_cases heof : s.next.type = .eof
    · have hempty := Parser.tokens_eq_nil.mpr heof
      rw [hempty]
      simp [synchronizeLoop, heof, Synchronized]
    · have hlen : s.tokens.length = (parserAdvance s).tokens.length + 1 := by
        rw [Parser.tokens_of_ne heof]
        rfl
      obtain ⟨hsync, heq⟩ := @ih (parserAdvance s) (by omega)
      rw [hlen]
      unfold synchronizeLoop
      rw [if_neg heof]
      split
      · exact ⟨.inr (.inl ‹_›), rfl⟩
      · split
        · exact ⟨.inr (.inr ‹_›), rfl⟩
        · exact ⟨hsync, heq⟩

/-- Any bound on the turns that is large enough gives what `parser_synchronize` gives. -/
theorem parserSynchronize_spec {n : Nat} {s : Parser} (h : s.tokens.length ≤ n) :
    Synchronized (parserSynchronize s) ∧
      synchronizeLoop n { s with panicMode := false } = parserSynchronize s :=
  ⟨(@synchronizeLoop_spec _ { s with panicMode := false } (Nat.le_refl _)).1,
    (@synchronizeLoop_spec n { s with panicMode := false } h).2⟩

theorem synchronizeLoop_panic (n : Nat) (s : Parser) :
    (synchronizeLoop n s).panicMode = s.panicMode := by
  induction n generalizing s with
  | zero => rfl
  | succ n ih =>
    unfold synchronizeLoop
    split
    · rfl
    · split
      · rfl
      · split
        · rfl
        · exact ih _

@[simp] theorem parserSynchronize_panic (s : Parser) : (parserSynchronize s).panicMode = false :=
  synchronizeLoop_panic _ _

/-! ## `parser_consume` -/

theorem parserConsume_later (s : Parser) (type : TokenType) (message : String) :
    Later s (parserConsume s type message) := by
  unfold parserConsume
  split
  · exact (parserAdvance_later s).trans (later_calm _)
  · exact (parserError_later s _).trans (parserSynchronize_later _)

theorem parserConsume_takes {s : Parser} {type : TokenType} (h : s.next.type = type)
    (message : String) : Takes s (parserConsume s type message) := by
  unfold parserConsume
  rw [if_pos h]
  exact (parserAdvance_takes s).later (later_calm _)

/-- `parser_consume` leaves panic mode in any case. -/
@[simp] theorem parserConsume_panic (s : Parser) (type : TokenType) (message : String) :
    (parserConsume s type message).panicMode = false := by
  unfold parserConsume
  split
  · rfl
  · exact parserSynchronize_panic _

/-! ## The short computations -/

section

variable {stop : Stop → Prop} {s : Parser}

theorem wp_matchToken {type : TokenType} {Q : Bool → Parser → Prop}
    (hyes : s.next.type = type → Q true (parserAdvance s))
    (hno : s.next.type ≠ type → Q false s) : wp stop (matchToken type) Q s := by
  unfold matchToken
  simp only [wp_bind, wp_get]
  refine wp_ite (fun h => ?_) fun h => ?_
  · exact hyes h
  · exact hno h

theorem wp_parseType {Q : DataType → Parser → Prop}
    (hyes : isTypeKeyword s.next.text = true → Q (typeFromSv s.next.text) (parserAdvance s))
    (hno : isTypeKeyword s.next.text = false → ∀ message, Q .void (parserError s message)) :
    wp stop parseType Q s := by
  unfold parseType
  simp only [wp_bind, wp_get]
  refine wp_ite (fun h => ?_) fun h => ?_
  · exact hyes h
  · exact hno (by simpa using h) _

@[simp] theorem wp_newNode {Q : Nat → Parser → Prop} :
    wp stop newNode Q s ↔ Q s.arena { s with arena := s.arena + 1 } := Iff.rfl

end

/-- A new node changes nothing but the arena. -/
theorem later_newNode (s : Parser) : Later s { s with arena := s.arena + 1 } :=
  ⟨List.suffix_refl _, .refl _, rfl⟩

end TinyCompile.Parser
