import TinyCompile.Parser.Terminates
import TinyCompile.Parser.Grammar

set_option autoImplicit false

/-!
# Parser: what is well formed is parsed without an error

The other direction: from a state in front of the tokens of a tree the parser returns
that tree, takes exactly these tokens and records nothing.

An operand is followed by a loop that goes on as long as an operator binds stronger than
the call's precedence.  So the statement about an operand is one about the loop behind
it: having read the operand, the loop continues as if it had started there.
-/

namespace TinyCompile.Parser

open TinyCompile.Source TinyCompile.Logic

/-! ## States of a parse without errors -/

/-- Stopping is not allowed. -/
def Never (_ : Stop) : Prop := False

/-- Out of panic mode at depth `d`, with the errors of the start and the tokens `ts` to
come. -/
structure At (d : Nat) (errors : ErrorContext) (ts : List Token) (s : Parser) : Prop where
  tokens : s.tokens = ts
  panic : s.panicMode = false
  errors : s.errors = errors
  depth : s.exprDepth = d

/-- The binding strength of the first token. -/
def headRank : List Token → Nat
  | [] => 0
  | t :: _ => t.rank

theorem headRank_of_type {t : Token} {type : TokenType} (ht : t.type = type) (ts : List Token) :
    headRank (t :: ts) = (getTokenPrecedence type).rank := by
  rw [← ht]
  rfl

section

variable {d : Nat} {errors : ErrorContext} {t : Token} {ts : List Token} {s : Parser}

theorem At.ne_eof (h : At d errors (t :: ts) s) : s.next.type ≠ .eof := by
  intro heof
  have hnil := Parser.tokens_eq_nil.mpr heof
  rw [h.tokens] at hnil
  cases hnil

theorem At.next (h : At d errors (t :: ts) s) : s.next = t := by
  have htokens := Parser.tokens_of_ne h.ne_eof
  rw [h.tokens] at htokens
  exact (List.cons.inj htokens).1.symm

theorem At.advance (h : At d errors (t :: ts) s) : At d errors ts (parserAdvance s) where
  tokens := by
    rw [parserAdvance_tokens, h.tokens]
    rfl
  panic := h.panic
  errors := h.errors
  depth := h.depth

theorem At.newNode (h : At d errors ts s) : At d errors ts { s with arena := s.arena + 1 } :=
  ⟨h.tokens, h.panic, h.errors, h.depth⟩

/-- `parser_consume` in front of the token it is told to take. -/
theorem At.consume (h : At d errors (t :: ts) s) {type : TokenType} (htype : t.type = type)
    (message : String) :
    At d errors ts (parserConsume s type message) ∧ (parserConsume s type message).current = t := by
  have hnext := h.next
  have hadvance := h.advance
  unfold parserConsume
  rw [if_pos (by rw [hnext, htype])]
  exact ⟨⟨hadvance.tokens, rfl, h.errors, h.depth⟩, hnext⟩

theorem At.rank (h : At d errors ts s) : s.next.rank = headRank ts := by
  cases ts with
  | nil =>
    have heof := Parser.tokens_eq_nil.mp h.tokens
    unfold Token.rank
    rw [heof]
    rfl
  | cons t ts => rw [h.next, headRank]

/-- A token that is not the next one is not taken. -/
theorem At.next_ne (h : At d errors ts s) {type : TokenType} (hne : type ≠ .eof)
    (hts : ∀ t us, ts = t :: us → t.type ≠ type) : s.next.type ≠ type := by
  cases ts with
  | nil =>
    rw [Parser.tokens_eq_nil.mp h.tokens]
    exact hne.symm
  | cons t ts =>
    rw [h.next]
    exact hts t ts rfl

theorem wp_matchToken_at {type : TokenType} (h : At d errors (t :: ts) s) (htype : t.type = type)
    {Q : Bool → Parser → Prop} (hQ : Q true (parserAdvance s)) :
    wp Never (matchToken type) Q s :=
  wp_matchToken (fun _ => hQ) fun hno => absurd (by rw [h.next, htype]) hno

end

/-! ## Expressions -/

/-- Where an expression whose operators bind stronger than `p` can stand: in a call of that
strength or a weaker one, in front of what does not bind its parts.  A name can stand
anywhere. -/
def Fits (precedence : Precedence) (p : Nat) (e : Expr) (rest : List Token) : Prop :=
  (∃ name, e = .identifier name) ∨
    precedence.rank ≤ p ∧ headRank rest ≤ p + 1 ∧ headRank rest ≤ Precedence.unary.rank

/-- The loop of `parse_expression`. -/
def operators (fuel : Nat) (precedence : Precedence) : Nat → ASTNode → ParseM ASTNode :=
  loop .outOfFuel (infixTurn (parseExpression fuel) fuel precedence)

/-- The operand `e` is read, and the loop goes on behind it. -/
def ReadsOperand (D p : Nat) (ts : List Token) (e : Expr) : Prop :=
  ∀ ⦃fuel : Nat⦄ ⦃precedence : Precedence⦄ ⦃s : Parser⦄ ⦃rest : List Token⦄
    ⦃errors : ErrorContext⦄ ⦃d : Nat⦄ ⦃Q : ASTNode → Parser → Prop⦄,
    d + D = maxExpressionDepth + 1 → At d errors (ts ++ rest) s →
    (ts ++ rest).length ≤ fuel → Fits precedence p e rest →
    (∀ m left s', At d errors rest s' → left.expr? = some e → rest.length < m →
      wp Never (operators fuel precedence m left) Q s') →
    ∃ fn, (rules s.next.type).prefixFn = some fn ∧
      wp Never (callPrefix (parseExpression fuel) fn >>= operators fuel precedence fuel) Q
        (parserAdvance s)

/-- The loop ends in front of what does not bind stronger. -/
theorem operators_leave {fuel m : Nat} {precedence : Precedence} {left : ASTNode} {s : Parser}
    {Q : ASTNode → Parser → Prop} (hrank : s.next.rank ≤ precedence.rank) (hQ : Q left s) :
    wp Never (operators fuel precedence (m + 1) left) Q s := by
  refine wp_loop_succ (R := fun r s' => r = .leave left ∧ s' = s) ?_ ?_ ?_
  · unfold infixTurn
    simp only [wp_bind, wp_get]
    exact wp_ite (fun h => absurd hrank (Nat.not_le_of_lt h)) fun _ => ⟨rfl, rfl⟩
  · rintro b s' ⟨hb, -⟩
    cases hb
  · rintro c s' ⟨hc, rfl⟩
    cases hc
    exact hQ

/-- An expression that is called for at its own binding strength. -/
theorem ReadsOperand.expression {D : Nat} {precedence : Precedence} {ts : List Token} {e : Expr}
    (h : ReadsOperand D precedence.rank ts e) (hne : D ≠ 0) {fuel : Nat} {s : Parser}
    {rest : List Token} {errors : ErrorContext} {d : Nat} (hD : d + D = maxExpressionDepth)
    (hs : At d errors (ts ++ rest) s) (hfuel : (ts ++ rest).length < fuel)
    (hrank : headRank rest ≤ precedence.rank) (hle : precedence.rank ≤ Precedence.unary.rank) :
    wp Never (parseExpression fuel precedence)
      (fun node s' => At d errors rest s' ∧ node.expr? = some e) s := by
  cases fuel with
  | zero => exact absurd hfuel (Nat.not_lt_zero _)
  | succ fuel =>
    have hdepth : s.exprDepth < maxExpressionDepth := by
      rw [hs.depth]
      omega
    have henter : At (d + 1) errors (ts ++ rest) (s.enterExpression hdepth) :=
      ⟨hs.tokens, hs.panic, hs.errors, congrArg (· + 1) hs.depth⟩
    have hleave : ∀ m left s', At (d + 1) errors rest s' → left.expr? = some e →
        rest.length < m → wp Never (operators fuel precedence m left)
          (fun node s' => At (d + 1) errors rest s' ∧ node.expr? = some e) s' := by
      intro m left s' hs' hleft hm
      cases m with
      | zero => exact absurd hm (Nat.not_lt_zero _)
      | succ m => exact operators_leave (by rw [hs'.rank]; exact hrank) ⟨hs', hleft⟩
    obtain ⟨fn, hfn, hwp⟩ := h (by omega) henter (Nat.le_of_lt_succ hfuel)
      (.inr ⟨Nat.le_refl _, Nat.le_succ_of_le hrank, Nat.le_trans hrank hle⟩) hleave
    have hfn' : (rules s.next.type).prefixFn = some fn := hfn
    unfold parseExpression
    simp only [wp_bind, wp_get, dif_pos hdepth, wp_set, hfn']
    rw [wp_bind] at hwp
    refine wp_mono hwp fun left s₁ hs₁ => ?_
    refine wp_mono hs₁ fun node s₂ hs₂ => ?_
    refine ⟨⟨hs₂.1.tokens, hs₂.1.panic, hs₂.1.errors, ?_⟩, hs₂.2⟩
    show s₂.exprDepth - 1 = d
    rw [hs₂.1.depth]
    rfl

/-- An infix function that extends the operand, and the loop behind it. -/
theorem operators_again {fuel m : Nat} {precedence : Precedence} {left : ASTNode} {s : Parser}
    {Q : ASTNode → Parser → Prop} (fn : InfixFn) (hrank : precedence.rank < s.next.rank)
    (hfn : (rules s.next.type).infixFn = some fn)
    (hwp : wp Never (callInfix (parseExpression fuel) fuel left fn)
      (fun left' s' => wp Never (operators fuel precedence m left') Q s') (parserAdvance s)) :
    wp Never (operators fuel precedence (m + 1) left) Q s := by
  refine wp_loop_succ (R := fun r s' => ∃ left', r = .again left' ∧
    wp Never (operators fuel precedence m left') Q s') ?_ ?_ ?_
  · unfold infixTurn
    simp only [wp_bind, wp_get]
    refine wp_ite (fun _ => ?_) fun hno => absurd hrank hno
    simp only [wp_bind, wp_set, hfn]
    exact wp_mono hwp fun left' s' h => ⟨left', rfl, h⟩
  · rintro b' s' ⟨left', hb, h⟩
    cases hb
    exact h
  · rintro c s' ⟨left', hc, -⟩
    cases hc

/-- A binary operator's token binds, and weaker than a call. -/
theorem binaryOp_spec {type : TokenType} {op : BinaryOp} (h : binaryOp type = some op) :
    (rules type).infixFn = some .parseBinary ∧ 0 < (getTokenPrecedence type).rank ∧
      (getTokenPrecedence type).rank < Precedence.unary.rank := by
  cases type <;> cases h <;> decide

/-- What represents an identifier is an identifier. -/
theorem identifier_of_expr? {left : ASTNode} {name : StringView}
    (h : left.expr? = some (.identifier name)) : ∃ info, left = .identifier info name := by
  cases left <;> simp_all [ASTNode.expr?, Option.bind_eq_some_iff]

/-- An operand that is one token. -/
theorem readsOperand_leaf {D p : Nat} {t : Token} {e : Expr} (fn : PrefixFn)
    (hfn : (rules t.type).prefixFn = some fn)
    (hleaf : ∀ fuel s, s.current = t → wp Never (callPrefix (parseExpression fuel) fn)
      (fun left s' => left.expr? = some e ∧ s' = { s with arena := s.arena + 1 }) s) :
    ReadsOperand D p [t] e := by
  intro fuel precedence s rest errors d Q hD hs hfuel hfits hgo
  have hnext := hs.next
  refine ⟨fn, by rw [hnext, hfn], wp_seq (hleaf fuel _ hnext) ?_⟩
  rintro left _ ⟨hleft, rfl⟩
  exact hgo fuel left _ hs.advance.newNode hleft (Nat.lt_of_succ_le (by simpa using hfuel))

theorem readsOperand_grouping {d' p : Nat} {l r : Token} {ts : List Token} {e : Expr}
    (hl : l.type = .lparen) (hr : r.type = .rparen) (hne : d' ≠ 0)
    (h : ReadsOperand d' Precedence.none.rank ts e) :
    ReadsOperand (d' + 1) p (l :: (ts ++ [r])) e := by
  intro fuel precedence s rest errors d Q hD hs hfuel hfits hgo
  have htokens : l :: (ts ++ [r]) ++ rest = l :: (ts ++ (r :: rest)) := by simp
  rw [htokens] at hs hfuel
  have hrank : headRank (r :: rest) ≤ Precedence.none.rank := by
    rw [headRank_of_type hr]
    decide
  refine ⟨.parseGrouping, by rw [hs.next, hl]; rfl, ?_⟩
  simp only [callPrefix, parseGrouping, wp_bind, wp_modify, wp_pure]
  have hD' : d + d' = maxExpressionDepth := by omega
  refine wp_mono (h.expression hne hD' hs.advance hfuel hrank (Nat.zero_le _))
    fun node s₁ hs₁ => ?_
  refine hgo fuel node _ (hs₁.1.consume hr _).1 hs₁.2 ?_
  simp only [List.length_cons, List.length_append] at hfuel
  omega

theorem readsOperand_unary {d' p : Nat} {t : Token} {op : UnaryOp} {ts : List Token} {e : Expr}
    (hop : unaryOp t.type = some op) (hne : d' ≠ 0)
    (h : ReadsOperand d' Precedence.unary.rank ts e) :
    ReadsOperand (d' + 1) p (t :: ts) (.unary op e) := by
  intro fuel precedence s rest errors d Q hD hs hfuel hfits hgo
  have hrank : headRank rest ≤ Precedence.unary.rank := by
    rcases hfits with ⟨name, hname⟩ | hfits
    · cases hname
    · exact hfits.2.2
  have hnext : s.next = t := hs.next
  refine ⟨.parseUnary, by rw [hnext]; exact unaryOp_spec hop, ?_⟩
  have hop' : unaryOp (parserAdvance s).current.type = some op := by
    rw [← hop, ← hnext]
    rfl
  simp only [callPrefix, parseUnary, wp_bind, wp_get, wp_newNode, hop', wp_pure]
  have hadvance : At d errors (ts ++ rest) (parserAdvance s) := hs.advance
  have hD' : d + d' = maxExpressionDepth := by omega
  refine wp_mono (h.expression hne hD' hadvance.newNode hfuel hrank (Nat.le_refl _))
    fun operand s₁ hs₁ => ?_
  refine hgo fuel _ _ hs₁.1 ?_ ?_
  · simp [ASTNode.expr?, hs₁.2]
  · simp only [List.cons_append, List.length_cons, List.length_append] at hfuel
    omega

theorem readsOperand_binary {d' p : Nat} {t : Token} {op : BinaryOp} {ls rs : List Token}
    {left right : Expr} (hop : binaryOp t.type = some op) (hp : p < t.rank) (hne : d' ≠ 0)
    (hleft : ReadsOperand (d' + 1) (t.rank - 1) ls left)
    (hright : ReadsOperand d' t.rank rs right) :
    ReadsOperand (d' + 1) p (ls ++ t :: rs) (.binary op left right) := by
  intro fuel precedence s rest errors d Q hD hs hfuel hfits hgo
  obtain ⟨hfn, hpos, hunary⟩ := binaryOp_spec hop
  have htokens : ls ++ t :: rs ++ rest = ls ++ t :: (rs ++ rest) := by simp
  rw [htokens] at hs hfuel
  have hrank : precedence.rank < t.rank ∧ headRank rest ≤ t.rank := by
    rcases hfits with ⟨name, hname⟩ | ⟨hle, hrest, -⟩
    · cases hname
    · omega
  have hpos' : 0 < t.rank := hpos
  have hfront : t.rank ≤ t.rank - 1 + 1 := by omega
  refine hleft hD hs hfuel (.inr ⟨by omega, hfront, Nat.le_of_lt hunary⟩)
    fun m l s₁ hs₁ hl hm => ?_
  obtain ⟨m, rfl⟩ := Nat.exists_eq_succ_of_ne_zero (Nat.ne_zero_of_lt hm)
  have hnext : s₁.next = t := hs₁.next
  refine operators_again .parseBinary (by rw [hnext]; omega) (by rw [hnext]; exact hfn) ?_
  have hcurrent : (parserAdvance s₁).current = t := hnext
  have hop' : binaryOp (parserAdvance s₁).current.type = some op := by rw [hcurrent, hop]
  have hright' : ReadsOperand d' (getTokenPrecedence (parserAdvance s₁).current.type).rank rs
      right := by
    rw [hcurrent]
    exact hright
  have hrank' : headRank rest ≤ (getTokenPrecedence (parserAdvance s₁).current.type).rank := by
    rw [hcurrent]
    exact hrank.2
  simp only [callInfix, parseBinary, wp_bind, wp_get, wp_newNode, hop', wp_pure]
  have hlen : (rs ++ rest).length < fuel := by
    simp only [List.length_append, List.length_cons] at hfuel ⊢
    omega
  have hD' : d + d' = maxExpressionDepth := by omega
  refine wp_mono (ReadsOperand.expression hright' hne hD' hs₁.advance.newNode hlen hrank'
    (by rw [hcurrent]; exact Nat.le_of_lt hunary)) fun r s₂ hs₂ => ?_
  refine hgo m _ _ hs₂.1 (by simp [ASTNode.expr?, hl, hs₂.2]) ?_
  simp only [List.length_append, List.length_cons] at hm
  omega

theorem readsOperand_assignment {d' p q : Nat} {t : Token} {ls rs : List Token}
    {name : StringView} {value : Expr} (ht : t.type = .equal)
    (hp : p < Precedence.assignment.rank) (hne : d' ≠ 0)
    (hname : ReadsOperand (d' + 1) q ls (.identifier name))
    (hvalue : ReadsOperand d' Precedence.assignment.rank rs value) :
    ReadsOperand (d' + 1) p (ls ++ t :: rs) (.assignment name value) := by
  intro fuel precedence s rest errors d Q hD hs hfuel hfits hgo
  have htokens : ls ++ t :: rs ++ rest = ls ++ t :: (rs ++ rest) := by simp
  rw [htokens] at hs hfuel
  have hone : Precedence.assignment.rank = 1 := rfl
  obtain ⟨hweak, hrank⟩ : precedence.rank = 0 ∧ headRank rest ≤ Precedence.assignment.rank := by
    rcases hfits with ⟨name, hname⟩ | ⟨hle, hrest, -⟩
    · cases hname
    · omega
  have htrank : t.rank = 1 := by
    unfold Token.rank
    rw [ht]
    rfl
  refine hname hD hs hfuel (.inl ⟨name, rfl⟩) fun m l s₁ hs₁ hl hm => ?_
  obtain ⟨m, rfl⟩ := Nat.exists_eq_succ_of_ne_zero (Nat.ne_zero_of_lt hm)
  have hnext : s₁.next = t := hs₁.next
  refine operators_again .parseAssignment (by rw [hnext]; omega)
    (by rw [hnext, ht]; rfl) ?_
  obtain ⟨info, rfl⟩ := identifier_of_expr? hl
  simp only [callInfix, parseAssignment, wp_bind, wp_newNode, wp_pure]
  have hlen : (rs ++ rest).length < fuel := by
    simp only [List.length_append, List.length_cons] at hfuel ⊢
    omega
  have hD' : d + d' = maxExpressionDepth := by omega
  refine wp_mono (ReadsOperand.expression hvalue hne hD' hs₁.advance.newNode hlen hrank
    (by decide)) fun v s₂ hs₂ => ?_
  refine hgo m _ _ hs₂.1 (by simp [ASTNode.expr?, hs₂.2]) ?_
  simp only [List.length_append, List.length_cons] at hm
  omega

/-- One argument, in front of a comma or of the end of the list. -/
theorem wp_argTurn {D : Nat} {ts : List Token} {e : Expr}
    (h : ReadsOperand D Precedence.assignment.rank ts e) (hne : D ≠ 0) {fuel : Nat} {s : Parser}
    {c : Token} {rest : List Token} {errors : ErrorContext} {d : Nat}
    (hD : d + D = maxExpressionDepth) (hs : At d errors (ts ++ c :: rest) s)
    (hfuel : (ts ++ c :: rest).length < fuel) (hc : c.rank = 0) {args : List ASTNode}
    (hroom : args.length < maxParamsPerFunction)
    {Q : Turn (List ASTNode) (List ASTNode) → Parser → Prop}
    (hmore : ∀ arg s', arg.expr? = some e → c.type = .comma → At d errors rest s' →
      Q (.again (args ++ [arg])) s')
    (hlast : ∀ arg s', arg.expr? = some e → c.type ≠ .comma → At d errors (c :: rest) s' →
      Q (.leave (args ++ [arg])) s') :
    wp Never (argTurn (parseExpression fuel) args) Q s := by
  have hrank : headRank (c :: rest) ≤ Precedence.assignment.rank := by
    show c.rank ≤ _
    rw [hc]
    exact Nat.zero_le _
  unfold argTurn
  refine wp_ite (fun hfull => absurd hfull (Nat.not_le_of_lt hroom)) fun _ => ?_
  refine wp_seq (h.expression hne hD hs hfuel hrank (by decide)) fun arg s' hs' => ?_
  rw [if_neg (by simp [arg.isNull_of_expr? hs'.2])]
  rw [wp_bind]
  have hnext := hs'.1.next
  refine wp_matchToken (fun hcomma => ?_) fun hcomma => ?_
  · exact hmore arg _ hs'.2 (by rw [← hnext, hcomma]) hs'.1.advance
  · exact hlast arg s' hs'.2 (by rw [← hnext]; exact hcomma) hs'.1

/-- The arguments of a call, in front of the closing parenthesis. -/
theorem args_complete {d' : Nat} {r : Token} (hr : r.type = .rparen) (hne : d' ≠ 0)
    {fuel : Nat} {rest : List Token} {errors : ErrorContext} {d : Nat}
    (hD : d + d' = maxExpressionDepth) {parts : List (List Token × Expr)}
    (hparts : ∀ part ∈ parts, ReadsOperand d' Precedence.assignment.rank part.1 part.2)
    (hnil : parts ≠ []) {n : Nat} {as : List Token} {s : Parser} {args : List ASTNode}
    {es : List Expr} (hsep : Separated (parts.map (·.1)) as)
    (hs : At d errors (as ++ r :: rest) s) (hfuel : (as ++ r :: rest).length < fuel)
    (hn : (as ++ r :: rest).length < n) (hargs : exprs? args = some es)
    (hcount : args.length + parts.length ≤ maxParamsPerFunction) :
    wp Never (loop .outOfFuel (argTurn (parseExpression fuel)) n args)
      (fun args' s' => At d errors (r :: rest) s' ∧ exprs? args' = some (es ++ parts.map (·.2)))
      s := by
  have hsnoc : ∀ {args : List ASTNode} {es : List Expr} {arg : ASTNode} {e : Expr},
      exprs? args = some es → arg.expr? = some e → exprs? (args ++ [arg]) = some (es ++ [e]) := by
    intro args es arg e hes he
    rw [exprs?_eq] at hes ⊢
    exact mapM_snoc hes he
  have hrank : ∀ {c : Token} {type : TokenType}, c.type = type → getTokenPrecedence type = .none →
      c.rank = 0 := by
    rintro c type rfl htype
    unfold Token.rank
    rw [htype]
    rfl
  induction parts generalizing n as s args es with
  | nil => exact absurd rfl hnil
  | cons part parts ih =>
    have hpart := hparts part (by simp)
    obtain ⟨n, rfl⟩ := Nat.exists_eq_succ_of_ne_zero (Nat.ne_zero_of_lt hn)
    have hroom : args.length < maxParamsPerFunction := by
      simp only [List.length_cons] at hcount
      omega
    cases parts with
    | nil =>
      cases hsep
      refine wp_loop_succ (wp_argTurn hpart hne hD hs hfuel (hrank hr rfl) hroom
        (Q := fun turn s' => ∃ arg, turn = .leave (args ++ [arg]) ∧ arg.expr? = some part.2 ∧
          At d errors (r :: rest) s')
        (fun arg s' _ hcomma => ?_) fun arg s' he _ hs' => ⟨arg, rfl, he, hs'⟩) ?_ ?_
      · rw [hr] at hcomma
        cases hcomma
      · rintro args' s' ⟨arg, hturn, -⟩
        cases hturn
      · rintro args' s' ⟨arg, hturn, he, hs'⟩
        cases hturn
        exact ⟨hs', hsnoc hargs he⟩
    | cons part' parts =>
      cases hsep with
      | cons _ hcomma hrest =>
        rename_i us c
        have htokens : part.1 ++ c :: us ++ r :: rest = part.1 ++ c :: (us ++ r :: rest) := by simp
        rw [htokens] at hs hfuel hn
        refine wp_loop_succ (wp_argTurn hpart hne hD hs hfuel (hrank hcomma rfl) hroom
          (Q := fun turn s' => ∃ arg, turn = .again (args ++ [arg]) ∧ arg.expr? = some part.2 ∧
            At d errors (us ++ r :: rest) s')
          (fun arg s' he _ hs' => ⟨arg, rfl, he, hs'⟩) fun arg s' _ hno _ => absurd hcomma hno)
          ?_ ?_
        · rintro args' s' ⟨arg, hturn, he, hs'⟩
          cases hturn
          simp only [List.length_append, List.length_cons] at hfuel hn hcount
          refine wp_mono (ih (fun p hp => hparts p (List.mem_cons_of_mem _ hp)) (by simp) hrest hs'
            ?_ ?_ (hsnoc hargs he) ?_) fun args'' s'' hs'' => ⟨hs''.1, ?_⟩
          · simp only [List.length_append, List.length_cons]
            omega
          · simp only [List.length_append, List.length_cons]
            omega
          · simp only [List.length_append, List.length_cons, List.length_nil]
            omega
          · rw [hs''.2]
            simp
        · rintro args' s' ⟨arg, hturn, -⟩
          cases hturn

theorem readsOperand_call {d' p q : Nat} {l r : Token} {fs as : List Token} {name : StringView}
    {parts : List (List Token × Expr)} (hl : l.type = .lparen) (hr : r.type = .rparen)
    (hp : p < Precedence.call.rank) (hne : parts ≠ [] → d' ≠ 0)
    (hname : ReadsOperand (d' + 1) q fs (.identifier name))
    (hfirst : parts ≠ [] → ∃ t us, as = t :: us ∧ t.type ≠ .rparen)
    (hparts : ∀ part ∈ parts, ReadsOperand d' Precedence.assignment.rank part.1 part.2)
    (hcount : parts.length ≤ maxParamsPerFunction) (hsep : Separated (parts.map (·.1)) as) :
    ReadsOperand (d' + 1) p (fs ++ l :: (as ++ [r])) (.call name (parts.map (·.2))) := by
  intro fuel precedence s rest errors d Q hD hs hfuel hfits hgo
  have htokens : fs ++ l :: (as ++ [r]) ++ rest = fs ++ l :: (as ++ r :: rest) := by simp
  rw [htokens] at hs hfuel
  have hlrank : l.rank = Precedence.call.rank := headRank_of_type hl []
  have hprec : precedence.rank ≤ p := by
    rcases hfits with ⟨name, hname⟩ | hfits
    · cases hname
    · exact hfits.1
  refine hname hD hs hfuel (.inl ⟨name, rfl⟩) fun m left s₁ hs₁ hleft hm => ?_
  obtain ⟨m, rfl⟩ := Nat.exists_eq_succ_of_ne_zero (Nat.ne_zero_of_lt hm)
  have hnext : s₁.next = l := hs₁.next
  have hbinds : precedence.rank < s₁.next.rank := by
    rw [hnext]
    omega
  refine operators_again .parseCall hbinds (by rw [hnext, hl]; rfl) ?_
  obtain ⟨info, rfl⟩ := identifier_of_expr? hleft
  have hlen : (as ++ r :: rest).length < fuel := by
    simp only [List.length_append, List.length_cons] at hfuel ⊢
    omega
  have hdone : ∀ args s₂, At d errors (r :: rest) s₂ → exprs? args = some (parts.map (·.2)) →
      wp Never (operators fuel precedence m
        (.call ⟨(parserAdvance s₁).arena, .void, info.line, info.column⟩ name args)) Q
        (parserConsume s₂ .rparen "Expected ')' after arguments") := by
    intro args s₂ hs₂ hargs
    refine hgo m _ _ (hs₂.consume hr _).1 (by simp [ASTNode.expr?, hargs]) ?_
    simp only [List.length_append, List.length_cons] at hm
    omega
  have hafter := hs₁.advance.newNode
  simp only [callInfix, parseCall, wp_bind, wp_newNode, wp_get]
  by_cases hnil : parts = []
  · subst hnil
    cases hsep
    have hparen : (parserAdvance s₁).next.type = .rparen := by
      have hnext' : (parserAdvance s₁).next = r := hs₁.advance.next
      rw [hnext', hr]
    rw [if_pos hparen]
    exact hdone [] _ hafter rfl
  · have hparen : (parserAdvance s₁).next.type ≠ .rparen := by
      obtain ⟨t, us, rfl, ht⟩ := hfirst hnil
      have hnext' : (parserAdvance s₁).next = t := hs₁.advance.next
      rw [hnext']
      exact ht
    rw [if_neg hparen]
    have hD' : d + d' = maxExpressionDepth := by omega
    have hcount' : ([] : List ASTNode).length + parts.length ≤ maxParamsPerFunction := by
      simpa using hcount
    refine wp_seq (args_complete hr (hne hnil) hD' hparts hnil hsep hafter hlen hlen rfl hcount')
      fun args s₂ hs₂ => ?_
    exact hdone args s₂ hs₂.1 hs₂.2

theorem DerivesExpr.depth_ne {d p : Nat} {ts : List Token} {e : Expr} (h : DerivesExpr d p ts e) :
    d ≠ 0 := by
  cases h <;> exact Nat.succ_ne_zero _

/-- Every derivation of an expression is read. -/
theorem DerivesExpr.reads {D p : Nat} {ts : List Token} {e : Expr} (h : DerivesExpr D p ts e) :
    ReadsOperand D p ts e := by
  induction h with
  | number ht =>
    refine readsOperand_leaf .parseNumber (by rw [ht]; rfl) fun fuel s hs => ?_
    rw [← hs]
    exact ⟨rfl, rfl⟩
  | identifier ht =>
    refine readsOperand_leaf .parseIdentifier (by rw [ht]; rfl) fun fuel s hs => ?_
    rw [← hs]
    exact ⟨rfl, rfl⟩
  | grouping hl hr h ih => exact readsOperand_grouping hl hr h.depth_ne ih
  | unary hop h ih => exact readsOperand_unary hop h.depth_ne ih
  | binary hop hp hleft hright ihleft ihright =>
    exact readsOperand_binary hop hp hright.depth_ne ihleft ihright
  | assignment ht hp hname hvalue ihname ihvalue =>
    exact readsOperand_assignment ht hp hvalue.depth_ne ihname ihvalue
  | @call d p q l r fs as name args hl hr hp hname hargs hcount hsep ihname ihargs =>
    refine readsOperand_call hl hr hp (fun hnil => ?_) ihname (fun hnil => ?_) ihargs hcount hsep
    · obtain ⟨arg, harg⟩ := List.exists_mem_of_ne_nil _ hnil
      exact (hargs arg harg).depth_ne
    · refine hsep.head (by simpa using hnil) fun part hpart => ?_
      obtain ⟨arg, harg, rfl⟩ := List.mem_map.mp hpart
      obtain ⟨t, us, hts, fn, hfn⟩ := (hargs arg harg).head
      refine ⟨t, us, hts, fun hparen => ?_⟩
      rw [hparen] at hfn
      cases hfn

/-- A whole expression in front of a token that does not bind. -/
theorem WritesExpr.reads {ts : List Token} {e : Expr} (h : WritesExpr ts e) {fuel : Nat}
    {s : Parser} {t : Token} {rest : List Token} {errors : ErrorContext}
    (hs : At 0 errors (ts ++ t :: rest) s) (hfuel : (ts ++ t :: rest).length < fuel)
    (ht : getTokenPrecedence t.type = .none) :
    wp Never (parseExpression fuel .none)
      (fun node s' => At 0 errors (t :: rest) s' ∧ node.expr? = some e) s := by
  have hrank : headRank (t :: rest) ≤ Precedence.none.rank := by
    have heq : headRank (t :: rest) = Precedence.none.rank := by
      rw [headRank_of_type rfl, ht]
    exact Nat.le_of_eq heq
  have hreads : ReadsOperand maxExpressionDepth Precedence.none.rank ts e := DerivesExpr.reads h
  exact hreads.expression (by decide) (Nat.zero_add _) hs hfuel hrank (by decide)

/-! ## Statements -/

/-- A statement is read, unless the `else` behind it would belong to it. -/
def ReadsStmt (ts : List Token) (st : Stmt) : Prop :=
  ∀ ⦃fuel : Nat⦄ ⦃s : Parser⦄ ⦃rest : List Token⦄ ⦃errors : ErrorContext⦄,
    At 0 errors (ts ++ rest) s → (ts ++ rest).length < fuel →
    (openIf st = true → ∀ t us, rest = t :: us → t.type ≠ .elseKw) →
    wp Never (parseStatement fuel)
      (fun node s' => At 0 errors rest s' ∧ node.stmt? = some st) s

/-- What starts an operand starts no other statement. -/
theorem stmtFn_of_prefixFn {type : TokenType} {fn : PrefixFn}
    (h : (rules type).prefixFn = some fn) : (rules type).stmtFn = none := by
  cases type <;> first
    | rfl
    | cases h

/-- No statement starts with `}` or `else`. -/
theorem DerivesStmt.head {ts : List Token} {st : Stmt} (h : DerivesStmt ts st) :
    ∃ t us, ts = t :: us ∧ t.type ≠ .rbrace ∧ t.type ≠ .elseKw := by
  have hkeyword : ∀ {t : Token} {type : TokenType} (us : List Token), t.type = type →
      type ≠ .rbrace → type ≠ .elseKw →
      ∃ t' us', t :: us = t' :: us' ∧ t'.type ≠ .rbrace ∧ t'.type ≠ .elseKw := by
    rintro t type us rfl hbrace helse
    exact ⟨t, us, rfl, hbrace, helse⟩
  cases h with
  | expr hsemi h =>
    obtain ⟨t, us, rfl, fn, hfn⟩ := DerivesExpr.head h
    refine ⟨t, _, rfl, fun hbrace => ?_, fun helse => ?_⟩
    · rw [hbrace] at hfn
      cases hfn
    · rw [helse] at hfn
      cases hfn
  | @varDecl ty name semi hty hname hsemi =>
    refine ⟨ty, _, rfl, fun hbrace => ?_, fun helse => ?_⟩
    · rw [hbrace] at hty
      cases hty
    · rw [helse] at hty
      cases hty
  | @varInit ty name eq semi ts e hty hname heq h hsemi =>
    refine ⟨ty, _, rfl, fun hbrace => ?_, fun helse => ?_⟩
    · rw [hbrace] at hty
      cases hty
    · rw [helse] at hty
      cases hty
  | ret hkw hsemi => exact hkeyword _ hkw (by decide) (by decide)
  | retValue hkw h hsemi => exact hkeyword _ hkw (by decide) (by decide)
  | ifThen hkw hl hc hr ht => exact hkeyword _ hkw (by decide) (by decide)
  | ifElse hkw hl hc hr ht hclosed hkw' he => exact hkeyword _ hkw (by decide) (by decide)
  | whileLoop hkw hl hc hr hbody => exact hkeyword _ hkw (by decide) (by decide)
  | block hl hr hparts hcount => exact hkeyword _ hl (by decide) (by decide)

theorem readsStmt_expr {semi : Token} {ts : List Token} {e : Expr}
    (hsemi : semi.type = .semicolon) (h : WritesExpr ts e) :
    ReadsStmt (ts ++ [semi]) (.expr e) := by
  intro fuel s rest errors hs hfuel _
  have htokens : ts ++ [semi] ++ rest = ts ++ semi :: rest := by simp
  rw [htokens] at hs hfuel
  obtain ⟨t, us, rfl, fn, hfn⟩ := DerivesExpr.head h
  obtain ⟨fuel, rfl⟩ := Nat.exists_eq_succ_of_ne_zero (Nat.ne_zero_of_lt hfuel)
  have hstmt : (rules s.next.type).stmtFn = none := by
    rw [hs.next]
    exact stmtFn_of_prefixFn hfn
  unfold parseStatement
  simp only [wp_bind, wp_get, hstmt, parseExprStmt, wp_modify, wp_pure]
  refine wp_mono (WritesExpr.reads h hs hfuel (by rw [hsemi]; rfl)) fun node s' hs' => ?_
  exact ⟨(hs'.1.consume hsemi _).1, ASTNode.stmt?_of_expr? hs'.2⟩

/-- The type and the name of a declaration. -/
theorem wp_declHead {ty name : Token} {rest : List Token} {errors : ErrorContext} {s : Parser}
    (hty : (rules ty.type).stmtFn = some .parseVarDecl) (hname : name.type = .identifier)
    (hs : At 0 errors (ty :: name :: rest) s) {expr : Precedence → ParseM ASTNode}
    {Q : ASTNode → Parser → Prop}
    (hQ : ∀ s', At 0 errors rest s' → s'.current = name → wp Never (do
      let initializer ← if ← matchToken .equal then expr .none else pure .null
      modify (parserConsume · .semicolon "expected ';'")
      let addr ← newNode
      return .varDecl ⟨addr, typeFromSv ty.text, s'.current.line, 0⟩ s'.current.text
        (typeFromSv ty.text) initializer) Q s') :
    wp Never (parseVarDecl expr) Q s := by
  have hnext := hs.next
  have hkw : isTypeKeyword s.next.text = true :=
    isTypeKeyword_of_varDecl s.lexical.1 (by rw [hnext]; exact hty)
  unfold parseVarDecl
  rw [wp_bind]
  refine wp_parseType (fun _ => ?_) fun hno => ?_
  · have hadvance := hs.advance
    simp only [wp_bind, wp_get]
    rw [if_neg (by simp [hadvance.panic])]
    obtain ⟨hconsume, hcurrent⟩ := hadvance.consume hname "expected variable name"
    rw [hnext]
    exact hQ _ hconsume hcurrent
  · rw [hkw] at hno
    cases hno

/-- The end of a statement that ends in a semicolon and stands in a node of its own. -/
theorem At.semicolon {s : Parser} {semi : Token} {rest : List Token} {errors : ErrorContext}
    (hs : At 0 errors (semi :: rest) s) (hsemi : semi.type = .semicolon) :
    At 0 errors rest { parserConsume s .semicolon "expected ';'" with
      arena := (parserConsume s .semicolon "expected ';'").arena + 1 } :=
  (hs.consume hsemi _).1.newNode

theorem readsStmt_varDecl {ty name semi : Token} (hty : (rules ty.type).stmtFn = some .parseVarDecl)
    (hname : name.type = .identifier) (hsemi : semi.type = .semicolon) :
    ReadsStmt [ty, name, semi] (.varDecl name.text (typeFromSv ty.text) none) := by
  intro fuel s rest errors hs hfuel _
  obtain ⟨fuel, rfl⟩ := Nat.exists_eq_succ_of_ne_zero (Nat.ne_zero_of_lt hfuel)
  have hfn : (rules s.next.type).stmtFn = some .parseVarDecl := by rw [hs.next, hty]
  unfold parseStatement
  simp only [wp_bind, wp_get, hfn]
  refine wp_declHead hty hname hs fun s' hs' hcurrent => ?_
  rw [wp_bind]
  refine wp_matchToken (fun hequal => ?_) fun _ => ?_
  · rw [hs'.next, hsemi] at hequal
    cases hequal
  · simp only [Bool.false_eq_true, if_false, wp_bind, wp_pure, wp_modify, wp_newNode]
    refine ⟨hs'.semicolon hsemi, ?_⟩
    rw [hcurrent]
    rfl

theorem readsStmt_varInit {ty name eq semi : Token} {ts : List Token} {e : Expr}
    (hty : (rules ty.type).stmtFn = some .parseVarDecl) (hname : name.type = .identifier)
    (heq : eq.type = .equal) (h : WritesExpr ts e) (hsemi : semi.type = .semicolon) :
    ReadsStmt (ty :: name :: eq :: (ts ++ [semi]))
      (.varDecl name.text (typeFromSv ty.text) (some e)) := by
  intro fuel s rest errors hs hfuel _
  have htokens : ty :: name :: eq :: (ts ++ [semi]) ++ rest =
      ty :: name :: eq :: (ts ++ semi :: rest) := by simp
  rw [htokens] at hs hfuel
  obtain ⟨fuel, rfl⟩ := Nat.exists_eq_succ_of_ne_zero (Nat.ne_zero_of_lt hfuel)
  have hfn : (rules s.next.type).stmtFn = some .parseVarDecl := by rw [hs.next, hty]
  have hlen : (ts ++ semi :: rest).length < fuel + 1 := by
    simp only [List.length_cons] at hfuel
    omega
  unfold parseStatement
  simp only [wp_bind, wp_get, hfn]
  refine wp_declHead hty hname hs fun s' hs' hcurrent => ?_
  rw [wp_bind]
  refine wp_matchToken_at hs' heq ?_
  rw [if_pos rfl]
  refine wp_seq (WritesExpr.reads h hs'.advance hlen (by rw [hsemi]; rfl)) fun init s₂ hs₂ => ?_
  simp only [wp_bind, wp_modify, wp_newNode, wp_pure]
  refine ⟨hs₂.1.semicolon hsemi, ?_⟩
  simp [ASTNode.stmt?, ASTNode.optionalExpr?_of_expr? hs₂.2, hcurrent]

theorem readsStmt_ret {kw semi : Token} (hkw : kw.type = .returnKw)
    (hsemi : semi.type = .semicolon) : ReadsStmt [kw, semi] (.ret none) := by
  intro fuel s rest errors hs hfuel _
  obtain ⟨fuel, rfl⟩ := Nat.exists_eq_succ_of_ne_zero (Nat.ne_zero_of_lt hfuel)
  have hfn : (rules s.next.type).stmtFn = some .parseReturn := by rw [hs.next, hkw]; rfl
  obtain ⟨hreturn, -⟩ := hs.consume hkw "expected 'return'"
  unfold parseStatement
  simp only [wp_bind, wp_get, hfn, parseReturn, wp_modify]
  rw [if_pos (by rw [hreturn.next, hsemi])]
  simp only [wp_bind, wp_pure, wp_modify, wp_newNode]
  exact ⟨hreturn.semicolon hsemi, rfl⟩

theorem readsStmt_retValue {kw semi : Token} {ts : List Token} {e : Expr}
    (hkw : kw.type = .returnKw) (h : WritesExpr ts e) (hsemi : semi.type = .semicolon) :
    ReadsStmt (kw :: (ts ++ [semi])) (.ret (some e)) := by
  intro fuel s rest errors hs hfuel _
  have htokens : kw :: (ts ++ [semi]) ++ rest = kw :: (ts ++ semi :: rest) := by simp
  rw [htokens] at hs hfuel
  obtain ⟨fuel, rfl⟩ := Nat.exists_eq_succ_of_ne_zero (Nat.ne_zero_of_lt hfuel)
  have hfn : (rules s.next.type).stmtFn = some .parseReturn := by rw [hs.next, hkw]; rfl
  obtain ⟨hreturn, -⟩ := hs.consume hkw "expected 'return'"
  have hlen : (ts ++ semi :: rest).length < fuel + 1 := by
    simp only [List.length_cons] at hfuel
    omega
  have hno : (parserConsume s .returnKw "expected 'return'").next.type ≠ .semicolon := by
    obtain ⟨t, us, rfl, fn, hfn⟩ := DerivesExpr.head h
    rw [hreturn.next]
    intro hsemi'
    rw [hsemi'] at hfn
    cases hfn
  unfold parseStatement
  simp only [wp_bind, wp_get, hfn, parseReturn, wp_modify]
  rw [if_neg hno]
  refine wp_seq (WritesExpr.reads h hreturn hlen (by rw [hsemi]; rfl)) fun init s₂ hs₂ => ?_
  simp only [wp_bind, wp_modify, wp_newNode, wp_pure]
  refine ⟨hs₂.1.semicolon hsemi, ?_⟩
  simp [ASTNode.stmt?, ASTNode.optionalExpr?_of_expr? hs₂.2]

/-- The keyword and the condition in parentheses of `if` and `while`. -/
theorem wp_condition {kw l r : Token} {type : TokenType} {cs rest : List Token} {c : Expr}
    (hkw : kw.type = type) (hl : l.type = .lparen) (hc : WritesExpr cs c) (hr : r.type = .rparen)
    {fuel : Nat} {s : Parser} {errors : ErrorContext}
    (hs : At 0 errors (kw :: l :: (cs ++ r :: rest)) s)
    (hfuel : (kw :: l :: (cs ++ r :: rest)).length < fuel) {message : String}
    {Q : ASTNode → Parser → Prop}
    (hQ : ∀ node s', At 0 errors rest s' → node.expr? = some c → Q node s') :
    wp Never (parseExpression fuel .none)
      (fun node s' => Q node (parserConsume s' .rparen "expected ')'"))
      (parserConsume (parserConsume s type message) .lparen "expected '('") := by
  obtain ⟨hkeyword, -⟩ := hs.consume hkw message
  obtain ⟨hparen, -⟩ := hkeyword.consume hl "expected '('"
  have hlen : (cs ++ r :: rest).length < fuel := by
    simp only [List.length_cons] at hfuel
    omega
  refine wp_mono (WritesExpr.reads hc hparen hlen (by rw [hr]; rfl)) fun node s' hs' => ?_
  exact hQ node _ (hs'.1.consume hr _).1 hs'.2

theorem readsStmt_ifThen {kw l r : Token} {cs ts : List Token} {c : Expr} {t : Stmt}
    (hkw : kw.type = .ifKw) (hl : l.type = .lparen) (hc : WritesExpr cs c)
    (hr : r.type = .rparen) (ht : ReadsStmt ts t) :
    ReadsStmt (kw :: l :: (cs ++ r :: ts)) (.ifThen c t) := by
  intro fuel s rest errors hs hfuel hopen
  have htokens : kw :: l :: (cs ++ r :: ts) ++ rest = kw :: l :: (cs ++ r :: (ts ++ rest)) := by
    simp
  rw [htokens] at hs hfuel
  obtain ⟨fuel, rfl⟩ := Nat.exists_eq_succ_of_ne_zero (Nat.ne_zero_of_lt hfuel)
  have hfn : (rules s.next.type).stmtFn = some .parseIf := by rw [hs.next, hkw]; rfl
  have hlen : (ts ++ rest).length < fuel := by
    simp only [List.length_cons, List.length_append] at hfuel ⊢
    omega
  unfold parseStatement
  simp only [wp_bind, wp_get, hfn, parseIf, wp_modify]
  refine wp_condition hkw hl hc hr hs hfuel fun condition s₁ hs₁ hcond => ?_
  refine wp_mono (ht hs₁ hlen fun _ => hopen rfl) fun thenBranch s₂ hs₂ => ?_
  refine wp_matchToken (fun helse => ?_) fun _ => ?_
  · exact absurd helse (hs₂.1.next_ne (by decide) (hopen rfl))
  · simp only [Bool.false_eq_true, if_false, wp_bind, wp_pure, wp_newNode]
    refine ⟨hs₂.1.newNode, ?_⟩
    simp [ASTNode.stmt?, hcond, hs₂.2, ASTNode.isNull]

theorem readsStmt_ifElse {kw l r kw' : Token} {cs ts es : List Token} {c : Expr} {t e : Stmt}
    (hkw : kw.type = .ifKw) (hl : l.type = .lparen) (hc : WritesExpr cs c)
    (hr : r.type = .rparen) (ht : ReadsStmt ts t) (hclosed : openIf t = false)
    (hkw' : kw'.type = .elseKw) (he : ReadsStmt es e) :
    ReadsStmt (kw :: l :: (cs ++ r :: (ts ++ kw' :: es))) (.ifElse c t e) := by
  intro fuel s rest errors hs hfuel hopen
  have htokens : kw :: l :: (cs ++ r :: (ts ++ kw' :: es)) ++ rest =
      kw :: l :: (cs ++ r :: (ts ++ kw' :: (es ++ rest))) := by simp
  rw [htokens] at hs hfuel
  obtain ⟨fuel, rfl⟩ := Nat.exists_eq_succ_of_ne_zero (Nat.ne_zero_of_lt hfuel)
  have hfn : (rules s.next.type).stmtFn = some .parseIf := by rw [hs.next, hkw]; rfl
  have hlen : (ts ++ kw' :: (es ++ rest)).length < fuel := by
    simp only [List.length_cons, List.length_append] at hfuel ⊢
    omega
  have hlen' : (es ++ rest).length < fuel := by
    simp only [List.length_cons, List.length_append] at hlen ⊢
    omega
  unfold parseStatement
  simp only [wp_bind, wp_get, hfn, parseIf, wp_modify]
  refine wp_condition hkw hl hc hr hs hfuel fun condition s₁ hs₁ hcond => ?_
  refine wp_mono (ht hs₁ hlen fun hyes => ?_) fun thenBranch s₂ hs₂ => ?_
  · rw [hclosed] at hyes
    cases hyes
  refine wp_matchToken_at hs₂.1 hkw' ?_
  rw [if_pos rfl]
  refine wp_seq (he hs₂.1.advance hlen' hopen) fun elseBranch s₃ hs₃ => ?_
  simp only [wp_newNode, wp_pure, wp_bind]
  refine ⟨hs₃.1.newNode, ?_⟩
  simp [ASTNode.stmt?, hcond, hs₂.2, hs₃.2, elseBranch.isNull_of_stmt? hs₃.2]

theorem readsStmt_whileLoop {kw l r : Token} {cs ts : List Token} {c : Expr} {body : Stmt}
    (hkw : kw.type = .whileKw) (hl : l.type = .lparen) (hc : WritesExpr cs c)
    (hr : r.type = .rparen) (hbody : ReadsStmt ts body) :
    ReadsStmt (kw :: l :: (cs ++ r :: ts)) (.whileLoop c body) := by
  intro fuel s rest errors hs hfuel hopen
  have htokens : kw :: l :: (cs ++ r :: ts) ++ rest = kw :: l :: (cs ++ r :: (ts ++ rest)) := by
    simp
  rw [htokens] at hs hfuel
  obtain ⟨fuel, rfl⟩ := Nat.exists_eq_succ_of_ne_zero (Nat.ne_zero_of_lt hfuel)
  have hfn : (rules s.next.type).stmtFn = some .parseWhile := by rw [hs.next, hkw]; rfl
  have hlen : (ts ++ rest).length < fuel := by
    simp only [List.length_cons, List.length_append] at hfuel ⊢
    omega
  unfold parseStatement
  simp only [wp_bind, wp_get, hfn, parseWhile, wp_modify]
  refine wp_condition hkw hl hc hr hs hfuel fun condition s₁ hs₁ hcond => ?_
  refine wp_mono (hbody hs₁ hlen hopen) fun node s₂ hs₂ => ?_
  simp only [wp_newNode, wp_pure]
  exact ⟨hs₂.1.newNode, by simp [ASTNode.stmt?, hcond, hs₂.2]⟩

/-- What follows a statement of a block is no `else`. -/
theorem blockRest_head {parts : List (List Token × Stmt)} {r : Token} {rest : List Token}
    (hparts : ∀ part ∈ parts, DerivesStmt part.1 part.2) (hr : r.type = .rbrace) :
    ∀ t us, parts.flatMap (·.1) ++ r :: rest = t :: us → t.type ≠ .elseKw := by
  intro t us heq
  cases parts with
  | nil =>
    obtain ⟨rfl, -⟩ := List.cons.inj heq
    rw [hr]
    decide
  | cons part parts =>
    obtain ⟨u, us', hu, -, helse⟩ := (hparts part (by simp)).head
    rw [List.flatMap_cons, hu] at heq
    obtain ⟨rfl, -⟩ := List.cons.inj heq
    exact helse

/-- The statements of a block, in front of the closing brace. -/
theorem statements_complete {r : Token} (hr : r.type = .rbrace) {fuel : Nat} {rest : List Token}
    {errors : ErrorContext} {parts : List (List Token × Stmt)}
    (hparts : ∀ part ∈ parts, DerivesStmt part.1 part.2)
    (hreads : ∀ part ∈ parts, ReadsStmt part.1 part.2) {n : Nat} {s : Parser}
    {stmts : List ASTNode} {sts : List Stmt}
    (hs : At 0 errors (parts.flatMap (·.1) ++ r :: rest) s)
    (hfuel : (parts.flatMap (·.1) ++ r :: rest).length ≤ fuel)
    (hn : (parts.flatMap (·.1) ++ r :: rest).length ≤ n) (hstmts : stmts? stmts = some sts)
    (hcount : stmts.length + parts.length ≤ maxBlockStatements) :
    wp Never (loop .outOfFuel (blockTurn (parseStatement (fuel + 1))) n stmts)
      (fun stmts' s' => At 0 errors (r :: rest) s' ∧
        stmts? stmts' = some (sts ++ parts.map (·.2))) s := by
  induction parts generalizing n s stmts sts with
  | nil =>
    cases n with
    | zero => exact absurd hn (by simp)
    | succ n =>
      refine wp_loop_succ (R := fun turn s' => turn = .leave stmts ∧ s' = s) ?_ ?_ ?_
      · unfold blockTurn
        simp only [wp_bind, wp_get]
        rw [if_pos (.inl (by rw [hs.next, hr]))]
        exact ⟨rfl, rfl⟩
      · rintro stmts' s' ⟨hturn, -⟩
        cases hturn
      · rintro stmts' s' ⟨hturn, rfl⟩
        cases hturn
        exact ⟨hs, by simpa using hstmts⟩
  | cons part parts ih =>
    have htokens : (part :: parts).flatMap (·.1) ++ r :: rest =
        part.1 ++ (parts.flatMap (·.1) ++ r :: rest) := by simp
    rw [htokens] at hs hfuel hn
    obtain ⟨t, us, hpart, hbrace, -⟩ := (hparts part (by simp)).head
    have hpos : 0 < part.1.length := by
      rw [hpart]
      exact Nat.succ_pos _
    cases n with
    | zero =>
      simp only [List.length_append] at hn
      omega
    | succ n =>
      have hmore : ¬ (s.next.type = .rbrace ∨ s.next.type = .eof) := by
        rw [hpart] at hs
        rintro (hno | hno)
        · rw [hs.next] at hno
          exact hbrace hno
        · exact hs.ne_eof hno
      have hlater : ∀ part ∈ parts, DerivesStmt part.1 part.2 :=
        fun p hp => hparts p (List.mem_cons_of_mem _ hp)
      simp only [List.length_cons] at hcount
      refine wp_loop_succ (R := fun turn s' => ∃ node, turn = .again (stmts ++ [node]) ∧
        node.stmt? = some part.2 ∧ At 0 errors (parts.flatMap (·.1) ++ r :: rest) s') ?_ ?_ ?_
      · unfold blockTurn
        simp only [wp_bind, wp_get]
        rw [if_neg hmore, if_neg (by omega)]
        refine wp_seq (hreads part (by simp) hs (Nat.lt_succ_of_le hfuel)
          fun _ => blockRest_head hlater hr) fun node s' hs' => ?_
        rw [if_neg (by simp [node.isNull_of_stmt? hs'.2])]
        exact ⟨node, rfl, hs'.2, hs'.1⟩
      · rintro stmts' s' ⟨node, hturn, hnode, hs'⟩
        cases hturn
        have hstmts' : stmts? (stmts ++ [node]) = some (sts ++ [part.2]) := by
          rw [stmts?_eq] at hstmts ⊢
          exact mapM_snoc hstmts hnode
        rw [List.length_append] at hfuel hn
        refine wp_mono (ih hlater (fun p hp => hreads p (List.mem_cons_of_mem _ hp)) hs' (by omega)
          (by omega) hstmts' ?_) fun stmts'' s'' hs'' => ⟨hs''.1, ?_⟩
        · simp only [List.length_append, List.length_singleton]
          omega
        · rw [hs''.2]
          simp
      · rintro stmts' s' ⟨node, hturn, -⟩
        cases hturn

/-- `parse_block` reads a block. -/
theorem wp_parseBlock {l r : Token} {parts : List (List Token × Stmt)} (hl : l.type = .lbrace)
    (hr : r.type = .rbrace) (hparts : ∀ part ∈ parts, DerivesStmt part.1 part.2)
    (hreads : ∀ part ∈ parts, ReadsStmt part.1 part.2)
    (hcount : parts.length ≤ maxBlockStatements) {fuel : Nat} {s : Parser} {rest : List Token}
    {errors : ErrorContext} (hs : At 0 errors (l :: (parts.flatMap (·.1) ++ r :: rest)) s)
    (hfuel : (parts.flatMap (·.1) ++ r :: rest).length < fuel) :
    wp Never (parseBlock (parseStatement fuel) fuel) (fun node s' => At 0 errors rest s' ∧
      node.body? = some (parts.map (·.2)) ∧ node.stmt? = some (.block (parts.map (·.2)))) s := by
  obtain ⟨fuel, rfl⟩ := Nat.exists_eq_succ_of_ne_zero (Nat.ne_zero_of_lt hfuel)
  obtain ⟨hbrace, -⟩ := hs.consume hl "Expected '\x7b'"
  unfold parseBlock
  simp only [wp_bind, wp_modify]
  have hcount' : ([] : List ASTNode).length + parts.length ≤ maxBlockStatements := by
    simpa using hcount
  refine wp_mono (statements_complete hr hparts hreads hbrace (Nat.le_of_lt_succ hfuel)
    (Nat.le_of_lt hfuel) rfl hcount') fun stmts s' hs' => ?_
  simp only [wp_newNode, wp_pure]
  have hstmts : stmts? stmts = some (parts.map (·.2)) := hs'.2
  exact ⟨(hs'.1.consume hr _).1.newNode, by simp [ASTNode.body?, hstmts],
    by simp [ASTNode.stmt?, hstmts]⟩

theorem readsStmt_block {l r : Token} {parts : List (List Token × Stmt)} (hl : l.type = .lbrace)
    (hr : r.type = .rbrace) (hparts : ∀ part ∈ parts, DerivesStmt part.1 part.2)
    (hreads : ∀ part ∈ parts, ReadsStmt part.1 part.2)
    (hcount : parts.length ≤ maxBlockStatements) :
    ReadsStmt (l :: (parts.flatMap (·.1) ++ [r])) (.block (parts.map (·.2))) := by
  intro fuel s rest errors hs hfuel _
  have htokens : l :: (parts.flatMap (·.1) ++ [r]) ++ rest =
      l :: (parts.flatMap (·.1) ++ r :: rest) := by simp
  rw [htokens] at hs hfuel
  obtain ⟨fuel, rfl⟩ := Nat.exists_eq_succ_of_ne_zero (Nat.ne_zero_of_lt hfuel)
  have hfn : (rules s.next.type).stmtFn = some .parseBlock := by rw [hs.next, hl]; rfl
  have hlen : (parts.flatMap (·.1) ++ r :: rest).length < fuel := by
    simp only [List.length_cons] at hfuel
    omega
  unfold parseStatement
  simp only [wp_bind, wp_get, hfn]
  exact wp_mono (wp_parseBlock hl hr hparts hreads hcount hs hlen) fun node s' hs' =>
    ⟨hs'.1, hs'.2.2⟩

/-- Every derivation of a statement is read. -/
theorem DerivesStmt.reads {ts : List Token} {st : Stmt} (h : DerivesStmt ts st) :
    ReadsStmt ts st := by
  induction h with
  | expr hsemi h => exact readsStmt_expr hsemi h
  | varDecl hty hname hsemi => exact readsStmt_varDecl hty hname hsemi
  | varInit hty hname heq h hsemi => exact readsStmt_varInit hty hname heq h hsemi
  | ret hkw hsemi => exact readsStmt_ret hkw hsemi
  | retValue hkw h hsemi => exact readsStmt_retValue hkw h hsemi
  | ifThen hkw hl hc hr ht iht => exact readsStmt_ifThen hkw hl hc hr iht
  | ifElse hkw hl hc hr ht hclosed hkw' he iht ihe =>
    exact readsStmt_ifElse hkw hl hc hr iht hclosed hkw' ihe
  | whileLoop hkw hl hc hr hbody ihbody => exact readsStmt_whileLoop hkw hl hc hr ihbody
  | block hl hr hparts hcount ihparts => exact readsStmt_block hl hr hparts ihparts hcount

/-! ## Functions and files -/

theorem At.parseType {s : Parser} {t : Token} {rest : List Token} {errors : ErrorContext}
    (hs : At 0 errors (t :: rest) s) (ht : isTypeKeyword t.text = true)
    {Q : DataType → Parser → Prop} (hQ : Q (typeFromSv t.text) (parserAdvance s)) :
    wp Never Parser.parseType Q s := by
  have hnext := hs.next
  refine wp_parseType (fun _ => by rw [hnext]; exact hQ) fun hno => ?_
  rw [hnext, ht] at hno
  cases hno

/-- One parameter, in front of a comma or of the closing parenthesis. -/
theorem wp_paramTurn {ts : List Token} {param : Parameter} (h : WritesParam ts param)
    {c : Token} {rest : List Token} {errors : ErrorContext} {s : Parser}
    (hs : At 0 errors (ts ++ c :: rest) s) {params : List Parameter}
    {Q : Turn (List Parameter) (List Parameter) → Parser → Prop}
    (hmore : ∀ s', c.type = .comma → At 0 errors rest s' → Q (.again (params ++ [param])) s')
    (hlast : ∀ s', c.type ≠ .comma → At 0 errors (c :: rest) s' →
      Q (.leave (params ++ [param])) s') :
    wp Never (paramTurn params) Q s := by
  obtain ⟨ty, name, rfl, hkw, hname, rfl⟩ := h
  have hend : ∀ s' : Parser, At 0 errors (c :: rest) s' → wp Never (do
      if ← matchToken .comma then
        return Turn.again (params ++ [(⟨name.text, typeFromSv ty.text⟩ : Parameter)])
      else return Turn.leave (params ++ [(⟨name.text, typeFromSv ty.text⟩ : Parameter)])) Q s' := by
    intro s' hs'
    have hnext := hs'.next
    rw [wp_bind]
    refine wp_matchToken (fun hcomma => ?_) fun hcomma => ?_
    · exact hmore _ (by rw [← hnext, hcomma]) hs'.advance
    · exact hlast s' (by rw [← hnext]; exact hcomma) hs'
  unfold paramTurn
  rw [wp_bind]
  refine At.parseType hs hkw ?_
  obtain ⟨hconsume, hcurrent⟩ := hs.advance.consume hname "expected parameter name"
  simp only [wp_bind, wp_modify, wp_get]
  rw [hcurrent]
  split
  · exact hend _ ⟨hconsume.tokens, hconsume.panic, hconsume.errors, hconsume.depth⟩
  · exact hend _ hconsume

/-- The parameters of a function, in front of the closing parenthesis. -/
theorem params_complete {r : Token} (hr : r.type = .rparen) {rest : List Token}
    {errors : ErrorContext} {parts : List (List Token × Parameter)}
    (hparts : ∀ part ∈ parts, WritesParam part.1 part.2) (hnil : parts ≠ []) {n : Nat}
    {ps : List Token} {s : Parser} {params : List Parameter}
    (hsep : Separated (parts.map (·.1)) ps) (hs : At 0 errors (ps ++ r :: rest) s)
    (hn : (ps ++ r :: rest).length < n) :
    wp Never (loop .outOfFuel paramTurn n params)
      (fun params' s' => At 0 errors (r :: rest) s' ∧ params' = params ++ parts.map (·.2)) s := by
  induction parts generalizing n ps s params with
  | nil => exact absurd rfl hnil
  | cons part parts ih =>
    have hpart := hparts part (by simp)
    obtain ⟨n, rfl⟩ := Nat.exists_eq_succ_of_ne_zero (Nat.ne_zero_of_lt hn)
    cases parts with
    | nil =>
      cases hsep
      refine wp_loop_succ (wp_paramTurn hpart hs
        (Q := fun turn s' => turn = .leave (params ++ [part.2]) ∧ At 0 errors (r :: rest) s')
        (fun s' hcomma _ => ?_) fun s' _ hs' => ⟨rfl, hs'⟩) ?_ ?_
      · rw [hr] at hcomma
        cases hcomma
      · rintro params' s' ⟨hturn, -⟩
        cases hturn
      · rintro params' s' ⟨hturn, hs'⟩
        cases hturn
        exact ⟨hs', rfl⟩
    | cons part' parts =>
      cases hsep with
      | cons _ hcomma hrest =>
        rename_i us c
        have htokens : part.1 ++ c :: us ++ r :: rest = part.1 ++ c :: (us ++ r :: rest) := by simp
        rw [htokens] at hs hn
        refine wp_loop_succ (wp_paramTurn hpart hs
          (Q := fun turn s' => turn = .again (params ++ [part.2]) ∧
            At 0 errors (us ++ r :: rest) s')
          (fun s' _ hs' => ⟨rfl, hs'⟩) fun s' hno _ => absurd hcomma hno) ?_ ?_
        · rintro params' s' ⟨hturn, hs'⟩
          cases hturn
          have hn' : (us ++ r :: rest).length < n := by
            simp only [List.length_append, List.length_cons] at hn ⊢
            omega
          refine wp_mono (ih (fun p hp => hparts p (List.mem_cons_of_mem _ hp)) (by simp) hrest hs'
            hn') fun params'' s'' hs'' => ⟨hs''.1, ?_⟩
          rw [hs''.2]
          simp
        · rintro params' s' ⟨hturn, -⟩
          cases hturn

theorem wp_parseParamList {ps : List Token} {params : List Parameter}
    (h : DerivesParams ps params) {r : Token} (hr : r.type = .rparen) {rest : List Token}
    {errors : ErrorContext} {s : Parser} {n : Nat} (hs : At 0 errors (ps ++ r :: rest) s)
    (hn : (ps ++ r :: rest).length < n) :
    wp Never (parseParamList n)
      (fun params' s' => At 0 errors (r :: rest) s' ∧ params' = params) s := by
  unfold parseParamList
  simp only [wp_bind, wp_get]
  cases h with
  | none =>
    rw [if_pos (by rw [hs.next, hr])]
    exact ⟨hs, rfl⟩
  | void hv =>
    have hnext := hs.next
    rw [if_neg (by rw [hnext, hv]; decide), if_pos (by rw [hnext, hv])]
    exact ⟨hs.advance, rfl⟩
  | @some parts ts hparts hsep hfirst =>
    obtain ⟨t, us, rfl, hvoid⟩ := hfirst
    have hnil : parts ≠ [] := by
      rintro rfl
      cases hsep
    -- the first token has the text of a type
    have hparen : t.type ≠ .rparen := by
      obtain ⟨t', us', heq, hne⟩ := hsep.head (P := fun t => isTypeKeyword t.text = true)
        (by simpa using hnil) fun part hpart => by
          obtain ⟨part', hpart', rfl⟩ := List.mem_map.mp hpart
          obtain ⟨ty, name, hpart, hkw, -⟩ := hparts part' hpart'
          exact ⟨ty, [name], hpart, hkw⟩
      obtain ⟨rfl, -⟩ := List.cons.inj heq
      intro hparen
      have hlex := s.lexical.1
      rw [show s.next = t from hs.next] at hlex
      unfold Token.Lexical at hlex
      rw [hparen] at hlex
      rw [(svEq_iff _ _).mp hlex] at hne
      revert hne
      decide
    have hnext : s.next = t := hs.next
    rw [if_neg (by rw [hnext]; exact hparen), if_neg (by rw [hnext]; exact hvoid)]
    refine wp_mono (params_complete hr hparts hnil hsep hs hn) fun params' s' hs' => ?_
    exact ⟨hs'.1, by simpa using hs'.2⟩

/-- A function is read. -/
def ReadsFunction (ts : List Token) (f : Function) : Prop :=
  ∀ ⦃fuel : Nat⦄ ⦃s : Parser⦄ ⦃rest : List Token⦄ ⦃errors : ErrorContext⦄,
    At 0 errors (ts ++ rest) s → (ts ++ rest).length < fuel →
    wp Never (parseFunction fuel)
      (fun node s' => At 0 errors rest s' ∧ node.function? = some f) s

/-- The head of a function, up to the closing parenthesis. -/
theorem wp_functionHead {ty name l r : Token} {ps rest : List Token} {params : List Parameter}
    (hty : isTypeKeyword ty.text = true) (hname : name.type = .identifier)
    (hl : l.type = .lparen) (hparams : DerivesParams ps params) (hr : r.type = .rparen)
    {errors : ErrorContext} {s : Parser} {fuel : Nat}
    (hs : At 0 errors (ty :: name :: l :: (ps ++ r :: rest)) s)
    (hfuel : (ty :: name :: l :: (ps ++ r :: rest)).length < fuel)
    {Q : ASTNode → Parser → Prop}
    (hQ : ∀ s₁ s₂ : Parser, s₁.current = name → At 0 errors rest s₂ → wp Never (do
      let isPrototype ← matchToken .semicolon
      let body ← if isPrototype then pure .null else parseBlock (parseStatement fuel) fuel
      let addr ← newNode
      let s' ← get
      return .function ⟨addr, typeFromSv ty.text, s₁.current.line, s'.current.column⟩
        s₁.current.text (typeFromSv ty.text) params body isPrototype) Q s₂) :
    wp Never (parseFunction fuel) Q s := by
  unfold parseFunction
  rw [wp_bind]
  refine At.parseType hs hty ?_
  have hadvance := hs.advance
  simp only [wp_bind, wp_get]
  rw [if_neg (by simp [hadvance.panic])]
  obtain ⟨hname', hcurrent⟩ := hadvance.consume hname "expected function name."
  obtain ⟨hparen, -⟩ := hname'.consume hl "expected '(' after function name."
  have hlen : (ps ++ r :: rest).length < fuel := by
    simp only [List.length_cons] at hfuel
    omega
  simp only [wp_bind, wp_modify, wp_get]
  refine wp_mono (wp_parseParamList hparams hr hparen hlen) ?_
  rintro params' s' ⟨hs', rfl⟩
  exact (wp_bind _ _ _).mp (hQ _ _ hcurrent (hs'.consume hr _).1)

/-- Every derivation of a function is read. -/
theorem DerivesFunction.reads {ts : List Token} {f : Function} (h : DerivesFunction ts f) :
    ReadsFunction ts f := by
  intro fuel s rest errors hs hfuel
  cases h with
  | @prototype ty name l r semi ps params hty hname hl hparams hr hsemi =>
    have htokens : ty :: name :: l :: (ps ++ [r, semi]) ++ rest =
        ty :: name :: l :: (ps ++ r :: semi :: rest) := by simp
    rw [htokens] at hs hfuel
    refine wp_functionHead hty hname hl hparams hr hs hfuel fun s₁ s₂ hcurrent hs₂ => ?_
    rw [wp_bind]
    refine wp_matchToken_at hs₂ hsemi ?_
    simp only [if_true, wp_bind, wp_pure, wp_newNode, wp_get]
    refine ⟨hs₂.advance.newNode, ?_⟩
    simp [ASTNode.function?, hcurrent]
  | @definition ty name l r ps bs params body hty hname hl hparams hr hbody =>
    have htokens : ty :: name :: l :: (ps ++ r :: bs) ++ rest =
        ty :: name :: l :: (ps ++ r :: (bs ++ rest)) := by simp
    rw [htokens] at hs hfuel
    have hlen : (bs ++ rest).length < fuel := by
      simp only [List.length_cons, List.length_append] at hfuel ⊢
      omega
    refine wp_functionHead hty hname hl hparams hr hs hfuel fun s₁ s₂ hcurrent hs₂ => ?_
    generalize hst : Stmt.block body = st at hbody
    cases hbody with
    | @block l' r' parts hl' hr' hparts hcount =>
      cases hst
      have htokens' : l' :: (parts.flatMap (·.1) ++ [r']) ++ rest =
          l' :: (parts.flatMap (·.1) ++ r' :: rest) := by simp
      rw [htokens'] at hs₂ hlen
      have hlen' : (parts.flatMap (·.1) ++ r' :: rest).length < fuel := by
        simp only [List.length_cons] at hlen
        omega
      rw [wp_bind]
      refine wp_matchToken (fun hsemi => ?_) fun _ => ?_
      · rw [hs₂.next, hl'] at hsemi
        cases hsemi
      simp only [Bool.false_eq_true, if_false, wp_bind]
      refine wp_mono (wp_parseBlock hl' hr' hparts (fun p hp => (hparts p hp).reads) hcount hs₂
        hlen') fun node s₃ hs₃ => ?_
      simp only [wp_newNode, wp_get, wp_pure]
      exact ⟨hs₃.1.newNode, by simp [ASTNode.function?, hs₃.2.1, hcurrent]⟩
    | _ => cases hst

/-- A function starts with the name of a type. -/
theorem DerivesFunction.head {ts : List Token} {f : Function} (h : DerivesFunction ts f) :
    ∃ t us, ts = t :: us ∧ isTypeKeyword t.text = true := by
  cases h with
  | prototype hty hname hl hparams hr hsemi => exact ⟨_, _, rfl, hty⟩
  | definition hty hname hl hparams hr hbody => exact ⟨_, _, rfl, hty⟩

/-- The declarations of a file. -/
theorem declarations_complete {fuel : Nat} {errors : ErrorContext}
    {parts : List (List Token × Function)}
    (hparts : ∀ part ∈ parts, DerivesFunction part.1 part.2) {n : Nat} {s : Parser}
    {declarations : List ASTNode} {fs : List Function}
    (hs : At 0 errors (parts.flatMap (·.1)) s) (hfuel : (parts.flatMap (·.1)).length < fuel)
    (hn : (parts.flatMap (·.1)).length < n)
    (hfunctions : declarations.mapM ASTNode.function? = some fs)
    (hcount : declarations.length + parts.length ≤ maxFunctionCount) :
    wp Never (loop .outOfFuel (declarationTurn fuel) n declarations)
      (fun r s' => At 0 errors [] s' ∧ ∃ declarations', r = some declarations' ∧
        declarations'.mapM ASTNode.function? = some (fs ++ parts.map (·.2))) s := by
  induction parts generalizing n s declarations fs with
  | nil =>
    obtain ⟨n, rfl⟩ := Nat.exists_eq_succ_of_ne_zero (Nat.ne_zero_of_lt hn)
    refine wp_loop_succ (R := fun turn s' => turn = .leave (some declarations) ∧ s' = s) ?_ ?_ ?_
    · unfold declarationTurn
      simp only [wp_bind, wp_get]
      rw [if_pos (Parser.tokens_eq_nil.mp hs.tokens)]
      exact ⟨rfl, rfl⟩
    · rintro declarations' s' ⟨hturn, -⟩
      cases hturn
    · rintro r s' ⟨hturn, rfl⟩
      cases hturn
      exact ⟨hs, declarations, rfl, by simpa using hfunctions⟩
  | cons part parts ih =>
    obtain ⟨n, rfl⟩ := Nat.exists_eq_succ_of_ne_zero (Nat.ne_zero_of_lt hn)
    rw [List.flatMap_cons] at hs hfuel hn
    have hpart := hparts part (by simp)
    obtain ⟨t, us, hhead, hkw⟩ := hpart.head
    have hstart : At 0 errors (t :: (us ++ parts.flatMap (·.1))) s := by
      rw [hhead] at hs
      exact hs
    have hpos : 0 < part.1.length := by
      rw [hhead]
      exact Nat.succ_pos _
    simp only [List.length_cons] at hcount
    refine wp_loop_succ (R := fun turn s' => ∃ node, turn = .again (declarations ++ [node]) ∧
      node.function? = some part.2 ∧ At 0 errors (parts.flatMap (·.1)) s') ?_ ?_ ?_
    · unfold declarationTurn
      simp only [wp_bind, wp_get]
      rw [if_neg hstart.ne_eof, if_neg (by omega), if_pos (by rw [hstart.next]; exact hkw)]
      refine wp_seq (hpart.reads hs hfuel) fun node s' hs' => ?_
      exact ⟨node, rfl, hs'.2, hs'.1⟩
    · rintro declarations' s' ⟨node, hturn, hnode, hs'⟩
      cases hturn
      rw [List.length_append] at hfuel hn
      refine wp_mono (ih (fun p hp => hparts p (List.mem_cons_of_mem _ hp)) hs' (by omega)
        (by omega) (mapM_snoc hfunctions hnode) ?_) fun r s'' hs'' => ⟨hs''.1, ?_⟩
      · simp only [List.length_append, List.length_singleton]
        omega
      · obtain ⟨declarations'', rfl, hall⟩ := hs''.2
        exact ⟨declarations'', rfl, by rw [hall]; simp⟩
    · rintro r s' ⟨node, hturn, -⟩
      cases hturn

/-- A file that is well formed is parsed without an error, to its tree. -/
theorem DerivesUnit.reads {lexer : TokenStream} {u : TranslationUnit}
    (h : DerivesUnit lexer.proper u) (filename : String) (arena : Nat) (errors : ErrorContext) :
    ∃ node s', parserParse lexer filename arena errors = .ok (node, s') ∧
      node.unit? = some u ∧ s'.errors = errors := by
  have htokens := parserInit_tokens lexer filename arena errors
  have hs : At 0 errors lexer.proper (parserInit lexer filename arena errors) :=
    ⟨htokens, rfl, rfl, rfl⟩
  refine wp_total ?_
  show wp Never (parseUnit (lexer.proper.length + 1)) _ _
  generalize hts : lexer.proper = ts at h hs
  cases h with
  | @mk parts hparts hcount =>
    unfold parseUnit
    have hcount' : ([] : List ASTNode).length + parts.length ≤ maxFunctionCount := by
      simpa using hcount
    refine wp_seq (declarations_complete hparts hs (Nat.lt_succ_self _)
      (Nat.lt_succ_of_lt (Nat.lt_succ_self _)) rfl hcount') ?_
    rintro _ s' ⟨hs', declarations, rfl, hall⟩
    simp only [wp_bind, wp_newNode, wp_pure]
    exact ⟨by simpa [ASTNode.unit?] using hall, hs'.errors⟩

end TinyCompile.Parser
