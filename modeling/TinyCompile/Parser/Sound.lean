import TinyCompile.Parser.Terminates
import TinyCompile.Parser.Grammar

set_option autoImplicit false

/-!
# Parser: what is parsed without an error is well formed

Out of panic mode every deviation from the grammar records an error.  So where no error
is recorded, the tokens that were taken are those of the tree that is returned.
-/

namespace TinyCompile.Parser

open TinyCompile.Source TinyCompile.Logic

/-! ## Clean steps -/

/-- An error was recorded. -/
def Errs (s s' : Parser) : Prop := s.errors.nodes.length < s'.errors.nodes.length

/-- Nothing happened that a correct program does not cause. -/
structure Calm (s s' : Parser) : Prop where
  errors : s'.errors = s.errors
  panic : s'.panicMode = false
  overrun : s'.overrun = s.overrun

/-- The parser goes from one state to a later one; if it starts out of panic mode, it
records an error or takes tokens `ts` with `R ts`. -/
def Sound (s s' : Parser) (R : List Token → Prop) : Prop :=
  Later s s' ∧ (s.panicMode = false →
    Errs s s' ∨ Calm s s' ∧ ∃ ts, s.tokens = ts ++ s'.tokens ∧ R ts)

section

variable {s s' s'' : Parser} {R R' R'' : List Token → Prop}

theorem Errs.later (h : Errs s s') (h' : Later s' s'') : Errs s s'' :=
  Nat.lt_of_lt_of_le h h'.errors.kept.length_le

theorem Calm.trans (h : Calm s s') (h' : Calm s' s'') : Calm s s'' :=
  ⟨h'.errors.trans h.errors, h'.panic, h'.overrun.trans h.overrun⟩

theorem Sound.mono (h : Sound s s' R) (hR : ∀ ts, R ts → R' ts) : Sound s s' R' := by
  refine ⟨h.1, fun hpanic => ?_⟩
  rcases h.2 hpanic with herr | ⟨hcalm, ts, htokens, hts⟩
  · exact .inl herr
  · exact .inr ⟨hcalm, ts, htokens, hR ts hts⟩

/-- Taking no token. -/
theorem Sound.refl (h : R []) : Sound s s R :=
  ⟨.refl s, fun hpanic => .inr ⟨⟨rfl, hpanic, rfl⟩, [], rfl, h⟩⟩

/-- One step after the other. -/
theorem Sound.trans (h : Sound s s' R) (h' : Sound s' s'' R')
    (hR : ∀ ts ts', R ts → R' ts' → R'' (ts ++ ts')) : Sound s s'' R'' := by
  refine ⟨h.1.trans h'.1, fun hpanic => ?_⟩
  rcases h.2 hpanic with herr | ⟨hcalm, ts, htokens, hts⟩
  · exact .inl (herr.later h'.1)
  · rcases h'.2 hcalm.panic with herr | ⟨hcalm', ts', htokens', hts'⟩
    · refine .inl ?_
      unfold Errs at herr ⊢
      rwa [hcalm.errors] at herr
    · refine .inr ⟨hcalm.trans hcalm', ts ++ ts', ?_, hR ts ts' hts hts'⟩
      rw [htokens, htokens', List.append_assoc]

theorem Sound.append (h : Sound s s' R) (h' : Sound s' s'' R') :
    Sound s s'' (fun ts => ∃ us us', ts = us ++ us' ∧ R us ∧ R' us') :=
  h.trans h' fun us us' hus hus' => ⟨us, us', rfl, hus, hus'⟩

/-- Behind a step that cannot be clean anything may follow. -/
theorem Sound.absurd (h : Sound s s' R) (hR : ∀ ts, ¬ R ts) (h' : Later s' s'') :
    Sound s s'' R' := by
  refine ⟨h.1.trans h', fun hpanic => ?_⟩
  rcases h.2 hpanic with herr | ⟨-, ts, -, hts⟩
  · exact .inl (herr.later h')
  · exact (hR ts hts).elim

/-- A step that changes nothing a later step looks at. -/
theorem Sound.step (h : Sound s s' R) (hlater : Later s' s'') (hcalm : s'.panicMode = false →
    Calm s' s'') (htokens : s''.tokens = s'.tokens) : Sound s s'' R := by
  have hstay : Sound s' s'' (fun ts => ts = []) :=
    ⟨hlater, fun hpanic => .inr ⟨hcalm hpanic, [], by rw [htokens, List.nil_append], rfl⟩⟩
  refine h.trans hstay ?_
  rintro ts _ hts rfl
  rwa [List.append_nil]

theorem Sound.newNode (h : Sound s s' R) : Sound s { s' with arena := s'.arena + 1 } R :=
  h.step (later_newNode s') (fun hpanic => ⟨rfl, hpanic, rfl⟩) rfl

end

/-! ## The utilities -/

theorem parserAdvance_sound {s : Parser} (h : s.next.type ≠ .eof) :
    Sound s (parserAdvance s) (fun ts => ts = [s.next]) :=
  ⟨parserAdvance_later s, fun hpanic =>
    .inr ⟨⟨rfl, hpanic, rfl⟩, [s.next], Parser.tokens_of_ne h, rfl⟩⟩

theorem parserError_sound (s : Parser) (message : String) :
    Sound s (parserError s message) (fun _ => False) :=
  ⟨parserError_later s message, fun hpanic => .inl (parserError_records hpanic message)⟩

/-- `parser_consume` takes the token it is told to, or records an error. -/
theorem parserConsume_sound (s : Parser) (type : TokenType) (message : String)
    (hne : type ≠ .eof) :
    Sound s (parserConsume s type message) (fun ts => ∃ t, ts = [t] ∧ t.type = type ∧
      (parserConsume s type message).current = t) := by
  have hlater := parserConsume_later s type message
  refine ⟨hlater, fun hpanic => ?_⟩
  unfold parserConsume at hlater ⊢
  by_cases htype : s.next.type = type
  · rw [if_pos htype]
    have hne' : s.next.type ≠ .eof := by
      rw [htype]
      exact hne
    have htokens := Parser.tokens_of_ne hne'
    exact .inr ⟨⟨rfl, rfl, rfl⟩, [s.next], htokens, s.next, rfl, htype, rfl⟩
  · rw [if_neg htype]
    exact .inl (Errs.later (parserError_records hpanic _) (parserSynchronize_later _))

/-- An `if` on a token: it is taken, or it is not there. -/
theorem wp_matchToken_sound {s : Parser} {type : TokenType} (hne : type ≠ .eof)
    {Q : Bool → Parser → Prop}
    (hyes : ∀ s', s.next.type = type → Sound s s' (fun ts => ∃ t, ts = [t] ∧ t.type = type) →
      Q true s')
    (hno : s.next.type ≠ type → Q false s) : wp OnlyNull (matchToken type) Q s := by
  refine wp_matchToken (fun htype => hyes _ htype ?_) hno
  refine (parserAdvance_sound (by rw [htype]; exact hne)).mono ?_
  rintro ts rfl
  exact ⟨s.next, rfl, htype⟩

theorem parseType_sound (s : Parser) :
    wp OnlyNull parseType (fun type s' => Sound s s' (fun ts => ∃ t, ts = [t] ∧ t = s.next ∧
      isTypeKeyword t.text = true ∧ type = typeFromSv t.text)) s := by
  refine wp_parseType (fun hkw => ?_) fun _ message => ?_
  · -- the end of the file has no text
    have hne : s.next.type ≠ .eof := by
      intro heof
      have htext : s.next.text = [] := by
        simpa [Token.Lexical, heof, spells] using s.lexical.1
      rw [htext] at hkw
      exact absurd hkw (by decide)
    refine (parserAdvance_sound hne).mono ?_
    rintro ts rfl
    exact ⟨s.next, rfl, rfl, hkw, rfl⟩
  · exact (parserError_sound s message).mono fun _ h => h.elim

/-- A loop that keeps a sound invariant. -/
theorem wp_loop_sound {β γ : Type} {turn : β → ParseM (Turn β γ)} {n : Nat} {b : β}
    {s : Parser} (inv : β → Parser → Prop) (Q : γ → Parser → Prop)
    (hends : ∀ b s', inv b s' → TurnEnds (turn b) s')
    (hturn : ∀ b s', inv b s' → wp OnlyNull (turn b) (fun r s'' =>
      match r with
      | .again b' => inv b' s''
      | .leave c => Q c s'') s')
    (hinv : inv b s) (hn : s.tokens.length < n) :
    wp OnlyNull (loop .outOfFuel turn n b) Q s := by
  refine wp_loop inv (fun s' => s'.tokens.length) (fun b s' h => ?_) hinv hn
  refine wp_mono (wp_and (hturn b s' h) (hends b s' h)) fun r s'' hr => ?_
  cases r with
  | again b' => exact ⟨hr.1, hr.2.2 b' rfl⟩
  | leave c => exact hr.1

/-! ## Expressions -/

/-- What an expression parser yields: a tree for the tokens it took, which stand in front
of a token that does not bind stronger than `p`. -/
def ExprYields (s : Parser) (p : Precedence) (node : ASTNode) (s' : Parser)
    (ts : List Token) : Prop :=
  ∃ e, node.expr? = some e ∧ DerivesExpr (maxExpressionDepth - s.exprDepth) p.rank ts e ∧
    s'.next.rank ≤ p.rank

/-- The calls of `parse_expression` are sound with `n` to spare. -/
def ExprSound (n : Nat) (expr : Precedence → ParseM ASTNode) : Prop :=
  ∀ p s, s.tokens.length < n →
    wp OnlyNull (expr p) (fun node s' => Sound s s' (ExprYields s p node s')) s

/-- The left operand so far: every operator outside parentheses binds stronger than `b`,
and the next token not stronger than one more. -/
def LeftYields (d : Nat) (p : Precedence) (left : ASTNode) (s' : Parser) (ts : List Token) :
    Prop :=
  ∃ e b, left.expr? = some e ∧ DerivesExpr (d + 1) b ts e ∧ p.rank ≤ b ∧ s'.next.rank ≤ b + 1

/-- The operand and the loop of `parse_expression` run one deeper. -/
def Inner (d : Nat) (s : Parser) : Prop := maxExpressionDepth - s.exprDepth = d

section

variable {n d : Nat} {expr : Precedence → ParseM ASTNode} {s : Parser} {p : Precedence}

theorem Inner.later {s' : Parser} (h : Inner d s) (h' : Later s s') : Inner d s' := by
  unfold Inner at h ⊢
  rwa [h'.depth]

/-- An operand that does not depend on the binding strength. -/
theorem leftYields_operand {left : ASTNode} {e : Expr} {ts : List Token} {s' : Parser}
    (hleft : left.expr? = some e) (hts : ∀ b, DerivesExpr (d + 1) b ts e) :
    LeftYields d p left s' ts := by
  refine ⟨e, max p.rank Precedence.unary.rank, hleft, hts _, Nat.le_max_left _ _, ?_⟩
  have := rank_le s'.next.type
  have hmax := Nat.le_max_right p.rank Precedence.unary.rank
  simp only [Token.rank, Precedence.rank] at *
  omega

/-- The token types of the functions that parse operands. -/
theorem type_of_prefixFn {type : TokenType} {fn : PrefixFn}
    (h : (rules type).prefixFn = some fn) :
    (fn = .parseNumber → type = .number) ∧ (fn = .parseIdentifier → type = .identifier) ∧
      (fn = .parseGrouping → type = .lparen) ∧
      (fn = .parseUnary → ∃ op, unaryOp type = some op) := by
  cases type <;> cases h <;> simp [unaryOp]

/-- The token types of the functions that go on behind an operand. -/
theorem type_of_infixFn {type : TokenType} {fn : InfixFn} (h : (rules type).infixFn = some fn) :
    (fn = .parseAssignment → type = .equal) ∧ (fn = .parseCall → type = .lparen) ∧
      (fn = .parseBinary → ∃ op, binaryOp type = some op) := by
  cases type <;> cases h <;> simp [binaryOp]

theorem parseUnary_sound (hexpr : ExprSound n expr) (hinner : Inner d s)
    (hs : s.tokens.length < n) {op : UnaryOp} (hop : unaryOp s.current.type = some op) :
    wp OnlyNull (parseUnary expr) (fun left s' => Sound s s' (fun ts =>
      LeftYields d p left s' (s.current :: ts))) s := by
  unfold parseUnary
  simp only [wp_bind, wp_get, wp_newNode, hop]
  have hnew : Sound s { s with arena := s.arena + 1 } (fun ts => ts = []) :=
    Sound.newNode (.refl rfl)
  refine wp_mono (hexpr .unary _ hs) fun operand s' hs' => ?_
  refine hnew.trans hs' ?_
  rintro _ ts rfl ⟨e, he, hts, hnext⟩
  have hts' : DerivesExpr d Precedence.unary.rank ts e := by
    rw [← hinner]
    exact hts
  refine ⟨.unary op e, max p.rank Precedence.unary.rank, by simp [ASTNode.expr?, he],
    .unary hop hts', Nat.le_max_left _ _, ?_⟩
  have hmax := Nat.le_max_right p.rank Precedence.unary.rank
  omega

theorem parseGrouping_sound (hexpr : ExprSound n expr) (hinner : Inner d s)
    (hs : s.tokens.length < n) (hparen : s.current.type = .lparen) :
    wp OnlyNull (parseGrouping expr) (fun left s' => Sound s s' (fun ts =>
      LeftYields d p left s' (s.current :: ts))) s := by
  unfold parseGrouping
  refine wp_seq (hexpr .none s hs) fun node s' hs' => ?_
  simp only [wp_bind, wp_modify, wp_pure]
  refine hs'.trans (parserConsume_sound s' _ _ (by decide)) ?_
  rintro ts _ ⟨e, he, hts, -⟩ ⟨r, rfl, hr, -⟩
  rw [hinner] at hts
  exact leftYields_operand he fun b => .grouping hparen hr hts

/-- The operand of an expression. -/
theorem callPrefix_sound (hexpr : ExprSound n expr) (hinner : Inner d s)
    (hs : s.tokens.length < n) {fn : PrefixFn}
    (hfn : (rules s.current.type).prefixFn = some fn) :
    wp OnlyNull (callPrefix expr fn) (fun left s' => Sound s s' (fun ts =>
      LeftYields d p left s' (s.current :: ts))) s := by
  have hnew : Sound s { s with arena := s.arena + 1 } (fun ts => ts = []) :=
    Sound.newNode (.refl rfl)
  obtain ⟨hnumber, hidentifier, hgrouping, hunary⟩ := type_of_prefixFn hfn
  cases fn with
  | parseNumber =>
    refine hnew.mono ?_
    rintro _ rfl
    exact leftYields_operand rfl fun b => .number (hnumber rfl)
  | parseIdentifier =>
    refine hnew.mono ?_
    rintro _ rfl
    exact leftYields_operand rfl fun b => .identifier (hidentifier rfl)
  | parseUnary =>
    obtain ⟨op, hop⟩ := hunary rfl
    exact parseUnary_sound hexpr hinner hs hop
  | parseGrouping => exact parseGrouping_sound hexpr hinner hs (hgrouping rfl)

/-! ### Behind an operand -/

/-- What is left of a binding strength just above `b` can stand as an operand. -/
def OperandYields (d : Nat) (left : ASTNode) (op : Token) (ts : List Token) : Prop :=
  ∃ e b, left.expr? = some e ∧ DerivesExpr (d + 1) b ts e ∧ op.rank ≤ b + 1

/-- A step behind the operand `left` and the operator token, which has been taken. -/
def InfixSound (d : Nat) (p : Precedence) (left : ASTNode) (s : Parser)
    (left' : ASTNode) (s' : Parser) : Prop :=
  Sound s s' (fun us => ∀ ts, OperandYields d left s.current ts →
    LeftYields d p left' s' (ts ++ s.current :: us))

theorem parseBinary_sound (hexpr : ExprSound n expr) (hinner : Inner d s)
    (hs : s.tokens.length < n) {op : BinaryOp} (hop : binaryOp s.current.type = some op)
    (hp : p.rank < s.current.rank) (left : ASTNode) :
    wp OnlyNull (parseBinary expr left) (InfixSound d p left s) s := by
  unfold parseBinary
  simp only [wp_bind, wp_get, wp_newNode, hop]
  have hnew : Sound s { s with arena := s.arena + 1 } (fun ts => ts = []) :=
    Sound.newNode (.refl rfl)
  refine wp_mono (hexpr _ _ hs) fun right s' hs' => ?_
  refine hnew.trans hs' ?_
  rintro _ us rfl ⟨r, hr, hus, hnext⟩ ts ⟨e, b, he, hts, hb⟩
  have hright : DerivesExpr d s.current.rank us r := by
    rw [← hinner]
    exact hus
  have hnext' : s'.next.rank ≤ s.current.rank := hnext
  refine ⟨.binary op e r, s.current.rank - 1, by simp [ASTNode.expr?, he, hr],
    .binary hop (by omega) (hts.weaken (by omega)) hright, by omega, by omega⟩

theorem parseAssignment_sound (hexpr : ExprSound n expr) (hinner : Inner d s)
    (hs : s.tokens.length < n) (hequal : s.current.type = .equal)
    (hp : p.rank < s.current.rank) (left : ASTNode) :
    wp OnlyNull (parseAssignment expr left) (InfixSound d p left s) s := by
  have hrank : s.current.rank = Precedence.assignment.rank := by
    unfold Token.rank
    rw [hequal]
    rfl
  rw [hrank] at hp
  cases left with
  | null => exact rfl
  | identifier info name =>
    unfold parseAssignment
    simp only [wp_bind, wp_newNode]
    have hnew : Sound s { s with arena := s.arena + 1 } (fun ts => ts = []) :=
      Sound.newNode (.refl rfl)
    refine wp_mono (hexpr .assignment _ hs) fun value s' hs' => ?_
    refine hnew.trans hs' ?_
    rintro _ us rfl ⟨v, hv, hus, hnext⟩ ts ⟨e, b, he, hts, -⟩
    obtain rfl : .identifier name = e := Option.some.inj he
    have hvalue : DerivesExpr d Precedence.assignment.rank us v := by
      rw [← hinner]
      exact hus
    have hpos : Precedence.assignment.rank = 1 := rfl
    refine ⟨.assignment name v, 0, by simp [ASTNode.expr?, hv],
      .assignment hequal (by omega) hts hvalue, by omega, by omega⟩
  | _ => exact (parserError_sound s _).mono fun _ h => h.elim

/-- Elements that have been taken with a comma behind each. -/
def ListSoFar {β : Type} (W : List Token → β → Prop) (bs : List β) (ts : List Token) : Prop :=
  bs = [] ∧ ts = [] ∨ ∃ (parts : List (List Token × β)) (us : List Token) (c : Token),
    parts.map (·.2) = bs ∧ parts ≠ [] ∧
    (∀ part ∈ parts, W part.1 part.2) ∧ Separated (parts.map (·.1)) us ∧ c.type = .comma ∧
    ts = us ++ [c]

/-- Elements that have been taken with commas in between. -/
def ListDone {β : Type} (W : List Token → β → Prop) (bs : List β) (ts : List Token) : Prop :=
  ∃ parts : List (List Token × β), parts.map (·.2) = bs ∧ parts ≠ [] ∧
    (∀ part ∈ parts, W part.1 part.2) ∧ Separated (parts.map (·.1)) ts

theorem ListSoFar.done {β : Type} {W : List Token → β → Prop} {bs : List β} {b : β}
    {ts us : List Token} (h : ListSoFar W bs ts) (hb : W us b) :
    ListDone W (bs ++ [b]) (ts ++ us) := by
  rcases h with ⟨rfl, rfl⟩ | ⟨parts, us', c, rfl, hne, hparts, hsep, hcomma, rfl⟩
  · exact ⟨[(us, b)], rfl, by simp, by simpa using hb, .one us⟩
  · refine ⟨parts ++ [(us, b)], by simp, by simp, ?_, ?_⟩
    · intro part hpart
      rcases List.mem_append.mp hpart with hpart | hpart
      · exact hparts part hpart
      · rw [List.mem_singleton.mp hpart]
        exact hb
    · rw [List.map_append, List.append_assoc]
      exact hsep.snoc (by simpa using hne) hcomma

theorem ListDone.comma {β : Type} {W : List Token → β → Prop} {bs : List β}
    {ts : List Token} {c : Token} (h : ListDone W bs ts) (hcomma : c.type = .comma) :
    ListSoFar W bs (ts ++ [c]) := by
  obtain ⟨parts, hbs, hne, hparts, hsep⟩ := h
  exact .inr ⟨parts, ts, c, hbs, hne, hparts, hsep, hcomma, rfl⟩

/-- The tokens of an argument. -/
def WritesArg (d : Nat) (ts : List Token) (e : Expr) : Prop :=
  DerivesExpr d Precedence.assignment.rank ts e

/-- The tree list `args` stands for `es`, within the limit. -/
def ArgsAre (args : List ASTNode) (es : List Expr) : Prop :=
  exprs? args = some es ∧ es.length = args.length

theorem argTurn_sound (hexpr : ExprSound n expr) (hinner : Inner d s)
    (hs : s.tokens.length < n) (args : List ASTNode) :
    wp OnlyNull (argTurn expr args) (fun r s' =>
      match r with
      | .again args' => Sound s s' (fun us => ∀ es ts, ArgsAre args es →
          ListSoFar (WritesArg d) es ts →
            ∃ es', ArgsAre args' es' ∧ ListSoFar (WritesArg d) es' (ts ++ us))
      | .leave args' => Sound s s' (fun us => ∀ es ts, ArgsAre args es →
          ListSoFar (WritesArg d) es ts →
            ∃ es', ArgsAre args' es' ∧ es'.length ≤ maxParamsPerFunction ∧
              ListDone (WritesArg d) es' (ts ++ us))) s := by
  unfold argTurn
  refine wp_ite (fun _ => ?_) fun hroom => ?_
  · simp only [wp_bind, wp_modify, wp_pure]
    exact (parserError_sound s _).absurd (fun _ h => h) (parserSynchronize_later _)
  · refine wp_seq (hexpr .assignment s hs) fun arg s' hs' => ?_
    refine wp_ite (fun hnull => ?_) fun _ => ?_
    · -- a missing argument has been reported
      simp only [wp_bind, wp_modify, wp_pure]
      refine hs'.absurd ?_ (parserSynchronize_later _)
      rintro ts ⟨e, he, -⟩
      rw [arg.isNull_of_expr? he] at hnull
      cases hnull
    · have hmore : ∀ us, ExprYields s .assignment arg s' us → ∀ es ts, ArgsAre args es →
          ListSoFar (WritesArg d) es ts →
          ∃ es', ArgsAre (args ++ [arg]) es' ∧ es'.length ≤ maxParamsPerFunction ∧
            ListDone (WritesArg d) es' (ts ++ us) := by
        rintro us ⟨e, he, hus, -⟩ es ts ⟨hes, hlen⟩ hts
        rw [hinner] at hus
        refine ⟨es ++ [e], ⟨?_, by simp [hlen]⟩, ?_, hts.done hus⟩
        · rw [exprs?_eq] at hes ⊢
          exact mapM_snoc hes he
        · rw [List.length_append, hlen, List.length_singleton]
          omega
      rw [wp_bind]
      refine wp_matchToken_sound (by decide) (fun s'' _ hs'' => ?_) fun _ => ?_
      · refine hs'.trans hs'' ?_
        rintro us _ hus ⟨c, rfl, hcomma⟩ es ts hes hts
        obtain ⟨es', hes', -, hdone⟩ := hmore us hus es ts hes hts
        refine ⟨es', hes', ?_⟩
        rw [← List.append_assoc]
        exact hdone.comma hcomma
      · exact hs'.mono hmore

theorem parseCall_sound (hends : ExprEnds n expr) (hexpr : ExprSound n expr)
    (hinner : Inner d s) (hs : s.tokens.length < n) (hparen : s.current.type = .lparen)
    (hp : p.rank < s.current.rank) (left : ASTNode) :
    wp OnlyNull (parseCall expr n left) (InfixSound d p left s) s := by
  have hrank : s.current.rank = Precedence.call.rank := by
    unfold Token.rank
    rw [hparen]
    rfl
  rw [hrank] at hp
  cases left with
  | null => exact rfl
  | identifier info name =>
    unfold parseCall
    simp only [wp_bind, wp_newNode, wp_get]
    have hnew : Sound s { s with arena := s.arena + 1 } (fun ts => ts = []) :=
      Sound.newNode (.refl rfl)
    -- whatever the arguments were, the closing parenthesis follows
    have hclose : ∀ args s', Sound s s' (fun as => ∃ es : List (List Token × Expr),
        exprs? args = some (es.map (·.2)) ∧ es.length ≤ maxParamsPerFunction ∧
          (∀ e ∈ es, WritesArg d e.1 e.2) ∧ Separated (es.map (·.1)) as) →
        InfixSound d p (.identifier info name) s
          (.call ⟨s.arena, .void, info.line, info.column⟩ name args)
          (parserConsume s' .rparen "Expected ')' after arguments") := by
      intro args s' hs'
      refine hs'.trans (parserConsume_sound s' _ _ (by decide)) ?_
      rintro as _ ⟨es, hes, hcount, hargs, hsep⟩ ⟨r, rfl, hr, -⟩ ts ⟨e, b, he, hts, -⟩
      obtain rfl : .identifier name = e := Option.some.inj he
      have hcall : Precedence.call.rank = 13 := rfl
      have hnext := rank_le
        (parserConsume s' .rparen "Expected ')' after arguments").next.type
      refine ⟨.call name (es.map (·.2)), 12, by simp [ASTNode.expr?, hes],
        .call hparen hr (by omega) hts hargs hcount hsep, by omega, ?_⟩
      exact hnext
    split
    · simp only [wp_bind, wp_pure, wp_modify]
      refine hclose [] _ (hnew.mono ?_)
      rintro _ rfl
      exact ⟨[], rfl, Nat.zero_le _, List.forall_mem_nil _, .nil⟩
    · refine wp_seq (wp_loop_sound
        (fun args s' => Sound s s' (fun as =>
          ∃ es, ArgsAre args es ∧ ListSoFar (WritesArg d) es as))
        (fun args s' => Sound s s' (fun as =>
          ∃ es, ArgsAre args es ∧ es.length ≤ maxParamsPerFunction ∧
            ListDone (WritesArg d) es as))
        (fun args s' hinv => ?_) (fun args s' hinv => ?_) ?_ hs) fun args s' hs' => ?_
      · exact argTurn_ends hends (Nat.lt_of_le_of_lt hinv.1.length_le hs) args
      · refine wp_mono (argTurn_sound hexpr (hinner.later hinv.1)
          (Nat.lt_of_le_of_lt hinv.1.length_le hs) args) fun r s'' hr => ?_
        cases r with
        | again args' =>
          refine hinv.trans hr ?_
          rintro ts us ⟨es, hes, hts⟩ hus
          exact hus es ts hes hts
        | leave args' =>
          refine hinv.trans hr ?_
          rintro ts us ⟨es, hes, hts⟩ hus
          exact hus es ts hes hts
      · refine hnew.mono ?_
        rintro _ rfl
        exact ⟨[], ⟨rfl, rfl⟩, .inl ⟨rfl, rfl⟩⟩
      · simp only [wp_bind, wp_modify, wp_pure]
        refine hclose args s' (hs'.mono ?_)
        rintro as ⟨es, hes, hcount, parts, rfl, -, hparts, hsep⟩
        exact ⟨parts, hes.1, by simpa using hcount, hparts, hsep⟩
  | _ => exact (parserError_sound s _).mono fun _ h => h.elim

theorem callInfix_sound (hends : ExprEnds n expr) (hexpr : ExprSound n expr)
    (hinner : Inner d s) (hs : s.tokens.length < n) {fn : InfixFn}
    (hfn : (rules s.current.type).infixFn = some fn) (hp : p.rank < s.current.rank)
    (left : ASTNode) : wp OnlyNull (callInfix expr n left fn) (InfixSound d p left s) s := by
  obtain ⟨hequal, hparen, hbinary⟩ := type_of_infixFn hfn
  cases fn with
  | parseBinary =>
    obtain ⟨op, hop⟩ := hbinary rfl
    exact parseBinary_sound hexpr hinner hs hop hp left
  | parseAssignment => exact parseAssignment_sound hexpr hinner hs (hequal rfl) hp left
  | parseCall => exact parseCall_sound hends hexpr hinner hs (hparen rfl) hp left

/-- What binds at all goes on behind an operand. -/
theorem infixFn_of_rank {type : TokenType} (h : 0 < (getTokenPrecedence type).rank) :
    ∃ fn, (rules type).infixFn = some fn := by
  cases type <;> first
    | exact ⟨_, rfl⟩
    | cases h

/-- A turn of the loop extends the operand, or the next token ends the expression. -/
theorem infixTurn_sound (hends : ExprEnds n expr) (hexpr : ExprSound n expr)
    (hinner : Inner d s) (hs : s.tokens.length < n) (left : ASTNode) :
    wp OnlyNull (infixTurn expr n p left) (fun r s' =>
      match r with
      | .again left' => Sound s s' (fun us => ∀ ts, LeftYields d p left s ts →
          LeftYields d p left' s' (ts ++ us))
      | .leave left' => left' = left ∧ s' = s ∧ s.next.rank ≤ p.rank) s := by
  unfold infixTurn
  simp only [wp_bind, wp_get]
  refine wp_ite (fun hprec => ?_) fun hprec => ?_
  · obtain ⟨fn, hfn⟩ := infixFn_of_rank (Nat.lt_of_le_of_lt (Nat.zero_le _) hprec)
    have hne : s.next.type ≠ .eof := by
      intro heof
      rw [heof] at hfn
      cases hfn
    have hlater := parserAdvance_later s
    simp only [wp_bind, wp_set, hfn]
    refine wp_mono (callInfix_sound (s := parserAdvance s) hends hexpr (hinner.later hlater)
      (Nat.lt_of_le_of_lt hlater.length_le hs) hfn hprec left) fun left' s' hs' => ?_
    refine (parserAdvance_sound hne).trans hs' ?_
    rintro _ us rfl hus ts ⟨e, b, he, hts, -, hb⟩
    exact hus ts ⟨e, b, he, hts, hb⟩
  · exact ⟨rfl, rfl, Nat.le_of_not_lt hprec⟩

end

/-- Between `expr_depth++` and `expr_depth--`, with the first token of the expression. -/
theorem Sound.leaveExpression {s s' : Parser} {h : s.exprDepth < maxExpressionDepth}
    {R : List Token → Prop} (hne : s.next.type ≠ .eof)
    (hs' : Sound (parserAdvance (s.enterExpression h)) s' (fun ts => R (s.next :: ts))) :
    Sound s s'.leaveExpression R := by
  refine ⟨later_leaveExpression hs'.1, fun hpanic => ?_⟩
  rcases hs'.2 hpanic with herr | ⟨hcalm, ts, htokens, hts⟩
  · exact .inl herr
  · refine .inr ⟨⟨hcalm.errors, hcalm.panic, hcalm.overrun⟩, s.next :: ts, ?_, hts⟩
    have hfirst : s.tokens = s.next :: (parserAdvance (s.enterExpression h)).tokens :=
      Parser.tokens_of_ne (s := s.enterExpression h) hne
    rw [hfirst, htokens]
    rfl

/-- Every call of `parse_expression` is sound. -/
theorem parseExpression_sound (fuel : Nat) : ExprSound fuel (parseExpression fuel) := by
  induction fuel with
  | zero => exact fun p s hs => absurd hs (Nat.not_lt_zero _)
  | succ fuel ih =>
    intro p s hs
    unfold parseExpression
    simp only [wp_bind, wp_get]
    split
    · rename_i hdepth
      simp only [wp_bind, wp_set]
      split
      · rename_i fn hfn
        have hne : s.next.type ≠ .eof := by
          intro heof
          rw [heof] at hfn
          cases hfn
        have hlt : (parserAdvance (s.enterExpression hdepth)).tokens.length < fuel := by
          have htakes : Takes s (parserAdvance (s.enterExpression hdepth)) :=
            parserAdvance_takes (s.enterExpression hdepth)
          have := htakes.lt hne
          omega
        obtain ⟨d, hd⟩ : ∃ d, maxExpressionDepth - s.exprDepth = d + 1 :=
          ⟨maxExpressionDepth - s.exprDepth - 1, by omega⟩
        have hinner : Inner d (parserAdvance (s.enterExpression hdepth)) := by
          show maxExpressionDepth - (s.exprDepth + 1) = d
          omega
        refine wp_seq (callPrefix_sound (p := p) ih hinner hlt hfn) fun left s₁ hs₁ => ?_
        refine wp_seq (wp_loop_sound
          (fun left' s' => Sound (parserAdvance (s.enterExpression hdepth)) s' (fun ts =>
            LeftYields d p left' s' (s.next :: ts)))
          (fun left' s' => Sound (parserAdvance (s.enterExpression hdepth)) s' (fun ts =>
            ExprYields s p left' s' (s.next :: ts)))
          (fun left' s' hinv => ?_) (fun left' s' hinv => ?_) hs₁
          (Nat.lt_of_le_of_lt hs₁.1.length_le hlt)) fun left' s₂ hs₂ => ?_
        · exact infixTurn_ends (parseExpression_ends fuel)
            (Nat.lt_of_le_of_lt hinv.1.length_le hlt) p left'
        · refine wp_mono (infixTurn_sound (parseExpression_ends fuel) ih (hinner.later hinv.1)
            (Nat.lt_of_le_of_lt hinv.1.length_le hlt) left') fun r s'' hr => ?_
          cases r with
          | again left'' =>
            refine hinv.trans hr ?_
            rintro ts us hts hus
            exact hus (s.next :: ts) hts
          | leave left'' =>
            obtain ⟨rfl, rfl, hnext⟩ := hr
            refine hinv.mono ?_
            rintro ts ⟨e, b, he, hts, hb, -⟩
            refine ⟨e, he, ?_, hnext⟩
            rw [hd]
            exact hts.weaken hb
        · simp only [wp_bind, wp_modify, wp_pure]
          exact hs₂.leaveExpression hne
      · simp only [wp_bind, wp_modify, wp_pure]
        have herror := parserError_sound (parserAdvance (s.enterExpression hdepth))
          "Expect expression"
        refine ⟨later_leaveExpression herror.1, fun hpanic => ?_⟩
        rcases herror.2 hpanic with herr | ⟨-, -, -, h⟩
        · exact .inl herr
        · exact h.elim
    · simp only [wp_bind, wp_set, wp_pure]
      exact (parserError_sound s _).mono fun _ h => h.elim

/-! ## Statements -/

/-- What a statement parser yields. -/
def StmtYields (node : ASTNode) (s' : Parser) (ts : List Token) : Prop :=
  ∃ st, node.stmt? = some st ∧ DerivesStmt ts st ∧ (openIf st = true → s'.next.type ≠ .elseKw)

/-- The calls of `parse_statement` are sound with `n` to spare. -/
def StmtSound (n : Nat) (stmt : ParseM ASTNode) : Prop :=
  ∀ s, s.tokens.length < n → s.exprDepth = 0 →
    wp OnlyNull stmt (fun node s' => Sound s s' (StmtYields node s')) s

/-- A whole expression. -/
theorem ExprSound.whole {n : Nat} {expr : Precedence → ParseM ASTNode} {s : Parser}
    (h : ExprSound n expr) (hs : s.tokens.length < n) (hdepth : s.exprDepth = 0) :
    wp OnlyNull (expr .none) (fun node s' => Sound s s' (fun ts =>
      ∃ e, node.expr? = some e ∧ WritesExpr ts e)) s := by
  refine wp_mono (h .none s hs) fun node s' hs' => hs'.mono ?_
  rintro ts ⟨e, he, hts, -⟩
  rw [hdepth] at hts
  exact ⟨e, he, hts⟩

section

variable {n : Nat} {expr : Precedence → ParseM ASTNode} {stmt : ParseM ASTNode} {s : Parser}

/-- The end of a statement that ends in a semicolon and stands in a node of its own. -/
theorem Sound.semicolon {s s' : Parser} {node : ASTNode} {R : List Token → Prop}
    (hs' : Sound s s' R)
    (hnode : ∀ ts semi, R ts → semi.type = .semicolon →
      ∃ st, node.stmt? = some st ∧ DerivesStmt (ts ++ [semi]) st ∧ openIf st = false) :
    Sound s { parserConsume s' .semicolon "expected ';'" with
      arena := (parserConsume s' .semicolon "expected ';'").arena + 1 }
      (StmtYields node { parserConsume s' .semicolon "expected ';'" with
        arena := (parserConsume s' .semicolon "expected ';'").arena + 1 }) := by
  refine Sound.newNode (hs'.trans (parserConsume_sound s' _ _ (by decide)) ?_)
  rintro ts _ hts ⟨semi, rfl, hsemi, -⟩
  obtain ⟨st, hst, hderives, hclosed⟩ := hnode ts semi hts hsemi
  refine ⟨st, hst, hderives, fun hopen => ?_⟩
  rw [hclosed] at hopen
  cases hopen

theorem parseVarDecl_sound (hexpr : ExprSound n expr) (hs : s.tokens.length < n)
    (hdepth : s.exprDepth = 0) (hfn : (rules s.next.type).stmtFn = some .parseVarDecl) :
    wp OnlyNull (parseVarDecl expr) (fun node s' => Sound s s' (StmtYields node s')) s := by
  unfold parseVarDecl
  refine wp_seq (parseType_sound s) fun varType s₁ hs₁ => ?_
  simp only [wp_bind, wp_get]
  refine wp_ite (fun hpanic => ?_) fun hpanic => ?_
  · -- in panic mode an error has been recorded
    refine ⟨hs₁.1, fun hcalm => ?_⟩
    rcases hs₁.2 hcalm with herr | ⟨hcalm₁, -⟩
    · exact .inl herr
    · rw [hcalm₁.panic] at hpanic
      cases hpanic
  simp only [wp_bind, wp_modify, wp_get]
  have hname := parserConsume_sound s₁ .identifier "expected variable name" (by decide)
  have hhead : Sound s (parserConsume s₁ .identifier "expected variable name") (fun ts =>
      ∃ ty name : Token, ts = [ty, name] ∧ (rules ty.type).stmtFn = some .parseVarDecl ∧
        varType = typeFromSv ty.text ∧ name.type = .identifier ∧
        (parserConsume s₁ .identifier "expected variable name").current = name) := by
    refine hs₁.trans hname ?_
    rintro _ _ ⟨ty, rfl, rfl, -, hty⟩ ⟨name, rfl, hkind, hcurrent⟩
    exact ⟨s.next, name, rfl, hfn, hty, hkind, hcurrent⟩
  generalize parserConsume s₁ .identifier "expected variable name" = s₂ at hhead ⊢
  have hlt := Nat.lt_of_le_of_lt hhead.1.length_le hs
  refine wp_matchToken_sound (by decide) (fun s₃ _ hs₃ => ?_) fun _ => ?_
  · rw [if_pos rfl]
    have hboth : Sound s s₃ (fun ts => ∃ ty name eq : Token, ts = [ty, name, eq] ∧
        (rules ty.type).stmtFn = some .parseVarDecl ∧ varType = typeFromSv ty.text ∧
        name.type = .identifier ∧ s₂.current = name ∧ eq.type = .equal) := by
      refine hhead.trans hs₃ ?_
      rintro _ _ ⟨ty, name, rfl, hty, htype, hkind, hcurrent⟩ ⟨eq, rfl, heq⟩
      exact ⟨ty, name, eq, rfl, hty, htype, hkind, hcurrent, heq⟩
    refine wp_seq (hexpr.whole (Nat.lt_of_le_of_lt hboth.1.length_le hs)
      (by rw [hboth.1.depth, hdepth])) fun init s₄ hs₄ => ?_
    simp only [wp_bind, wp_modify, wp_newNode, wp_pure]
    refine Sound.semicolon (hboth.append hs₄) ?_
    rintro _ semi ⟨_, ts', rfl, ⟨ty, name, eq, rfl, hty, rfl, hkind, hcurrent, heq⟩, e, he, hts'⟩
      hsemi
    refine ⟨.varDecl name.text (typeFromSv ty.text) (some e), ?_,
      .varInit hty hkind heq hts' hsemi, rfl⟩
    simp [ASTNode.stmt?, ASTNode.optionalExpr?_of_expr? he, hcurrent]
  · simp only [Bool.false_eq_true, if_false, wp_bind, wp_pure, wp_modify, wp_newNode]
    refine hhead.semicolon ?_
    rintro _ semi ⟨ty, name, rfl, hty, rfl, hkind, hcurrent⟩ hsemi
    refine ⟨.varDecl name.text (typeFromSv ty.text) none, ?_, .varDecl hty hkind hsemi, rfl⟩
    rw [hcurrent]
    rfl

theorem parseReturn_sound (hexpr : ExprSound n expr) (hs : s.tokens.length < n)
    (hdepth : s.exprDepth = 0) :
    wp OnlyNull (parseReturn expr) (fun node s' => Sound s s' (StmtYields node s')) s := by
  unfold parseReturn
  simp only [wp_bind, wp_modify, wp_get]
  have hkw := parserConsume_sound s .returnKw "expected 'return'" (by decide)
  generalize parserConsume s .returnKw "expected 'return'" = s₁ at hkw ⊢
  split
  · simp only [wp_bind, wp_pure, wp_modify, wp_newNode]
    refine hkw.semicolon ?_
    rintro _ semi ⟨kw, rfl, hkind, -⟩ hsemi
    exact ⟨.ret none, rfl, .ret hkind hsemi, rfl⟩
  · refine wp_seq (hexpr.whole (Nat.lt_of_le_of_lt hkw.1.length_le hs)
      (by rw [hkw.1.depth, hdepth])) fun expression s₂ hs₂ => ?_
    simp only [wp_bind, wp_modify, wp_newNode, wp_pure]
    refine Sound.semicolon (hkw.append hs₂) ?_
    rintro _ semi ⟨_, ts', rfl, ⟨kw, rfl, hkind, -⟩, e, he, hts'⟩ hsemi
    refine ⟨.ret (some e), ?_, .retValue hkind hts' hsemi, rfl⟩
    simp [ASTNode.stmt?, ASTNode.optionalExpr?_of_expr? he]

theorem parseExprStmt_sound (hexpr : ExprSound n expr) (hs : s.tokens.length < n)
    (hdepth : s.exprDepth = 0) :
    wp OnlyNull (parseExprStmt expr) (fun node s' => Sound s s' (StmtYields node s')) s := by
  unfold parseExprStmt
  refine wp_seq (hexpr.whole hs hdepth) fun expression s₁ hs₁ => ?_
  simp only [wp_bind, wp_modify, wp_pure]
  refine hs₁.trans (parserConsume_sound s₁ _ _ (by decide)) ?_
  rintro ts _ ⟨e, he, hts⟩ ⟨semi, rfl, hsemi, -⟩
  exact ⟨.expr e, ASTNode.stmt?_of_expr? he, .expr hsemi hts,
    fun hopen => absurd hopen Bool.false_ne_true⟩

/-- The keyword and the condition in parentheses of `if` and `while`. -/
theorem condition_sound (hexpr : ExprSound n expr) {kw : TokenType} (hne : kw ≠ .eof)
    {message : String} (hs : s.tokens.length < n) (hdepth : s.exprDepth = 0)
    {Q : ASTNode → Parser → Prop}
    (hQ : ∀ node s', Sound s s' (fun ts => ∃ k l cs r c, ts = k :: l :: (cs ++ [r]) ∧
      k.type = kw ∧ l.type = .lparen ∧ WritesExpr cs c ∧ r.type = .rparen ∧
      node.expr? = some c) →
      (s.next.type = kw → s'.tokens.length < s.tokens.length) → Q node s') :
    wp OnlyNull (expr .none)
      (fun c s' => Q c (parserConsume s' .rparen "expected ')'"))
      (parserConsume (parserConsume s kw message) .lparen "expected '('") := by
  have hkw := parserConsume_sound s kw message hne
  have htakes : s.next.type = kw → Takes s (parserConsume s kw message) :=
    fun h => parserConsume_takes h message
  generalize parserConsume s kw message = s₁ at hkw htakes ⊢
  have hl := parserConsume_sound s₁ .lparen "expected '('" (by decide)
  generalize parserConsume s₁ .lparen "expected '('" = s₂ at hl ⊢
  have hparen := hkw.append hl
  refine wp_mono (hexpr.whole (Nat.lt_of_le_of_lt hparen.1.length_le hs)
    (by rw [hparen.1.depth, hdepth])) fun node s₃ hs₃ => ?_
  have hr := parserConsume_sound s₃ .rparen "expected ')'" (by decide)
  refine hQ node _ (((hparen.append hs₃).append hr).mono ?_) fun h => ?_
  · rintro _ ⟨_, _, rfl, ⟨_, cs, rfl, ⟨_, _, rfl, ⟨k, rfl, hk, -⟩, l, rfl, hl, -⟩, c, hc, hcs⟩,
      r, rfl, hr, -⟩
    exact ⟨k, l, cs, r, c, by simp, hk, hl, hcs, hr, hc⟩
  · have hrest := hl.1.trans (hs₃.1.trans hr.1)
    exact ((htakes h).later hrest).lt (by rw [h]; exact hne)

theorem parseIf_sound (hexpr : ExprSound (n + 1) expr) (hstmt : StmtSound n stmt)
    (hs : s.tokens.length < n + 1) (hdepth : s.exprDepth = 0) (hkw : s.next.type = .ifKw) :
    wp OnlyNull (parseIf expr stmt) (fun node s' => Sound s s' (StmtYields node s')) s := by
  unfold parseIf
  simp only [wp_bind, wp_modify, wp_get]
  refine condition_sound hexpr (by decide) hs hdepth fun condition s₁ hs₁ hlt₁ => ?_
  have hlt : s₁.tokens.length < n := by
    have := hlt₁ hkw
    omega
  refine wp_mono (hstmt s₁ hlt (by rw [hs₁.1.depth, hdepth])) fun thenBranch s₂ hs₂ => ?_
  have hboth := hs₁.append hs₂
  refine wp_matchToken_sound (by decide) (fun s₃ helse hs₃ => ?_) fun hnext => ?_
  · rw [if_pos rfl]
    have hthree := hboth.append hs₃
    have hle := (hs₂.1.trans hs₃.1).length_le
    refine wp_seq (hstmt s₃ (by omega) (by rw [hthree.1.depth, hdepth]))
      fun elseBranch s₄ hs₄ => ?_
    refine Sound.newNode (Sound.mono (hthree.append hs₄) ?_)
    rintro _ ⟨_, es, rfl, ⟨_, _, rfl, ⟨_, ts, rfl, ⟨k, l, cs, r, c, rfl, hk, hl, hcs, hr, hc⟩,
      t, ht, hts, hopen⟩, kw', rfl, hkw'⟩, e, he, hes, hopen'⟩
    have hnull := elseBranch.isNull_of_stmt? he
    have hclosed : openIf t = false := by
      cases h : openIf t with
      | false => rfl
      | true => exact absurd helse (hopen h)
    refine ⟨.ifElse c t e, by simp [ASTNode.stmt?, hc, ht, he, hnull], ?_, hopen'⟩
    simpa using DerivesStmt.ifElse hk hl hcs hr hts hclosed hkw' hes
  · simp only [Bool.false_eq_true, if_false, wp_bind, wp_pure, wp_newNode]
    refine Sound.newNode (hboth.mono ?_)
    rintro _ ⟨_, ts, rfl, ⟨k, l, cs, r, c, rfl, hk, hl, hcs, hr, hc⟩, t, ht, hts, -⟩
    refine ⟨.ifThen c t, by simp [ASTNode.stmt?, hc, ht, ASTNode.isNull], ?_, fun _ => hnext⟩
    simpa using DerivesStmt.ifThen hk hl hcs hr hts

theorem parseWhile_sound (hexpr : ExprSound (n + 1) expr) (hstmt : StmtSound n stmt)
    (hs : s.tokens.length < n + 1) (hdepth : s.exprDepth = 0) (hkw : s.next.type = .whileKw) :
    wp OnlyNull (parseWhile expr stmt) (fun node s' => Sound s s' (StmtYields node s')) s := by
  unfold parseWhile
  simp only [wp_bind, wp_modify, wp_get]
  refine condition_sound hexpr (by decide) hs hdepth fun condition s₁ hs₁ hlt₁ => ?_
  have hlt : s₁.tokens.length < n := by
    have := hlt₁ hkw
    omega
  refine wp_mono (hstmt s₁ hlt (by rw [hs₁.1.depth, hdepth])) fun body s₂ hs₂ => ?_
  simp only [wp_newNode, wp_pure]
  refine Sound.newNode (Sound.mono (hs₁.append hs₂) ?_)
  rintro _ ⟨_, ts, rfl, ⟨k, l, cs, r, c, rfl, hk, hl, hcs, hr, hc⟩, b, hb, hts, hopen⟩
  refine ⟨.whileLoop c b, by simp [ASTNode.stmt?, hc, hb], ?_, hopen⟩
  simpa using DerivesStmt.whileLoop hk hl hcs hr hts

/-- The statements of a block that have been taken. -/
def BlockSoFar (stmts : List ASTNode) (ts : List Token) : Prop :=
  ∃ parts : List (List Token × Stmt), stmts? stmts = some (parts.map (·.2)) ∧
    parts.length = stmts.length ∧ stmts.length ≤ maxBlockStatements ∧
    (∀ part ∈ parts, DerivesStmt part.1 part.2) ∧ ts = parts.flatMap (·.1)

theorem BlockSoFar.snoc {stmts : List ASTNode} {ts us : List Token} {node : ASTNode} {st : Stmt}
    (h : BlockSoFar stmts ts) (hroom : stmts.length < maxBlockStatements)
    (hst : node.stmt? = some st) (hus : DerivesStmt us st) :
    BlockSoFar (stmts ++ [node]) (ts ++ us) := by
  obtain ⟨parts, hstmts, hlen, -, hparts, rfl⟩ := h
  refine ⟨parts ++ [(us, st)], ?_, by simp [hlen], ?_, ?_, by simp⟩
  · rw [stmts?_eq] at hstmts ⊢
    rw [List.map_append]
    exact mapM_snoc hstmts hst
  · rw [List.length_append, List.length_singleton]
    exact hroom
  · intro part hpart
    rcases List.mem_append.mp hpart with hpart | hpart
    · exact hparts part hpart
    · rw [List.mem_singleton.mp hpart]
      exact hus

theorem blockTurn_sound (hstmt : StmtSound n stmt) (hs : s.tokens.length < n)
    (hdepth : s.exprDepth = 0) (stmts : List ASTNode) :
    wp OnlyNull (blockTurn stmt stmts) (fun r s' =>
      match r with
      | .again stmts' => Sound s s' (fun us => ∀ ts, BlockSoFar stmts ts →
          BlockSoFar stmts' (ts ++ us))
      | .leave stmts' => Sound s s' (fun us => ∀ ts, BlockSoFar stmts ts →
          BlockSoFar stmts' (ts ++ us))) s := by
  unfold blockTurn
  simp only [wp_bind, wp_get]
  refine wp_ite (fun _ => ?_) fun _ => ?_
  · refine Sound.refl fun ts hts => ?_
    rwa [List.append_nil]
  refine wp_ite (fun _ => ?_) fun hroom => ?_
  · simp only [wp_bind, wp_modify, wp_pure]
    exact (parserError_sound s _).absurd (fun _ h => h) (parserSynchronize_later _)
  refine wp_seq (hstmt s hs hdepth) fun node s' hs' => ?_
  refine wp_ite (fun hnull => ?_) fun _ => ?_
  · -- a missing statement has been reported
    simp only [wp_bind, wp_modify, wp_pure]
    refine hs'.absurd ?_ (parserSynchronize_later _)
    rintro ts ⟨st, hst, -⟩
    rw [node.isNull_of_stmt? hst] at hnull
    cases hnull
  · refine hs'.mono ?_
    rintro us ⟨st, hst, hus, -⟩ ts hts
    exact hts.snoc (Nat.lt_of_not_le hroom) hst hus

/-- What `parse_block` yields. -/
def BlockYields (node : ASTNode) (ts : List Token) : Prop :=
  ∃ body, node.body? = some body ∧ node.stmt? = some (.block body) ∧ DerivesStmt ts (.block body)

theorem parseBlock_sound (hends : StmtEnds n stmt) (hstmt : StmtSound n stmt)
    (hs : (parserConsume s .lbrace "Expected '\x7b'").tokens.length < n)
    (hdepth : s.exprDepth = 0) :
    wp OnlyNull (parseBlock stmt n) (fun node s' => Sound s s' (BlockYields node)) s := by
  unfold parseBlock
  simp only [wp_bind, wp_modify]
  have hbrace := parserConsume_sound s .lbrace "Expected '\x7b'" (by decide)
  generalize parserConsume s .lbrace "Expected '\x7b'" = s₁ at hs hbrace ⊢
  have hinside : ∀ s', Later s₁ s' → s'.tokens.length < n ∧ s'.exprDepth = 0 := by
    intro s' hs'
    exact ⟨Nat.lt_of_le_of_lt hs'.length_le hs, by rw [(hbrace.1.trans hs').depth, hdepth]⟩
  refine wp_mono (wp_loop_sound
    (fun stmts s' => Sound s₁ s' (BlockSoFar stmts))
    (fun stmts s' => Sound s₁ s' (BlockSoFar stmts))
    (fun stmts s' hinv => ?_) (fun stmts s' hinv => ?_) (.refl ?_) hs) fun stmts s₂ hs₂ => ?_
  · obtain ⟨hlt, hzero⟩ := hinside s' hinv.1
    have hlimit : s'.exprDepth < maxExpressionDepth := by
      rw [hzero]
      decide
    refine wp_mono (blockTurn_takes hends hlt hlimit stmts) fun r s'' hr => ?_
    exact ⟨hr.1, hr.2.1⟩
  · obtain ⟨hlt, hzero⟩ := hinside s' hinv.1
    refine wp_mono (blockTurn_sound hstmt hlt hzero stmts) fun r s'' hr => ?_
    cases r with
    | again stmts' => exact hinv.trans hr fun ts us hts hus => hus ts hts
    | leave stmts' => exact hinv.trans hr fun ts us hts hus => hus ts hts
  · exact ⟨[], rfl, rfl, Nat.zero_le _, List.forall_mem_nil _, rfl⟩
  · simp only [wp_newNode, wp_pure]
    refine Sound.newNode ((hbrace.append hs₂).trans (parserConsume_sound s₂ _ _ (by decide)) ?_)
    rintro _ _ ⟨_, ts, rfl, ⟨l, rfl, hl, -⟩, parts, hstmts, hlen, hcount, hparts, rfl⟩
      ⟨r, rfl, hr, -⟩
    refine ⟨parts.map (·.2), by simp [ASTNode.body?, hstmts], by simp [ASTNode.stmt?, hstmts], ?_⟩
    simpa using DerivesStmt.block hl hr hparts (by omega)

end

/-- Every call of `parse_statement` is sound. -/
theorem parseStatement_sound (fuel : Nat) : StmtSound fuel (parseStatement fuel) := by
  induction fuel with
  | zero => exact fun s hs _ => absurd hs (Nat.not_lt_zero _)
  | succ fuel ih =>
    intro s hs hdepth
    have hexpr := parseExpression_sound (fuel + 1)
    unfold parseStatement
    simp only [wp_bind, wp_get]
    split
    · exact parseVarDecl_sound hexpr hs hdepth ‹_›
    · exact parseIf_sound hexpr ih hs hdepth ((type_of_stmtFn ‹_›).1 rfl)
    · exact parseWhile_sound hexpr ih hs hdepth ((type_of_stmtFn ‹_›).2.1 rfl)
    · exact parseReturn_sound hexpr hs hdepth
    · rename_i hfn
      have hbrace := (type_of_stmtFn hfn).2.2.2 rfl
      have hlt := (parserConsume_takes hbrace "Expected '\x7b'").lt (by rw [hbrace]; decide)
      refine wp_mono (parseBlock_sound (parseStatement_ends fuel) ih (by omega) hdepth)
        fun node s' hs' => hs'.mono ?_
      rintro ts ⟨body, -, hst, hts⟩
      exact ⟨.block body, hst, hts, fun hopen => absurd hopen Bool.false_ne_true⟩
    · exact parseExprStmt_sound hexpr hs hdepth

end TinyCompile.Parser
