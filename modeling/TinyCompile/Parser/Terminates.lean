import TinyCompile.Parser.Steps

set_option autoImplicit false

/-!
# Parser: parsing comes to an end

The measure is the number of tokens to come: every recursive call and every turn of a
loop that goes on stands behind a token that has been taken.  A call can only end
without returning where it follows a null pointer, which an error before left as an
operand.
-/

namespace TinyCompile.Parser

open TinyCompile.Source TinyCompile.Logic

/-- The only way not to return. -/
def OnlyNull (e : Stop) : Prop := e = .nullPointer

/-- What the calls of `parse_expression` and its parts come to with `n` to spare: they
end, at the depth they started, and take a token unless the depth is exhausted. -/
def ExprEnds (n : Nat) (expr : Precedence → ParseM ASTNode) : Prop :=
  ∀ p s, s.tokens.length < n → wp OnlyNull (expr p) (fun _ s' =>
    Later s s' ∧ (s.exprDepth < maxExpressionDepth → Takes s s')) s

/-- A turn of a loop ends, and takes a token if the loop goes on. -/
def TurnEnds {β γ : Type} (x : ParseM (Turn β γ)) (s : Parser) : Prop :=
  wp OnlyNull x (fun r s' => Later s s' ∧
    ∀ b, r = .again b → s'.tokens.length < s.tokens.length) s

/-- A turn that leaves the loop need not take a token. -/
theorem turn_leaves {β γ : Type} {c : γ} {s s' : Parser} (h : Later s s') : Later s s' ∧
    ∀ b, (Turn.leave c : Turn β γ) = .again b → s'.tokens.length < s.tokens.length := by
  refine ⟨h, ?_⟩
  intro _ hagain
  cases hagain

/-- A loop whose turns end, ends. -/
theorem wp_loop_later {β γ : Type} {turn : β → ParseM (Turn β γ)} {n : Nat} {b : β}
    {s : Parser} (hturn : ∀ b s', Later s s' → TurnEnds (turn b) s')
    (hn : s.tokens.length < n) :
    wp OnlyNull (loop .outOfFuel turn n b) (fun _ s' => Later s s') s := by
  refine wp_loop (fun _ s' => Later s s') (fun s' => s'.tokens.length) ?_ (.refl s) hn
  intro b s' hs'
  refine wp_mono (hturn b s' hs') fun r s'' hr => ?_
  cases r with
  | again b' => exact ⟨hs'.trans hr.1, hr.2 b' rfl⟩
  | leave c => exact hs'.trans hr.1

/-! ## Expressions -/

section

variable {n : Nat} {expr : Precedence → ParseM ASTNode} {s : Parser}

/-- A call at a state whose tokens are few enough. -/
theorem ExprEnds.later (h : ExprEnds n expr) (p : Precedence) (hs : s.tokens.length < n) :
    wp OnlyNull (expr p) (fun _ s' => Later s s') s :=
  wp_mono (h p s hs) fun _ _ h' => h'.1

theorem parseUnary_ends (h : ExprEnds n expr) (hs : s.tokens.length < n) :
    wp OnlyNull (parseUnary expr) (fun _ s' => Later s s') s := by
  unfold parseUnary
  simp only [wp_bind, wp_get, wp_newNode]
  refine wp_mono (h.later .unary hs) fun operand s' hs' => ?_
  have hlater := (later_newNode s).trans hs'
  split <;> exact hlater

theorem parseGrouping_ends (h : ExprEnds n expr) (hs : s.tokens.length < n) :
    wp OnlyNull (parseGrouping expr) (fun _ s' => Later s s') s := by
  unfold parseGrouping
  refine wp_seq (h.later .none hs) fun e s' hs' => ?_
  simp only [wp_bind, wp_modify, wp_pure]
  exact hs'.trans (parserConsume_later _ _ _)

theorem callPrefix_ends (h : ExprEnds n expr) (hs : s.tokens.length < n) (fn : PrefixFn) :
    wp OnlyNull (callPrefix expr fn) (fun _ s' => Later s s') s := by
  cases fn with
  | parseNumber => exact later_newNode s
  | parseIdentifier => exact later_newNode s
  | parseUnary => exact parseUnary_ends h hs
  | parseGrouping => exact parseGrouping_ends h hs

theorem parseBinary_ends (h : ExprEnds n expr) (hs : s.tokens.length < n) (left : ASTNode) :
    wp OnlyNull (parseBinary expr left) (fun _ s' => Later s s') s := by
  unfold parseBinary
  simp only [wp_bind, wp_get, wp_newNode]
  split
  · refine wp_seq (h.later _ hs) fun right s' hs' => ?_
    exact (later_newNode s).trans hs'
  · simp only [wp_bind, wp_modify, wp_pure]
    exact (later_newNode s).trans (parserError_later _ _)

theorem parseAssignment_ends (h : ExprEnds n expr) (hs : s.tokens.length < n)
    (left : ASTNode) : wp OnlyNull (parseAssignment expr left) (fun _ s' => Later s s') s := by
  cases left with
  | null => exact rfl
  | identifier info name =>
    unfold parseAssignment
    simp only [wp_bind, wp_newNode]
    refine wp_mono (h.later .assignment hs) fun value s' hs' => ?_
    exact (later_newNode s).trans hs'
  | _ => exact parserError_later s _

/-- A turn over the arguments of a call. -/
theorem argTurn_ends (h : ExprEnds n expr) (hs : s.tokens.length < n) (args : List ASTNode) :
    TurnEnds (argTurn expr args) s := by
  unfold TurnEnds argTurn
  refine wp_ite (fun _ => ?_) fun _ => ?_
  · simp only [wp_bind, wp_modify, wp_pure]
    exact turn_leaves ((parserError_later s _).trans (parserSynchronize_later _))
  · refine wp_seq (h.later .assignment hs) fun arg s' hs' => ?_
    refine wp_ite (fun _ => ?_) fun _ => ?_
    · simp only [wp_bind, wp_modify, wp_pure]
      exact turn_leaves (hs'.trans (parserSynchronize_later _))
    · rw [wp_bind]
      refine wp_matchToken (fun hcomma => ?_) fun _ => ?_
      · refine ⟨hs'.trans (parserAdvance_later s'), fun _ _ => ?_⟩
        have := (parserAdvance_takes s').lt (by rw [hcomma]; decide)
        have := hs'.length_le
        omega
      · exact turn_leaves hs'

theorem parseCall_ends (h : ExprEnds n expr) (hs : s.tokens.length < n) (callee : ASTNode) :
    wp OnlyNull (parseCall expr n callee) (fun _ s' => Later s s') s := by
  cases callee with
  | null => exact rfl
  | identifier info name =>
    unfold parseCall
    simp only [wp_bind, wp_newNode, wp_get]
    have hnew := later_newNode s
    split
    · simp only [wp_bind, wp_pure, wp_modify]
      exact hnew.trans (parserConsume_later _ _ _)
    · have hs₀ : ({ s with arena := s.arena + 1 } : Parser).tokens.length < n := hs
      refine wp_seq (wp_loop_later (fun args s' hs' => ?_) hs₀) fun args s' hs' => ?_
      · exact argTurn_ends h (Nat.lt_of_le_of_lt hs'.length_le hs₀) args
      · simp only [wp_bind, wp_modify, wp_pure]
        exact (hnew.trans hs').trans (parserConsume_later _ _ _)
  | _ => exact parserError_later s _

theorem callInfix_ends (h : ExprEnds n expr) (hs : s.tokens.length < n) (left : ASTNode)
    (fn : InfixFn) : wp OnlyNull (callInfix expr n left fn) (fun _ s' => Later s s') s := by
  cases fn with
  | parseBinary => exact parseBinary_ends h hs left
  | parseAssignment => exact parseAssignment_ends h hs left
  | parseCall => exact parseCall_ends h hs left

theorem infixTurn_ends (h : ExprEnds n expr) (hs : s.tokens.length < n)
    (precedence : Precedence) (left : ASTNode) :
    TurnEnds (infixTurn expr n precedence left) s := by
  unfold TurnEnds infixTurn
  simp only [wp_bind, wp_get]
  refine wp_ite (fun hprec => ?_) fun _ => ?_
  · -- the end of the file has the lowest precedence
    have hne : s.next.type ≠ .eof := by
      intro heof
      rw [heof] at hprec
      exact absurd hprec (Nat.not_lt_zero _)
    have hlt := (parserAdvance_takes s).lt hne
    have hadv := parserAdvance_later s
    simp only [wp_bind, wp_set]
    split
    · refine wp_seq (callInfix_ends h (by omega) left _) fun left' s' hs' => ?_
      refine ⟨hadv.trans hs', fun _ _ => ?_⟩
      have := hs'.length_le
      omega
    · exact ⟨hadv, fun _ _ => hlt⟩
  · exact turn_leaves (.refl s)

end

/-- Between `expr_depth++` and `expr_depth--`. -/
theorem later_leaveExpression {s s' : Parser} {h : s.exprDepth < maxExpressionDepth}
    (hs' : Later (parserAdvance (s.enterExpression h)) s') : Later s s'.leaveExpression := by
  have hlater := (parserAdvance_later (s.enterExpression h)).trans hs'
  have hdepth : s'.exprDepth - 1 = s.exprDepth := by
    rw [hlater.depth]
    exact Nat.add_sub_cancel _ 1
  exact ⟨hlater.tokens, hlater.errors, hdepth⟩

/-- Every call of `parse_expression` ends. -/
theorem parseExpression_ends (fuel : Nat) : ExprEnds fuel (parseExpression fuel) := by
  induction fuel with
  | zero => exact fun p s hs => absurd hs (Nat.not_lt_zero _)
  | succ fuel ih =>
    intro p s hs
    unfold parseExpression
    simp only [wp_bind, wp_get]
    split
    · rename_i hdepth
      simp only [wp_bind, wp_set]
      have htakes : Takes s (parserAdvance (s.enterExpression hdepth)) :=
        parserAdvance_takes (s.enterExpression hdepth)
      have hback : ∀ s', Later (parserAdvance (s.enterExpression hdepth)) s' →
          Later s s'.leaveExpression ∧
            (s.exprDepth < maxExpressionDepth → Takes s s'.leaveExpression) :=
        fun s' hs' => ⟨later_leaveExpression hs', fun _ => hs'.tokens.trans htakes⟩
      split
      · rename_i fn hfn
        -- a token that starts an expression has been taken
        have hne : s.next.type ≠ .eof := by
          intro heof
          rw [heof] at hfn
          cases hfn
        have hlt : (parserAdvance (s.enterExpression hdepth)).tokens.length < fuel := by
          have := htakes.lt hne
          omega
        refine wp_seq (callPrefix_ends ih hlt fn) fun left s₁ hs₁ => ?_
        have hlt₁ := Nat.lt_of_le_of_lt hs₁.length_le hlt
        refine wp_seq (wp_loop_later (fun left' s' hs' => ?_) hlt₁) fun left' s₂ hs₂ => ?_
        · exact infixTurn_ends ih (Nat.lt_of_le_of_lt hs'.length_le hlt₁) p left'
        · simp only [wp_bind, wp_modify, wp_pure]
          exact hback s₂ (hs₁.trans hs₂)
      · simp only [wp_bind, wp_modify, wp_pure]
        exact hback _ (parserError_later _ _)
    · rename_i hdepth
      simp only [wp_bind, wp_set, wp_pure]
      exact ⟨parserError_later s _, fun h => absurd h hdepth⟩

/-! ## Statements -/

/-- What a call of `parse_statement` comes to with `n` to spare. -/
def StmtEnds (n : Nat) (stmt : ParseM ASTNode) : Prop :=
  ∀ s, s.tokens.length < n → s.exprDepth < maxExpressionDepth →
    wp OnlyNull stmt (fun _ s' => Later s s' ∧ Takes s s') s

/-- A token that starts a variable declaration has the text of a type. -/
theorem isTypeKeyword_of_varDecl {t : Token} (ht : t.Lexical)
    (h : (rules t.type).stmtFn = some .parseVarDecl) : isTypeKeyword t.text = true := by
  have htype : ∀ type, spells type t.text = true →
      spells type = (svEq · (svOf (tokenTypeName type))) →
      isTypeKeyword (svOf (tokenTypeName type)) = true → isTypeKeyword t.text = true := by
    intro type hspell hsv hkw
    rw [hsv] at hspell
    rwa [(svEq_iff _ _).mp hspell]
  unfold Token.Lexical at ht
  cases hkind : t.type with
  | int =>
    rw [hkind] at ht
    exact htype .int ht rfl (by decide)
  | char =>
    rw [hkind] at ht
    exact htype .char ht rfl (by decide)
  | void =>
    rw [hkind] at ht
    exact htype .void ht rfl (by decide)
  | _ =>
    rw [hkind] at h
    cases h

section

variable {n : Nat} {expr : Precedence → ParseM ASTNode} {stmt : ParseM ASTNode} {s : Parser}

theorem parseType_takes (h : isTypeKeyword s.next.text = true) :
    wp OnlyNull parseType (fun _ s' => Later s s' ∧ Takes s s') s := by
  refine wp_parseType (fun _ => ?_) fun h' _ => ?_
  · exact ⟨parserAdvance_later s, parserAdvance_takes s⟩
  · rw [h] at h'
    cases h'

theorem parseVarDecl_ends (h : ExprEnds n expr) (hs : s.tokens.length < n)
    (htype : isTypeKeyword s.next.text = true) :
    wp OnlyNull (parseVarDecl expr) (fun _ s' => Later s s' ∧ Takes s s') s := by
  unfold parseVarDecl
  refine wp_seq (parseType_takes htype) fun varType s₁ hs₁ => ?_
  simp only [wp_bind, wp_get]
  refine wp_ite (fun _ => hs₁) fun _ => ?_
  simp only [wp_bind, wp_modify, wp_get]
  have hname := parserConsume_later s₁ .identifier "expected variable name"
  generalize parserConsume s₁ .identifier "expected variable name" = s₂ at hname ⊢
  have hlt : s₂.tokens.length < n := by
    have := hs₁.1.length_le
    have := hname.length_le
    omega
  have hend : ∀ s₃, Later s₂ s₃ → Later s
      { parserConsume s₃ .semicolon "expected ';'" with
        arena := (parserConsume s₃ .semicolon "expected ';'").arena + 1 } ∧
      Takes s { parserConsume s₃ .semicolon "expected ';'" with
        arena := (parserConsume s₃ .semicolon "expected ';'").arena + 1 } := by
    intro s₃ hs₃
    have hrest := (hname.trans hs₃).trans
      ((parserConsume_later s₃ .semicolon "expected ';'").trans (later_newNode _))
    exact ⟨hs₁.1.trans hrest, hs₁.2.later hrest⟩
  refine wp_matchToken (fun _ => ?_) fun _ => ?_
  · have hadv := parserAdvance_later s₂
    rw [if_pos rfl]
    refine wp_seq (h.later .none (Nat.lt_of_le_of_lt hadv.length_le hlt)) fun init s₃ hs₃ => ?_
    exact hend s₃ (hadv.trans hs₃)
  · exact hend s₂ (.refl s₂)

theorem parseReturn_ends (h : ExprEnds n expr) (hs : s.tokens.length < n)
    (hkw : s.next.type = .returnKw) :
    wp OnlyNull (parseReturn expr) (fun _ s' => Later s s' ∧ Takes s s') s := by
  unfold parseReturn
  simp only [wp_bind, wp_modify, wp_get]
  have hlater := parserConsume_later s .returnKw "expected 'return'"
  have htakes := parserConsume_takes hkw "expected 'return'"
  generalize parserConsume s .returnKw "expected 'return'" = s₁ at hlater htakes ⊢
  have hend : ∀ s₂, Later s₁ s₂ → Later s
      { parserConsume s₂ .semicolon "expected ';'" with
        arena := (parserConsume s₂ .semicolon "expected ';'").arena + 1 } ∧
      Takes s { parserConsume s₂ .semicolon "expected ';'" with
        arena := (parserConsume s₂ .semicolon "expected ';'").arena + 1 } := by
    intro s₂ hs₂
    have hrest := hs₂.trans
      ((parserConsume_later s₂ .semicolon "expected ';'").trans (later_newNode _))
    exact ⟨hlater.trans hrest, htakes.later hrest⟩
  split
  · exact hend s₁ (.refl s₁)
  · refine wp_seq (h.later .none (Nat.lt_of_le_of_lt hlater.length_le hs)) fun e s₂ hs₂ => ?_
    exact hend s₂ hs₂

theorem parseExprStmt_ends (h : ExprEnds n expr) (hs : s.tokens.length < n)
    (hdepth : s.exprDepth < maxExpressionDepth) :
    wp OnlyNull (parseExprStmt expr) (fun _ s' => Later s s' ∧ Takes s s') s := by
  unfold parseExprStmt
  refine wp_seq (h .none s hs) fun e s₁ hs₁ => ?_
  simp only [wp_bind, wp_modify, wp_pure]
  have hrest := parserConsume_later s₁ .semicolon "expected ';'"
  exact ⟨hs₁.1.trans hrest, (hs₁.2 hdepth).later hrest⟩

/-- The condition in parentheses of `if` and `while`. -/
theorem condition_ends (h : ExprEnds n expr) {kw : TokenType} {message : String}
    (hs : s.tokens.length < n + 1) (hkw : s.next.type = kw) (hne : kw ≠ .eof)
    {Q : ASTNode → Parser → Prop}
    (hQ : ∀ c s', Later s s' → Takes s s' → s'.tokens.length < n → Q c s') :
    wp OnlyNull (expr .none)
      (fun c s' => Q c (parserConsume s' .rparen "expected ')'"))
      (parserConsume (parserConsume s kw message) .lparen "expected '('") := by
  have hlater := parserConsume_later s kw message
  have htakes := parserConsume_takes hkw message
  generalize parserConsume s kw message = s₁ at hlater htakes ⊢
  have hparen := parserConsume_later s₁ .lparen "expected '('"
  generalize parserConsume s₁ .lparen "expected '('" = s₂ at hparen ⊢
  have hlt := htakes.lt (by rw [hkw]; exact hne)
  have hle := hparen.length_le
  refine wp_mono (h.later .none (by omega)) fun c s₃ hs₃ => ?_
  have hrest := (hparen.trans hs₃).trans (parserConsume_later s₃ .rparen "expected ')'")
  have hle' := hrest.length_le
  exact hQ c _ (hlater.trans hrest) (htakes.later hrest) (by omega)

theorem parseIf_ends (h : ExprEnds n expr) (hstmt : StmtEnds n stmt)
    (hs : s.tokens.length < n + 1) (hdepth : s.exprDepth < maxExpressionDepth)
    (hkw : s.next.type = .ifKw) :
    wp OnlyNull (parseIf expr stmt) (fun _ s' => Later s s' ∧ Takes s s') s := by
  unfold parseIf
  simp only [wp_bind, wp_modify, wp_get]
  refine condition_ends h hs hkw (by decide) fun c s₁ hlater htakes hlt => ?_
  refine wp_mono (hstmt s₁ hlt (by rw [hlater.depth]; exact hdepth)) fun thenBranch s₂ hs₂ => ?_
  have hend : ∀ s₃, Later s₂ s₃ → Later s { s₃ with arena := s₃.arena + 1 } ∧
      Takes s { s₃ with arena := s₃.arena + 1 } := by
    intro s₃ hs₃
    have hrest := (hs₂.1.trans hs₃).trans (later_newNode s₃)
    exact ⟨hlater.trans hrest, htakes.later hrest⟩
  refine wp_matchToken (fun _ => ?_) fun _ => ?_
  · have hadv := parserAdvance_later s₂
    have hle := (hs₂.1.trans hadv).length_le
    have hdepth' := (hlater.trans (hs₂.1.trans hadv)).depth
    rw [if_pos rfl]
    refine wp_seq (hstmt _ (by omega) (by rw [hdepth']; exact hdepth)) fun e s₃ hs₃ => ?_
    exact hend s₃ (hadv.trans hs₃.1)
  · exact hend s₂ (.refl s₂)

theorem parseWhile_ends (h : ExprEnds n expr) (hstmt : StmtEnds n stmt)
    (hs : s.tokens.length < n + 1) (hdepth : s.exprDepth < maxExpressionDepth)
    (hkw : s.next.type = .whileKw) :
    wp OnlyNull (parseWhile expr stmt) (fun _ s' => Later s s' ∧ Takes s s') s := by
  unfold parseWhile
  simp only [wp_bind, wp_modify, wp_get]
  refine condition_ends h hs hkw (by decide) fun c s₁ hlater htakes hlt => ?_
  refine wp_mono (hstmt s₁ hlt (by rw [hlater.depth]; exact hdepth)) fun body s₂ hs₂ => ?_
  have hrest := hs₂.1.trans (later_newNode s₂)
  exact ⟨hlater.trans hrest, htakes.later hrest⟩

/-- A turn over the statements of a block takes a token whenever it parses a statement. -/
theorem blockTurn_takes (hstmt : StmtEnds n stmt) (hs : s.tokens.length < n)
    (hdepth : s.exprDepth < maxExpressionDepth) (stmts : List ASTNode) :
    wp OnlyNull (blockTurn stmt stmts) (fun r s' => Later s s' ∧
      (∀ b, r = .again b → s'.tokens.length < s.tokens.length) ∧
      (s.next.type ≠ .rbrace → s.next.type ≠ .eof → stmts.length < maxBlockStatements →
        s'.tokens.length < s.tokens.length)) s := by
  unfold blockTurn
  simp only [wp_bind, wp_get]
  refine wp_ite (fun hend => ?_) fun hend => ?_
  · refine ⟨.refl s, (turn_leaves (.refl s)).2, fun hbrace heof _ => ?_⟩
    exact absurd hend (not_or.mpr ⟨hbrace, heof⟩)
  · obtain ⟨-, heof⟩ := not_or.mp hend
    refine wp_ite (fun hfull => ?_) fun _ => ?_
    · simp only [wp_bind, wp_modify, wp_pure]
      refine ⟨(parserError_later s _).trans (parserSynchronize_later _), ?_,
        fun _ _ hroom => ?_⟩
      · intro _ hagain
        cases hagain
      · omega
    · refine wp_seq (hstmt s hs hdepth) fun node s' hs' => ?_
      have hlt := hs'.2.lt heof
      refine wp_ite (fun _ => ?_) fun _ => ?_
      · simp only [wp_bind, wp_modify, wp_pure]
        have hsync := parserSynchronize_later s'
        have hle := hsync.length_le
        exact ⟨hs'.1.trans hsync, fun _ _ => by omega, fun _ _ _ => by omega⟩
      · exact ⟨hs'.1, fun _ _ => hlt, fun _ _ _ => hlt⟩

theorem parseBlock_ends (hstmt : StmtEnds n stmt)
    (hs : (parserConsume s .lbrace "Expected '\x7b'").tokens.length < n)
    (hdepth : s.exprDepth < maxExpressionDepth) :
    wp OnlyNull (parseBlock stmt n) (fun _ s' => Later s s' ∧
      (s.next.type = .lbrace → Takes s s')) s := by
  unfold parseBlock
  simp only [wp_bind, wp_modify]
  have hlater := parserConsume_later s .lbrace "Expected '\x7b'"
  have htakes : s.next.type = .lbrace → Takes s (parserConsume s .lbrace "Expected '\x7b'") :=
    fun h => parserConsume_takes h _
  generalize parserConsume s .lbrace "Expected '\x7b'" = s₁ at hs hlater htakes ⊢
  refine wp_mono (wp_loop_later (fun stmts s' hs' => ?_) hs) fun stmts s₂ hs₂ => ?_
  · have hdepth' : s'.exprDepth < maxExpressionDepth := by
      rw [(hlater.trans hs').depth]
      exact hdepth
    refine wp_mono (blockTurn_takes hstmt (Nat.lt_of_le_of_lt hs'.length_le hs) hdepth' stmts)
      fun r s'' hr => ?_
    exact ⟨hr.1, hr.2.1⟩
  · simp only [wp_newNode, wp_pure]
    have hrest := hs₂.trans ((parserConsume_later s₂ .rbrace "Expected '\x7d'").trans
      (later_newNode _))
    exact ⟨hlater.trans hrest, fun h => (htakes h).later hrest⟩

end

/-- The token types of the statement functions. -/
theorem type_of_stmtFn {type : TokenType} {fn : StmtFn} (h : (rules type).stmtFn = some fn) :
    (fn = .parseIf → type = .ifKw) ∧ (fn = .parseWhile → type = .whileKw) ∧
      (fn = .parseReturn → type = .returnKw) ∧ (fn = .parseBlock → type = .lbrace) := by
  cases type <;> cases h <;> decide

/-- Every call of `parse_statement` ends, and takes a token. -/
theorem parseStatement_ends (fuel : Nat) : StmtEnds fuel (parseStatement fuel) := by
  induction fuel with
  | zero => exact fun s hs _ => absurd hs (Nat.not_lt_zero _)
  | succ fuel ih =>
    intro s hs hdepth
    have hexpr := parseExpression_ends (fuel + 1)
    have hexpr' : ExprEnds fuel (parseExpression (fuel + 1)) :=
      fun p s' hs' => hexpr p s' (Nat.lt_succ_of_lt hs')
    unfold parseStatement
    simp only [wp_bind, wp_get]
    split
    · exact parseVarDecl_ends hexpr hs (isTypeKeyword_of_varDecl s.lexical.1 ‹_›)
    · exact parseIf_ends hexpr' ih hs hdepth ((type_of_stmtFn ‹_›).1 rfl)
    · exact parseWhile_ends hexpr' ih hs hdepth ((type_of_stmtFn ‹_›).2.1 rfl)
    · exact parseReturn_ends hexpr hs ((type_of_stmtFn ‹_›).2.2.1 rfl)
    · rename_i hfn
      have hbrace := (type_of_stmtFn hfn).2.2.2 rfl
      have hlt := (parserConsume_takes hbrace "Expected '\x7b'").lt (by rw [hbrace]; decide)
      refine wp_mono (parseBlock_ends ih (by omega) hdepth) fun _ s' hs' => ?_
      exact ⟨hs'.1, hs'.2 hbrace⟩
    · exact parseExprStmt_ends hexpr hs hdepth

/-! ## Functions and files -/

theorem paramTurn_ends (params : List Parameter) (s : Parser) : TurnEnds (paramTurn params) s := by
  unfold TurnEnds paramTurn
  have htype : wp OnlyNull parseType (fun _ s' => Later s s') s :=
    wp_parseType (fun _ => parserAdvance_later s) fun _ _ => parserError_later s _
  refine wp_seq htype fun paramType s₁ hs₁ => ?_
  simp only [wp_bind, wp_modify, wp_get]
  have hname := hs₁.trans (parserConsume_later s₁ .identifier "expected parameter name")
  generalize parserConsume s₁ .identifier "expected parameter name" = s₂ at hname ⊢
  have hrest : ∀ s₃ : Parser, s₃.tokens = s₂.tokens → Later s s₃ →
      wp OnlyNull (do
        if ← matchToken .comma then
          return Turn.again (params ++ [(⟨s₂.current.text, paramType⟩ : Parameter)])
        else return Turn.leave (params ++ [(⟨s₂.current.text, paramType⟩ : Parameter)]))
        (fun r s' => Later s s' ∧ ∀ b, r = .again b → s'.tokens.length < s.tokens.length)
        s₃ := by
    intro s₃ htokens hs₃
    rw [wp_bind]
    refine wp_matchToken (fun hcomma => ?_) fun _ => ?_
    · refine ⟨hs₃.trans (parserAdvance_later s₃), fun _ _ => ?_⟩
      have := (parserAdvance_takes s₃).lt (by rw [hcomma]; decide)
      have := hs₃.length_le
      omega
    · exact turn_leaves hs₃
  split
  · exact hrest _ rfl ⟨hname.tokens, hname.errors, hname.depth⟩
  · exact hrest s₂ rfl hname

theorem parseParamList_ends {n : Nat} {s : Parser} (hs : s.tokens.length < n) :
    wp OnlyNull (parseParamList n) (fun _ s' => Later s s') s := by
  unfold parseParamList
  simp only [wp_bind, wp_get]
  refine wp_ite (fun _ => .refl s) fun _ => wp_ite (fun _ => ?_) fun _ => ?_
  · exact parserAdvance_later s
  · exact wp_loop_later (fun params s' _ => paramTurn_ends params s') hs

theorem parseFunction_ends {fuel : Nat} {s : Parser} (hs : s.tokens.length < fuel)
    (hdepth : s.exprDepth < maxExpressionDepth) (htype : isTypeKeyword s.next.text = true) :
    wp OnlyNull (parseFunction fuel) (fun _ s' => Later s s' ∧ Takes s s') s := by
  unfold parseFunction
  refine wp_seq (parseType_takes htype) fun returnType s₁ hs₁ => ?_
  simp only [wp_bind, wp_get]
  refine wp_ite (fun _ => hs₁) fun _ => ?_
  simp only [wp_bind, wp_modify, wp_get]
  have hname := parserConsume_later s₁ .identifier "expected function name."
  generalize parserConsume s₁ .identifier "expected function name." = s₂ at hname ⊢
  have hparen := hname.trans (parserConsume_later s₂ .lparen "expected '(' after function name.")
  generalize parserConsume s₂ .lparen "expected '(' after function name." = s₃ at hparen ⊢
  have hlt : s₃.tokens.length < fuel := by
    have := (hs₁.1.trans hparen).length_le
    omega
  refine wp_mono (parseParamList_ends hlt) fun params s₄ hs₄ => ?_
  have hclose := (hparen.trans hs₄).trans
    (parserConsume_later s₄ .rparen "expected ')' after parameters.")
  generalize parserConsume s₄ .rparen "expected ')' after parameters." = s₅ at hclose ⊢
  have hend : ∀ s₆, Later s₅ s₆ → Later s { s₆ with arena := s₆.arena + 1 } ∧
      Takes s { s₆ with arena := s₆.arena + 1 } := by
    intro s₆ hs₆
    have hrest := (hclose.trans hs₆).trans (later_newNode s₆)
    exact ⟨hs₁.1.trans hrest, hs₁.2.later hrest⟩
  refine wp_matchToken (fun _ => ?_) fun _ => ?_
  · exact hend _ (parserAdvance_later s₅)
  · have hall := hs₁.1.trans hclose
    have hbrace := parserConsume_later s₅ .lbrace "Expected '\x7b'"
    have hle := (hall.trans hbrace).length_le
    refine wp_seq (parseBlock_ends (parseStatement_ends fuel) (by omega)
      (by rw [hall.depth]; exact hdepth)) fun body s₆ hs₆ => ?_
    exact hend s₆ hs₆.1

theorem declarationTurn_ends {fuel : Nat} {s : Parser} (hs : s.tokens.length < fuel)
    (hdepth : s.exprDepth < maxExpressionDepth) (declarations : List ASTNode) :
    wp OnlyNull (declarationTurn fuel declarations) (fun r s' => Later s s' ∧
      ∀ b, r = .again b → s'.tokens.length < s.tokens.length) s := by
  unfold declarationTurn
  simp only [wp_bind, wp_get]
  refine wp_ite (fun _ => turn_leaves (.refl s)) fun heof => ?_
  refine wp_ite (fun _ => turn_leaves (parserError_later s _)) fun _ => ?_
  refine wp_ite (fun htype => ?_) fun _ => turn_leaves (parserError_later s _)
  refine wp_seq (parseFunction_ends hs hdepth htype) fun node s' hs' => ?_
  exact ⟨hs'.1, fun _ _ => hs'.2.lt heof⟩

theorem parseUnit_ends {fuel : Nat} {s : Parser} (hs : s.tokens.length < fuel)
    (hdepth : s.exprDepth < maxExpressionDepth) :
    wp OnlyNull (parseUnit fuel) (fun _ s' => Later s s') s := by
  unfold parseUnit
  refine wp_seq (wp_loop_later (fun declarations s' hs' => ?_) (Nat.lt_succ_of_lt hs))
    fun r s' hs' => ?_
  · exact declarationTurn_ends (Nat.lt_of_le_of_lt hs'.length_le hs)
      (by rw [hs'.depth]; exact hdepth) declarations
  · split
    · exact hs'.trans (later_newNode s')
    · exact hs'

theorem parserInit_tokens (lexer : TokenStream) (filename : String) (arena : Nat)
    (errors : ErrorContext) : (parserInit lexer filename arena errors).tokens = lexer.proper :=
  lexer.proper_nextProper

/-! ## Termination -/

/-- A computation comes to an end: it stops at a null pointer or returns. -/
def Ends {α : Type} (x : ParseM α) (s : Parser) (Q : α → Parser → Prop) : Prop :=
  x s = .error .nullPointer ∨ ∃ a s', x s = .ok (a, s') ∧ Q a s'

theorem ends_of_wp {α : Type} {x : ParseM α} {s : Parser} {Q Q' : α → Parser → Prop}
    (h : wp OnlyNull x Q s) (hQ : ∀ a s', Q a s' → Q' a s') : Ends x s Q' := by
  cases hrun : x s with
  | ok r => exact .inr ⟨r.1, r.2, hrun, hQ _ _ (wp_of_ok hrun h)⟩
  | error e =>
    have he : OnlyNull e := wp_of_error hrun h
    obtain rfl := he
    exact .inl hrun

/-- The expression depth is that before, and there are fewer tokens if there were any. -/
def TakesToken (s s' : Parser) : Prop :=
  s'.exprDepth = s.exprDepth ∧ (s.next.type ≠ .eof → s'.tokens.length < s.tokens.length)

/-- A turn after which its loop goes on took a token. -/
def TurnTakesToken {β γ : Type} (s : Parser) (r : Turn β γ) (s' : Parser) : Prop :=
  s'.exprDepth = s.exprDepth ∧ ∀ b, r = .again b → s'.tokens.length < s.tokens.length

theorem turn_ends_of_wp {β γ : Type} {x : ParseM (Turn β γ)} {s : Parser} (h : TurnEnds x s) :
    Ends x s (TurnTakesToken s) :=
  ends_of_wp h fun _ _ hr => ⟨hr.1.depth, hr.2⟩

/-- Parsing ends on every stream of tokens.  A bound on calls and turns that exceeds the
number of tokens to come is never met, whatever the parser does about errors; every
statement takes a token, and so does every turn of a loop that is not its last. -/
theorem parsing_ends :
    (∀ s n, s.tokens.length ≤ n → Synchronized (parserSynchronize s) ∧
      synchronizeLoop n { s with panicMode := false } = parserSynchronize s) ∧
    (∀ fuel s, s.tokens.length < fuel →
      (∀ p, Ends (parseExpression fuel p) s fun _ s' => s'.exprDepth = s.exprDepth) ∧
      (∀ callee, Ends (parseCall (parseExpression fuel) fuel callee) s fun _ s' =>
        s'.exprDepth = s.exprDepth) ∧
      (∀ p left, Ends (infixTurn (parseExpression fuel) fuel p left) s (TurnTakesToken s)) ∧
      (∀ args, Ends (argTurn (parseExpression fuel) args) s (TurnTakesToken s)) ∧
      (∀ params, Ends (paramTurn params) s (TurnTakesToken s)) ∧
      (s.exprDepth < maxExpressionDepth →
        Ends (parseStatement fuel) s (fun _ => TakesToken s) ∧
        Ends (parseBlock (parseStatement fuel) fuel) s (fun _ s' =>
          s'.exprDepth = s.exprDepth) ∧
        (∀ stmts, Ends (blockTurn (parseStatement fuel) stmts) s fun r s' =>
          TurnTakesToken s r s' ∧
            (s.next.type ≠ .rbrace → stmts.length < maxBlockStatements → TakesToken s s')) ∧
        ∀ declarations, Ends (declarationTurn fuel declarations) s (TurnTakesToken s))) ∧
    (∀ lexer filename arena errors, Ends (parseUnit (lexer.proper.length + 1))
      (parserInit lexer filename arena errors) fun _ s' => s'.exprDepth = 0) ∧
    ∀ s : Parser, s.exprDepth ≤ maxExpressionDepth := by
  refine ⟨fun s n hn => parserSynchronize_spec hn, fun fuel s hs => ?_, ?_,
    fun s => s.depthLe⟩
  · have hexpr := parseExpression_ends fuel
    have hstmt := parseStatement_ends fuel
    refine ⟨fun p => ?_, fun callee => ?_, fun p left => ?_, fun args => ?_, fun params => ?_,
      fun hdepth => ⟨?_, ?_, fun stmts => ?_, fun declarations => ?_⟩⟩
    · exact ends_of_wp (hexpr.later p hs) fun _ _ h => h.depth
    · exact ends_of_wp (parseCall_ends hexpr hs callee) fun _ _ h => h.depth
    · exact turn_ends_of_wp (infixTurn_ends hexpr hs p left)
    · exact turn_ends_of_wp (argTurn_ends hexpr hs args)
    · exact turn_ends_of_wp (paramTurn_ends params s)
    · exact ends_of_wp (hstmt s hs hdepth) fun _ _ h => ⟨h.1.depth, h.2.lt⟩
    · have hle := (parserConsume_later s .lbrace "Expected '\x7b'").length_le
      exact ends_of_wp (parseBlock_ends hstmt (by omega) hdepth) fun _ _ h => h.1.depth
    · refine ends_of_wp (blockTurn_takes hstmt hs hdepth stmts) fun r s' h => ?_
      exact ⟨⟨h.1.depth, h.2.1⟩, fun hbrace hroom => ⟨h.1.depth, fun heof =>
        h.2.2 hbrace heof hroom⟩⟩
    · exact turn_ends_of_wp (declarationTurn_ends hs hdepth declarations)
  · intro lexer filename arena errors
    have htokens := parserInit_tokens lexer filename arena errors
    refine ends_of_wp (parseUnit_ends (by rw [htokens]; exact Nat.lt_succ_self _)
      (by show 0 < 128; decide)) fun _ s' h => h.depth

theorem parsing_ends_assignment :
    Ends (parseStatement 9) (parserInit (tokenStream (svOf "x = x + 1;")) "a.c" 0 .init)
      (fun _ => TakesToken (parserInit (tokenStream (svOf "x = x + 1;")) "a.c" 0 .init)) :=
  ((parsing_ends.2.1 9 (parserInit (tokenStream (svOf "x = x + 1;")) "a.c" 0 .init)
    (by decide +kernel)).2.2.2.2.2 (by decide +kernel)).1

/-- What `parse_function` does up to the parameter list. -/
def functionHead : ParseM PUnit := do
  let _ ← parseType
  modify (parserConsume · .identifier "expected function name.")
  modify (parserConsume · .lparen "expected '(' after function name.")

/-- The last turn of a loop may take nothing: here the only turn over the parameters, in
front of a brace at which the error recovery stops at once. -/
theorem paramTurn_takes_nothing :
    ∃ s s' params,
      functionHead (parserInit (tokenStream (svOf "int f(\x7b\x7d")) "a.c" 0 .init) =
        .ok (⟨⟩, s) ∧
      s.next.type = .lbrace ∧ paramTurn [] s = .ok (.leave params, s') ∧ s'.tokens = s.tokens :=
  ⟨_, _, _, rfl, by decide +kernel, rfl, by decide +kernel⟩

end TinyCompile.Parser
