import TinyCompile.Parser.Grammar

set_option autoImplicit false

/-!
# Parser: the text of a program

A program is printed as a sequence of lexemes, that is of tokens without positions, with
the parentheses its precedences require.  `nesting` counts what `expr_depth` will count
when the text is parsed.  Whatever tokens the printed lexemes turn into, they are a way to
write the program.
-/

namespace TinyCompile.Parser

open TinyCompile.Source

/-! ## Lexemes -/

/-- A token without its position. -/
abbrev Lexeme : Type := TokenType × StringView

/-- What a token is. -/
def Token.lexeme (t : Token) : Lexeme := (t.type, t.text)

/-- The lexeme of a token type that has one spelling.  The lexer leaves the text of the
comparison operators, of `=` and of `!` empty. -/
def mark (type : TokenType) : Lexeme :=
  (type, if spells type [] then [] else svOf (tokenTypeName type))

/-- The name of a type: a keyword, or an identifier. -/
def typeLexeme (type : DataType) : Lexeme :=
  (checkKeyword (svOf (typeName type)), svOf (typeName type))

/-- The token type of a binary operator. -/
def binaryToken : BinaryOp → TokenType
  | .add => .plus
  | .sub => .minus
  | .mul => .star
  | .div => .slash
  | .equal => .equalEqual
  | .notEqual => .bangEqual
  | .less => .less
  | .lessEqual => .lessEqual
  | .greater => .greater
  | .greaterEqual => .greaterEqual
  | .bitAnd => .bitAnd
  | .bitOr => .bitOr
  | .bitXor => .bitXor
  | .lshift => .lshift
  | .rshift => .rshift

/-- The token type of a unary operator. -/
def unaryToken : UnaryOp → TokenType
  | .negate => .minus
  | .not => .bang
  | .bitNot => .bitNot

/-- The binding strength of a binary operator. -/
def binaryRank (op : BinaryOp) : Nat := (getTokenPrecedence (binaryToken op)).rank

@[simp] theorem binaryOp_token (op : BinaryOp) : binaryOp (binaryToken op) = some op := by
  cases op <;> rfl

@[simp] theorem unaryOp_token (op : UnaryOp) : unaryOp (unaryToken op) = some op := by
  cases op <;> rfl

theorem binaryRank_pos (op : BinaryOp) : 0 < binaryRank op := by
  cases op <;> decide

/-! ## Printing -/

/-- Parentheses around `xs`, if they are required. -/
def parens (required : Bool) (xs : List Lexeme) : List Lexeme :=
  if required then mark .lparen :: (xs ++ [mark .rparen]) else xs

mutual

/-- An expression where only what binds stronger than `p` can stand without
parentheses. -/
def printExpr : Nat → Expr → List Lexeme
  | _, .number text => [(.number, text)]
  | _, .identifier name => [(.identifier, name)]
  | p, .binary op left right =>
      parens (binaryRank op ≤ p) (printExpr (binaryRank op - 1) left ++
        mark (binaryToken op) :: printExpr (binaryRank op) right)
  | _, .unary op operand => mark (unaryToken op) :: printExpr Precedence.unary.rank operand
  | p, .assignment name value =>
      parens (Precedence.assignment.rank ≤ p) ((.identifier, name) :: mark .equal ::
        printExpr Precedence.assignment.rank value)
  | _, .call name args => (.identifier, name) :: mark .lparen :: (printArgs args ++ [mark .rparen])

/-- The arguments of a call. -/
def printArgs : List Expr → List Lexeme
  | [] => []
  | e :: es => printExpr Precedence.assignment.rank e ++ printMoreArgs es

/-- The arguments behind the first. -/
def printMoreArgs : List Expr → List Lexeme
  | [] => []
  | e :: es => mark .comma :: (printExpr Precedence.assignment.rank e ++ printMoreArgs es)

end

mutual

/-- How deep `parse_expression` nests when it reads the printed expression. -/
def nesting : Nat → Expr → Nat
  | _, .number _ => 1
  | _, .identifier _ => 1
  | p, .binary op left right =>
      max (nesting (binaryRank op - 1) left) (nesting (binaryRank op) right + 1) +
        (decide (binaryRank op ≤ p)).toNat
  | _, .unary _ operand => nesting Precedence.unary.rank operand + 1
  | p, .assignment _ value =>
      nesting Precedence.assignment.rank value + 1 + (decide (Precedence.assignment.rank ≤ p)).toNat
  | _, .call _ args => nestingArgs args + 1

/-- The nesting of the arguments of a call. -/
def nestingArgs : List Expr → Nat
  | [] => 0
  | e :: es => max (nesting Precedence.assignment.rank e) (nestingArgs es)

end

/-- A declaration of a variable, up to the semicolon or the initializer. -/
def printDecl (type : DataType) (name : StringView) : List Lexeme :=
  [typeLexeme type, (.identifier, name)]

/-- The keyword and the condition in parentheses of `if` and `while`. -/
def printCondition (kw : TokenType) (c : Expr) : List Lexeme :=
  mark kw :: mark .lparen :: (printExpr 0 c ++ [mark .rparen])

mutual

/-- A statement. -/
def printStmt : Stmt → List Lexeme
  | .expr e => printExpr 0 e ++ [mark .semicolon]
  | .varDecl name type none => printDecl type name ++ [mark .semicolon]
  | .varDecl name type (some e) =>
      printDecl type name ++ mark .equal :: (printExpr 0 e ++ [mark .semicolon])
  | .ifThen c t => printCondition .ifKw c ++ printStmt t
  | .ifElse c t e => printCondition .ifKw c ++ (printStmt t ++ mark .elseKw :: printStmt e)
  | .whileLoop c body => printCondition .whileKw c ++ printStmt body
  | .block statements => mark .lbrace :: (printStmts statements ++ [mark .rbrace])
  | .ret none => [mark .returnKw, mark .semicolon]
  | .ret (some e) => mark .returnKw :: (printExpr 0 e ++ [mark .semicolon])

/-- The statements of a block. -/
def printStmts : List Stmt → List Lexeme
  | [] => []
  | st :: sts => printStmt st ++ printStmts sts

end

/-- The parameters of a function. -/
def printParams : List Parameter → List Lexeme
  | [] => []
  | [param] => printDecl param.type param.name
  | param :: param' :: params =>
      printDecl param.type param.name ++ mark .comma :: printParams (param' :: params)

/-- A prototype or a function with its body. -/
def printFunction (f : Function) : List Lexeme :=
  printDecl f.returnType f.name ++ mark .lparen :: (printParams f.params ++ mark .rparen ::
    match f.body with
    | none => [mark .semicolon]
    | some body => printStmt (.block body))

/-- A file. -/
def printUnit (u : TranslationUnit) : List Lexeme := u.flatMap printFunction

/-! ## What can be printed -/

mutual

/-- The names and numerals of an expression are some, and no call has too many
arguments. -/
def writableExpr : Expr → Bool
  | .number text => isNumeral text
  | .identifier name => isName name
  | .binary _ left right => writableExpr left && writableExpr right
  | .unary _ operand => writableExpr operand
  | .assignment name value => isName name && writableExpr value
  | .call name args =>
      isName name && decide (args.length ≤ maxParamsPerFunction) && writableArgs args

/-- The same of the arguments of a call. -/
def writableArgs : List Expr → Bool
  | [] => true
  | e :: es => writableExpr e && writableArgs es

end

/-- A whole expression that does not nest too deep. -/
def writableWhole (e : Expr) : Bool :=
  writableExpr e && decide (nesting 0 e ≤ maxExpressionDepth)

/-- The types that start a declaration in a function: those with a keyword. -/
def declares (type : DataType) : Bool :=
  (rules (typeLexeme type).1).stmtFn == some .parseVarDecl

mutual

/-- A statement that can be written: its declarations have a type with a keyword, no
`else` would belong to another `if`, and no block is too long. -/
def writableStmt : Stmt → Bool
  | .expr e => writableWhole e
  | .varDecl name type none => declares type && isName name
  | .varDecl name type (some e) => declares type && isName name && writableWhole e
  | .ifThen c t => writableWhole c && writableStmt t
  | .ifElse c t e => writableWhole c && writableStmt t && !openIf t && writableStmt e
  | .whileLoop c body => writableWhole c && writableStmt body
  | .block statements =>
      decide (statements.length ≤ maxBlockStatements) && writableStmts statements
  | .ret none => true
  | .ret (some e) => writableWhole e

/-- The same of the statements of a block. -/
def writableStmts : List Stmt → Bool
  | [] => true
  | st :: sts => writableStmt st && writableStmts sts

end

/-- A function that can be written: it has room for its parameters, and the first of them
is not a `void`, which would be taken for an empty list. -/
def writableFunction (f : Function) : Bool :=
  isName f.name && decide (f.params.length ≤ paramCapacity) &&
    f.params.all (fun param => isName param.name) &&
    f.params.head?.all (fun param => param.type != .void) &&
    match f.body with
    | none => true
    | some body => writableStmt (.block body)

/-- A file that can be written. -/
def writableUnit (u : TranslationUnit) : Bool :=
  decide (u.length ≤ maxFunctionCount) && u.all writableFunction

/-! ## Tokens with given lexemes -/

theorem lexeme_eq {t : Token} {x : Lexeme} (h : t.lexeme = x) : t.type = x.1 ∧ t.text = x.2 := by
  rw [← h]
  exact ⟨rfl, rfl⟩

/-- Tokens that print as one sequence and then another. -/
theorem lexemes_append {ts : List Token} {xs ys : List Lexeme}
    (h : ts.map Token.lexeme = xs ++ ys) :
    ∃ us vs, ts = us ++ vs ∧ us.map Token.lexeme = xs ∧ vs.map Token.lexeme = ys :=
  List.map_eq_append_iff.mp h

/-- Tokens that print as one lexeme and then others. -/
theorem lexemes_cons {ts : List Token} {x : Lexeme} {xs : List Lexeme}
    (h : ts.map Token.lexeme = x :: xs) :
    ∃ t us, ts = t :: us ∧ t.lexeme = x ∧ us.map Token.lexeme = xs :=
  List.map_eq_cons_iff.mp h

theorem lexemes_nil {ts : List Token} (h : ts.map Token.lexeme = []) : ts = [] :=
  List.map_eq_nil_iff.mp h

/-- Tokens that print as others with one behind. -/
theorem lexemes_snoc {ts : List Token} {x : Lexeme} {xs : List Lexeme}
    (h : ts.map Token.lexeme = xs ++ [x]) :
    ∃ us t, ts = us ++ [t] ∧ us.map Token.lexeme = xs ∧ t.lexeme = x := by
  obtain ⟨us, vs, rfl, hus, hvs⟩ := lexemes_append h
  obtain ⟨t, rest, rfl, ht, hrest⟩ := lexemes_cons hvs
  rw [lexemes_nil hrest]
  exact ⟨us, t, rfl, hus, ht⟩

/-! ## Expressions -/

/-- What an expression derives wherever it is printed. -/
def PrintsTo (e : Expr) : Prop :=
  ∀ ⦃p d : Nat⦄ ⦃ts : List Token⦄, p ≤ Precedence.unary.rank → nesting p e ≤ d →
    ts.map Token.lexeme = printExpr p e → DerivesExpr d p ts e

/-- What is derived with any weaker operator around it is derived with the parentheses it
needs. -/
theorem derives_parens {k p d depth : Nat} {xs : List Lexeme} {e : Expr} (hk : 0 < k)
    (hinner : ∀ {q d us}, q < k → depth ≤ d → us.map Token.lexeme = xs → DerivesExpr d q us e)
    (hd : depth + (decide (k ≤ p)).toNat ≤ d) {ts : List Token}
    (hts : ts.map Token.lexeme = parens (k ≤ p) xs) : DerivesExpr d p ts e := by
  unfold parens at hts
  by_cases hp : k ≤ p
  · simp only [hp, decide_true, if_true, Bool.toNat_true] at hts hd
    obtain ⟨l, us, rfl, hl, hus⟩ := lexemes_cons hts
    obtain ⟨us, r, rfl, hus, hr⟩ := lexemes_snoc hus
    obtain ⟨d, rfl⟩ := Nat.exists_eq_succ_of_ne_zero (n := d) (by omega)
    exact .grouping (lexeme_eq hl).1 (lexeme_eq hr).1 (hinner hk (by omega) hus)
  · simp only [hp, decide_false, Bool.false_eq_true, if_false, Bool.toNat_false] at hts hd
    exact hinner (Nat.lt_of_not_le hp) hd hts

theorem rank_of_lexeme {t : Token} {type : TokenType} (h : t.lexeme = mark type) :
    t.type = type ∧ t.rank = (getTokenPrecedence type).rank := by
  have htype : t.type = type := (lexeme_eq h).1
  refine ⟨htype, ?_⟩
  unfold Token.rank
  rw [htype]

theorem derives_binary {p d : Nat} {op : BinaryOp} {left right : Expr}
    (hleft : PrintsTo left) (hright : PrintsTo right)
    (hd : nesting p (.binary op left right) ≤ d) {ts : List Token}
    (hts : ts.map Token.lexeme = printExpr p (.binary op left right)) :
    DerivesExpr d p ts (.binary op left right) := by
  have hrank : binaryRank op ≤ Precedence.unary.rank := by cases op <;> decide
  have hpos := binaryRank_pos op
  rw [nesting] at hd
  rw [printExpr] at hts
  refine derives_parens hpos (fun {q d us} hq hd hus => ?_) hd hts
  obtain ⟨ls, vs, rfl, hls, hvs⟩ := lexemes_append hus
  obtain ⟨t, rs, rfl, ht, hrs⟩ := lexemes_cons hvs
  obtain ⟨htype, htrank⟩ := rank_of_lexeme ht
  have htrank' : t.rank = binaryRank op := htrank
  obtain ⟨d, rfl⟩ := Nat.exists_eq_succ_of_ne_zero (n := d) (by omega)
  refine .binary (by rw [htype, binaryOp_token]) (by omega) ?_ ?_
  · rw [htrank']
    exact hleft (by omega) (by omega) hls
  · rw [htrank']
    exact hright hrank (by omega) hrs

theorem derives_assignment {p d : Nat} {name : StringView} {value : Expr}
    (hvalue : PrintsTo value)
    (hd : nesting p (.assignment name value) ≤ d) {ts : List Token}
    (hts : ts.map Token.lexeme = printExpr p (.assignment name value)) :
    DerivesExpr d p ts (.assignment name value) := by
  rw [nesting] at hd
  rw [printExpr] at hts
  refine derives_parens (by decide) (fun {q d us} hq hd hus => ?_) hd hts
  obtain ⟨x, vs, rfl, hx, hvs⟩ := lexemes_cons hus
  obtain ⟨t, rs, rfl, ht, hrs⟩ := lexemes_cons hvs
  obtain ⟨d, rfl⟩ := Nat.exists_eq_succ_of_ne_zero (n := d) (by omega)
  obtain ⟨hxtype, rfl⟩ := lexeme_eq hx
  have hname : DerivesExpr (d + 1) q [x] (.identifier x.text) := .identifier hxtype
  exact DerivesExpr.assignment (lexeme_eq ht).1 hq hname (hvalue (by decide) (by omega) hrs)

/-- The arguments behind the first, with the commas in front of them. -/
theorem derives_moreArgs {es : List Expr} (h : ∀ e ∈ es, PrintsTo e) {d : Nat}
    (hd : nestingArgs es ≤ d) {ts : List Token} (hts : ts.map Token.lexeme = printMoreArgs es) :
    ∃ parts : List (List Token × Expr), parts.map (·.2) = es ∧
      (∀ part ∈ parts, DerivesExpr d Precedence.assignment.rank part.1 part.2) ∧
      ∀ us, Separated (us :: parts.map (·.1)) (us ++ ts) := by
  induction es generalizing ts with
  | nil =>
    rw [printMoreArgs] at hts
    obtain rfl := lexemes_nil hts
    refine ⟨[], rfl, nofun, fun us => ?_⟩
    rw [List.append_nil]
    exact .one us
  | cons e es ih =>
    rw [printMoreArgs] at hts
    rw [nestingArgs] at hd
    obtain ⟨c, vs, rfl, hc, hvs⟩ := lexemes_cons hts
    obtain ⟨as, vs, rfl, has, hvs⟩ := lexemes_append hvs
    have hd' : nestingArgs es ≤ d := by omega
    obtain ⟨parts, rfl, hparts, hsep⟩ :=
      ih (fun e he => h e (List.mem_cons_of_mem _ he)) hd' hvs
    refine ⟨(as, e) :: parts, rfl, ?_, fun us => .cons us (lexeme_eq hc).1 (hsep as)⟩
    intro part hpart
    rcases List.mem_cons.mp hpart with rfl | hpart
    · exact h e (by simp) (by decide) (by omega) has
    · exact hparts part hpart

theorem derives_args {es : List Expr} (h : ∀ e ∈ es, PrintsTo e) {d : Nat}
    (hd : nestingArgs es ≤ d) {ts : List Token} (hts : ts.map Token.lexeme = printArgs es) :
    ∃ parts : List (List Token × Expr), parts.map (·.2) = es ∧
      (∀ part ∈ parts, DerivesExpr d Precedence.assignment.rank part.1 part.2) ∧
      Separated (parts.map (·.1)) ts := by
  cases es with
  | nil =>
    rw [printArgs] at hts
    obtain rfl := lexemes_nil hts
    exact ⟨[], rfl, nofun, .nil⟩
  | cons e es =>
    rw [printArgs] at hts
    rw [nestingArgs] at hd
    obtain ⟨as, vs, rfl, has, hvs⟩ := lexemes_append hts
    have hd' : nestingArgs es ≤ d := by omega
    obtain ⟨parts, rfl, hparts, hsep⟩ :=
      derives_moreArgs (fun e he => h e (List.mem_cons_of_mem _ he)) hd' hvs
    refine ⟨(as, e) :: parts, rfl, ?_, hsep as⟩
    intro part hpart
    rcases List.mem_cons.mp hpart with rfl | hpart
    · exact h e (by simp) (by decide) (by omega) has
    · exact hparts part hpart

mutual

/-- A printed expression derives the expression. -/
theorem printExpr_derives : ∀ e : Expr, writableExpr e = true → PrintsTo e
  | .number text, _ => by
    intro p d ts hp hd hts
    rw [printExpr] at hts
    obtain ⟨t, us, rfl, ht, hus⟩ := lexemes_cons hts
    obtain rfl := lexemes_nil hus
    obtain ⟨htype, rfl⟩ := lexeme_eq ht
    obtain ⟨d, rfl⟩ := Nat.exists_eq_succ_of_ne_zero (Nat.ne_zero_of_lt hd)
    exact .number htype
  | .identifier name, _ => by
    intro p d ts hp hd hts
    rw [printExpr] at hts
    obtain ⟨t, us, rfl, ht, hus⟩ := lexemes_cons hts
    obtain rfl := lexemes_nil hus
    obtain ⟨htype, rfl⟩ := lexeme_eq ht
    obtain ⟨d, rfl⟩ := Nat.exists_eq_succ_of_ne_zero (Nat.ne_zero_of_lt hd)
    exact .identifier htype
  | .binary op left right, h => by
    rw [writableExpr, Bool.and_eq_true] at h
    have ihleft := printExpr_derives left h.1
    have ihright := printExpr_derives right h.2
    intro p d ts _ hd hts
    exact derives_binary ihleft ihright hd hts
  | .unary op operand, h => by
    rw [writableExpr] at h
    have ih := printExpr_derives operand h
    intro p d ts hp hd hts
    rw [nesting] at hd
    rw [printExpr] at hts
    obtain ⟨t, us, rfl, ht, hus⟩ := lexemes_cons hts
    obtain ⟨d, rfl⟩ := Nat.exists_eq_succ_of_ne_zero (Nat.ne_zero_of_lt hd)
    refine .unary ?_ (ih (Nat.le_refl _) (by omega) hus)
    rw [(rank_of_lexeme ht).1, unaryOp_token]
  | .assignment name value, h => by
    rw [writableExpr, Bool.and_eq_true] at h
    have ih := printExpr_derives value h.2
    intro p d ts _ hd hts
    exact derives_assignment ih hd hts
  | .call name args, h => by
    simp only [writableExpr, Bool.and_eq_true, decide_eq_true_eq] at h
    have ih := printArgs_derives args h.2
    have hcount := h.1.2
    intro p d ts hp hd hts
    rw [nesting] at hd
    rw [printExpr] at hts
    obtain ⟨x, us, rfl, hx, hus⟩ := lexemes_cons hts
    obtain ⟨l, us, rfl, hl, hus⟩ := lexemes_cons hus
    obtain ⟨as, r, rfl, has, hr⟩ := lexemes_snoc hus
    obtain ⟨d, rfl⟩ := Nat.exists_eq_succ_of_ne_zero (Nat.ne_zero_of_lt hd)
    obtain ⟨hxtype, rfl⟩ := lexeme_eq hx
    have hd' : nestingArgs args ≤ d := by omega
    obtain ⟨parts, rfl, hparts, hsep⟩ := derives_args ih hd' has
    have hname : DerivesExpr (d + 1) p [x] (.identifier x.text) := .identifier hxtype
    exact DerivesExpr.call (lexeme_eq hl).1 (lexeme_eq hr).1 (Nat.lt_succ_of_le hp) hname hparts
      (by simpa using hcount) hsep

theorem printArgs_derives : ∀ es : List Expr, writableArgs es = true → ∀ e ∈ es, PrintsTo e
  | [], _ => nofun
  | e :: es, h => by
    rw [writableArgs, Bool.and_eq_true] at h
    have hfirst := printExpr_derives e h.1
    have hmore := printArgs_derives es h.2
    intro e' he'
    rcases List.mem_cons.mp he' with rfl | he'
    · exact hfirst
    · exact hmore e' he'

end

/-- A whole expression. -/
theorem printExpr_writes {e : Expr} (h : writableWhole e = true) {ts : List Token}
    (hts : ts.map Token.lexeme = printExpr 0 e) : WritesExpr ts e := by
  simp only [writableWhole, Bool.and_eq_true, decide_eq_true_eq] at h
  exact printExpr_derives e h.1 (Nat.zero_le _) h.2 hts

/-! ## Statements -/

/-- The name of a type is read back as the type. -/
theorem typeFromSv_typeName (type : DataType) : typeFromSv (svOf (typeName type)) = type := by
  cases type <;> decide

theorem isTypeKeyword_typeName (type : DataType) :
    isTypeKeyword (svOf (typeName type)) = true := by
  cases type <;> decide

/-- The tokens of a type and a name. -/
theorem lexemes_decl {ts : List Token} {type : DataType} {name : StringView} {xs : List Lexeme}
    (h : ts.map Token.lexeme = printDecl type name ++ xs) :
    ∃ ty x us, ts = ty :: x :: us ∧ ty.type = (typeLexeme type).1 ∧
      isTypeKeyword ty.text = true ∧ typeFromSv ty.text = type ∧ x.type = .identifier ∧
      x.text = name ∧ us.map Token.lexeme = xs := by
  obtain ⟨ty, us, rfl, hty, hus⟩ := lexemes_cons h
  obtain ⟨x, us, rfl, hx, hus⟩ := lexemes_cons hus
  obtain ⟨htype, htext⟩ := lexeme_eq hty
  have htext' : ty.text = svOf (typeName type) := htext
  refine ⟨ty, x, us, rfl, htype, ?_, ?_, (lexeme_eq hx).1, (lexeme_eq hx).2, hus⟩
  · rw [htext', isTypeKeyword_typeName]
  · rw [htext', typeFromSv_typeName]

/-- The tokens of a keyword and a condition. -/
theorem lexemes_condition {ts : List Token} {kw : TokenType} {c : Expr} {xs : List Lexeme}
    (hc : writableWhole c = true) (h : ts.map Token.lexeme = printCondition kw c ++ xs) :
    ∃ k l cs r us, ts = k :: l :: (cs ++ r :: us) ∧ k.type = kw ∧ l.type = .lparen ∧
      WritesExpr cs c ∧ r.type = .rparen ∧ us.map Token.lexeme = xs := by
  obtain ⟨k, ks, rfl, hk, hks⟩ := lexemes_cons h
  obtain ⟨l, ls, rfl, hl, hls⟩ := lexemes_cons hks
  obtain ⟨vs, us, rfl, hvs, hus⟩ := lexemes_append hls
  obtain ⟨cs, r, rfl, hcs, hr⟩ := lexemes_snoc hvs
  exact ⟨k, l, cs, r, us, by simp, (lexeme_eq hk).1, (lexeme_eq hl).1, printExpr_writes hc hcs,
    (lexeme_eq hr).1, hus⟩

mutual

/-- A printed statement derives the statement. -/
theorem printStmt_derives : ∀ {st : Stmt} {ts : List Token}, writableStmt st = true →
    ts.map Token.lexeme = printStmt st → DerivesStmt ts st
  | .expr e, ts, h, hts => by
    rw [writableStmt] at h
    rw [printStmt] at hts
    obtain ⟨us, semi, rfl, hus, hsemi⟩ := lexemes_snoc hts
    exact .expr (lexeme_eq hsemi).1 (printExpr_writes h hus)
  | .varDecl name type none, ts, h, hts => by
    simp only [writableStmt, Bool.and_eq_true, declares, beq_iff_eq] at h
    rw [printStmt] at hts
    obtain ⟨ty, x, us, rfl, hty, -, rfl, hx, rfl, hus⟩ := lexemes_decl hts
    obtain ⟨semi, us, rfl, hsemi, hus⟩ := lexemes_cons hus
    obtain rfl := lexemes_nil hus
    exact .varDecl (by rw [hty, h.1]) hx (lexeme_eq hsemi).1
  | .varDecl name type (some e), ts, h, hts => by
    simp only [writableStmt, Bool.and_eq_true, declares, beq_iff_eq] at h
    rw [printStmt] at hts
    obtain ⟨ty, x, us, rfl, hty, -, rfl, hx, rfl, hus⟩ := lexemes_decl hts
    obtain ⟨eq, us, rfl, heq, hus⟩ := lexemes_cons hus
    obtain ⟨us, semi, rfl, hus, hsemi⟩ := lexemes_snoc hus
    exact .varInit (by rw [hty, h.1.1]) hx (lexeme_eq heq).1 (printExpr_writes h.2 hus)
      (lexeme_eq hsemi).1
  | .ifThen c t, ts, h, hts => by
    rw [writableStmt, Bool.and_eq_true] at h
    rw [printStmt] at hts
    obtain ⟨k, l, cs, r, us, rfl, hk, hl, hcs, hr, hus⟩ := lexemes_condition h.1 hts
    exact .ifThen hk hl hcs hr (printStmt_derives h.2 hus)
  | .ifElse c t e, ts, h, hts => by
    simp only [writableStmt, Bool.and_eq_true, Bool.not_eq_true'] at h
    obtain ⟨⟨⟨hc, ht⟩, hclosed⟩, he⟩ := h
    rw [printStmt] at hts
    obtain ⟨k, l, cs, r, us, rfl, hk, hl, hcs, hr, hus⟩ := lexemes_condition hc hts
    obtain ⟨vs, ws, rfl, hvs, hws⟩ := lexemes_append hus
    obtain ⟨k', es, rfl, hk', hes⟩ := lexemes_cons hws
    exact .ifElse hk hl hcs hr (printStmt_derives ht hvs) hclosed (lexeme_eq hk').1
      (printStmt_derives he hes)
  | .whileLoop c body, ts, h, hts => by
    rw [writableStmt, Bool.and_eq_true] at h
    rw [printStmt] at hts
    obtain ⟨k, l, cs, r, us, rfl, hk, hl, hcs, hr, hus⟩ := lexemes_condition h.1 hts
    exact .whileLoop hk hl hcs hr (printStmt_derives h.2 hus)
  | .block statements, ts, h, hts => by
    simp only [writableStmt, Bool.and_eq_true, decide_eq_true_eq] at h
    rw [printStmt] at hts
    obtain ⟨l, us, rfl, hl, hus⟩ := lexemes_cons hts
    obtain ⟨us, r, rfl, hus, hr⟩ := lexemes_snoc hus
    obtain ⟨parts, rfl, rfl, hparts⟩ := printStmts_derives h.2 hus
    exact .block (lexeme_eq hl).1 (lexeme_eq hr).1 hparts (by simpa using h.1)
  | .ret none, ts, _, hts => by
    rw [printStmt] at hts
    obtain ⟨k, us, rfl, hk, hus⟩ := lexemes_cons hts
    obtain ⟨semi, us, rfl, hsemi, hus⟩ := lexemes_cons hus
    obtain rfl := lexemes_nil hus
    exact .ret (lexeme_eq hk).1 (lexeme_eq hsemi).1
  | .ret (some e), ts, h, hts => by
    rw [writableStmt] at h
    rw [printStmt] at hts
    obtain ⟨k, us, rfl, hk, hus⟩ := lexemes_cons hts
    obtain ⟨us, semi, rfl, hus, hsemi⟩ := lexemes_snoc hus
    exact .retValue (lexeme_eq hk).1 (printExpr_writes h hus) (lexeme_eq hsemi).1

theorem printStmts_derives : ∀ {sts : List Stmt} {ts : List Token}, writableStmts sts = true →
    ts.map Token.lexeme = printStmts sts →
    ∃ parts : List (List Token × Stmt), parts.map (·.2) = sts ∧ parts.flatMap (·.1) = ts ∧
      ∀ part ∈ parts, DerivesStmt part.1 part.2
  | [], ts, _, hts => by
    rw [printStmts] at hts
    obtain rfl := lexemes_nil hts
    exact ⟨[], rfl, rfl, nofun⟩
  | st :: sts, ts, h, hts => by
    rw [writableStmts, Bool.and_eq_true] at h
    rw [printStmts] at hts
    obtain ⟨us, vs, rfl, hus, hvs⟩ := lexemes_append hts
    have hfirst := printStmt_derives h.1 hus
    obtain ⟨parts, rfl, rfl, hparts⟩ := printStmts_derives h.2 hvs
    refine ⟨(us, st) :: parts, rfl, rfl, fun part hpart => ?_⟩
    rcases List.mem_cons.mp hpart with rfl | hpart
    · exact hfirst
    · exact hparts part hpart

end

/-! ## Functions and files -/

theorem printParams_derives {params : List Parameter}
    (h : params.all (fun param => isName param.name) = true) {ts : List Token}
    (hts : ts.map Token.lexeme = printParams params) :
    ∃ parts : List (List Token × Parameter), parts.map (·.2) = params ∧
      (∀ part ∈ parts, WritesParam part.1 part.2) ∧ Separated (parts.map (·.1)) ts := by
  have hparam : ∀ {us : List Token} {param : Parameter} {xs : List Lexeme},
      us.map Token.lexeme = printDecl param.type param.name ++ xs →
      ∃ vs ws, us = vs ++ ws ∧ WritesParam vs param ∧ ws.map Token.lexeme = xs := by
    intro us param xs hus
    obtain ⟨ty, x, ws, rfl, -, hkw, htype, hx, hname, hws⟩ := lexemes_decl hus
    refine ⟨[ty, x], ws, rfl, ⟨ty, x, rfl, hkw, hx, ?_⟩, hws⟩
    rw [htype, hname]
  induction params generalizing ts with
  | nil =>
    rw [printParams] at hts
    obtain rfl := lexemes_nil hts
    exact ⟨[], rfl, nofun, .nil⟩
  | cons param params ih =>
    cases params with
    | nil =>
      rw [printParams, ← List.append_nil (printDecl param.type param.name)] at hts
      obtain ⟨vs, ws, rfl, hvs, hws⟩ := hparam hts
      obtain rfl := lexemes_nil hws
      rw [List.append_nil]
      exact ⟨[(vs, param)], rfl, by simpa using hvs, .one vs⟩
    | cons param' params =>
      rw [printParams] at hts
      obtain ⟨vs, ws, rfl, hvs, hws⟩ := hparam hts
      obtain ⟨c, us, rfl, hc, hus⟩ := lexemes_cons hws
      rw [List.all_cons, Bool.and_eq_true] at h
      obtain ⟨parts, hparts, hwrites, hsep⟩ := ih h.2 hus
      refine ⟨(vs, param) :: parts, by rw [List.map_cons, hparts], ?_, ?_⟩
      · intro part hpart
        rcases List.mem_cons.mp hpart with rfl | hpart
        · exact hvs
        · exact hwrites part hpart
      · cases parts with
        | nil => cases hparts
        | cons part parts => exact .cons vs (lexeme_eq hc).1 hsep

/-- The parameters of a function. -/
theorem params_derive {params : List Parameter}
    (h : params.all (fun param => isName param.name) = true)
    (hfirst : params.head?.all (fun param => param.type != .void) = true) {ts : List Token}
    (hts : ts.map Token.lexeme = printParams params) : DerivesParams ts params := by
  obtain ⟨parts, hparts, hwrites, hsep⟩ := printParams_derives h hts
  cases params with
  | nil =>
    rw [printParams] at hts
    obtain rfl := lexemes_nil hts
    exact .none
  | cons param params =>
    obtain ⟨xs, hxs⟩ : ∃ xs, printParams (param :: params) = typeLexeme param.type :: xs := by
      cases params <;> exact ⟨_, rfl⟩
    rw [hxs] at hts
    obtain ⟨t, us, rfl, ht, -⟩ := lexemes_cons hts
    rw [← hparts]
    refine .some hwrites hsep ⟨t, us, rfl, ?_⟩
    have hvoid : param.type ≠ .void := by simpa using hfirst
    rw [(lexeme_eq ht).1]
    revert hvoid
    cases param.type <;> decide

theorem printFunction_derives {f : Function} (h : writableFunction f = true) {ts : List Token}
    (hts : ts.map Token.lexeme = printFunction f) : DerivesFunction ts f := by
  obtain ⟨name, returnType, params, body⟩ := f
  simp only [writableFunction, Bool.and_eq_true] at h
  obtain ⟨⟨⟨⟨-, -⟩, hnames⟩, hfirst⟩, hbody⟩ := h
  unfold printFunction at hts
  obtain ⟨ty, x, ls, rfl, -, hkw, rfl, hx, rfl, hls⟩ := lexemes_decl hts
  obtain ⟨l, us, rfl, hl, hus⟩ := lexemes_cons hls
  obtain ⟨ps, rs, rfl, hps, hrs⟩ := lexemes_append hus
  obtain ⟨r, bs, rfl, hr, hbs⟩ := lexemes_cons hrs
  have hparams := params_derive hnames hfirst hps
  cases body with
  | none =>
    obtain ⟨semi, us, rfl, hsemi, hus⟩ := lexemes_cons hbs
    obtain rfl := lexemes_nil hus
    exact .prototype hkw hx (lexeme_eq hl).1 hparams (lexeme_eq hr).1 (lexeme_eq hsemi).1
  | some body =>
    exact .definition hkw hx (lexeme_eq hl).1 hparams (lexeme_eq hr).1
      (printStmt_derives hbody hbs)

/-- A printed file derives the file. -/
theorem printUnit_derives {u : TranslationUnit} (h : writableUnit u = true) {ts : List Token}
    (hts : ts.map Token.lexeme = printUnit u) : DerivesUnit ts u := by
  simp only [writableUnit, Bool.and_eq_true, decide_eq_true_eq, List.all_eq_true] at h
  have hparts : ∀ {fs : List Function} {us : List Token}, (∀ f ∈ fs, writableFunction f = true) →
      us.map Token.lexeme = printUnit fs →
      ∃ parts : List (List Token × Function), parts.map (·.2) = fs ∧ parts.flatMap (·.1) = us ∧
        ∀ part ∈ parts, DerivesFunction part.1 part.2 := by
    intro fs
    induction fs with
    | nil =>
      intro us _ hus
      obtain rfl := lexemes_nil hus
      exact ⟨[], rfl, rfl, nofun⟩
    | cons f fs ih =>
      intro us hall hus
      obtain ⟨vs, ws, rfl, hvs, hws⟩ := lexemes_append hus
      obtain ⟨parts, rfl, rfl, hparts⟩ := ih (fun g hg => hall g (List.mem_cons_of_mem _ hg)) hws
      refine ⟨(vs, f) :: parts, rfl, rfl, fun part hpart => ?_⟩
      rcases List.mem_cons.mp hpart with rfl | hpart
      · exact printFunction_derives (hall f (by simp)) hvs
      · exact hparts part hpart
  obtain ⟨parts, rfl, rfl, hall⟩ := hparts h.2 hts
  exact .mk hall (by simpa using h.1)

end TinyCompile.Parser
