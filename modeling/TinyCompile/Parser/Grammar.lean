import TinyCompile.Parser.Parse
import TinyCompile.Source.Program

set_option autoImplicit false

/-!
# Parser: the grammar

Which token sequences are ways to write a program, stated without the parser.  The
grammar is that of C's expressions and statements, restricted to the operators of the
rule table, and with the parser's limits.  Parentheses may stand wherever an expression
may; besides them and the `void` of an empty parameter list a sequence of tokens and its
program determine each other.
-/

namespace TinyCompile.Parser

open TinyCompile.Source

/-- The binding strength of an operator token. -/
def Token.rank (t : Token) : Nat := (getTokenPrecedence t.type).rank

/-- Sequences of tokens with commas in between. -/
inductive Separated : List (List Token) → List Token → Prop
  | nil : Separated [] []
  | one (ts : List Token) : Separated [ts] ts
  | cons (ts : List Token) {ts' : List Token} {rest : List (List Token)} {us : List Token}
      {c : Token} (hcomma : c.type = .comma) (hrest : Separated (ts' :: rest) us) :
      Separated (ts :: ts' :: rest) (ts ++ c :: us)

/-- `DerivesExpr d p ts e`: the tokens `ts` are a way to write the expression `e` in which
every operator outside parentheses binds stronger than `p`, and in which expressions
nest at most `d` deep. -/
inductive DerivesExpr : Nat → Nat → List Token → Expr → Prop
  | number {d p : Nat} {t : Token} (ht : t.type = .number) :
      DerivesExpr (d + 1) p [t] (.number t.text)
  | identifier {d p : Nat} {t : Token} (ht : t.type = .identifier) :
      DerivesExpr (d + 1) p [t] (.identifier t.text)
  | grouping {d p : Nat} {l r : Token} {ts : List Token} {e : Expr}
      (hl : l.type = .lparen) (hr : r.type = .rparen) (h : DerivesExpr d 0 ts e) :
      DerivesExpr (d + 1) p (l :: (ts ++ [r])) e
  | unary {d p : Nat} {t : Token} {op : UnaryOp} {ts : List Token} {e : Expr}
      (hop : unaryOp t.type = some op) (h : DerivesExpr d Precedence.unary.rank ts e) :
      DerivesExpr (d + 1) p (t :: ts) (.unary op e)
  | binary {d p : Nat} {t : Token} {op : BinaryOp} {ls rs : List Token} {left right : Expr}
      (hop : binaryOp t.type = some op) (hp : p < t.rank)
      (hleft : DerivesExpr (d + 1) (t.rank - 1) ls left) (hright : DerivesExpr d t.rank rs right) :
      DerivesExpr (d + 1) p (ls ++ t :: rs) (.binary op left right)
  | assignment {d p q : Nat} {t : Token} {ls rs : List Token} {name : StringView} {value : Expr}
      (ht : t.type = .equal) (hp : p < Precedence.assignment.rank)
      (hname : DerivesExpr (d + 1) q ls (.identifier name))
      (hvalue : DerivesExpr d Precedence.assignment.rank rs value) :
      DerivesExpr (d + 1) p (ls ++ t :: rs) (.assignment name value)
  | call {d p q : Nat} {l r : Token} {fs as : List Token} {name : StringView}
      {args : List (List Token × Expr)} (hl : l.type = .lparen) (hr : r.type = .rparen)
      (hp : p < Precedence.call.rank) (hname : DerivesExpr (d + 1) q fs (.identifier name))
      (hargs : ∀ arg ∈ args, DerivesExpr d Precedence.assignment.rank arg.1 arg.2)
      (hcount : args.length ≤ maxParamsPerFunction) (hseparated : Separated (args.map (·.1)) as) :
      DerivesExpr (d + 1) p (fs ++ l :: (as ++ [r])) (.call name (args.map (·.2)))

/-- The tokens of a whole expression. -/
def WritesExpr (ts : List Token) (e : Expr) : Prop := DerivesExpr maxExpressionDepth 0 ts e

/-- An `if` without `else` at the end of a statement, which an `else` behind it would
belong to. -/
def openIf : Stmt → Bool
  | .ifThen _ _ => true
  | .ifElse _ _ elseBranch => openIf elseBranch
  | .whileLoop _ body => openIf body
  | _ => false

/-- `DerivesStmt ts st`: the tokens `ts` are a way to write the statement `st`.  Only the
types with a keyword of their own start a variable declaration. -/
inductive DerivesStmt : List Token → Stmt → Prop
  | expr {semi : Token} {ts : List Token} {e : Expr} (hsemi : semi.type = .semicolon)
      (h : WritesExpr ts e) : DerivesStmt (ts ++ [semi]) (.expr e)
  | varDecl {ty name semi : Token} (hty : (rules ty.type).stmtFn = some .parseVarDecl)
      (hname : name.type = .identifier) (hsemi : semi.type = .semicolon) :
      DerivesStmt [ty, name, semi] (.varDecl name.text (typeFromSv ty.text) none)
  | varInit {ty name eq semi : Token} {ts : List Token} {e : Expr}
      (hty : (rules ty.type).stmtFn = some .parseVarDecl) (hname : name.type = .identifier)
      (heq : eq.type = .equal) (h : WritesExpr ts e) (hsemi : semi.type = .semicolon) :
      DerivesStmt (ty :: name :: eq :: (ts ++ [semi]))
        (.varDecl name.text (typeFromSv ty.text) (some e))
  | ret {kw semi : Token} (hkw : kw.type = .returnKw) (hsemi : semi.type = .semicolon) :
      DerivesStmt [kw, semi] (.ret none)
  | retValue {kw semi : Token} {ts : List Token} {e : Expr} (hkw : kw.type = .returnKw)
      (h : WritesExpr ts e) (hsemi : semi.type = .semicolon) :
      DerivesStmt (kw :: (ts ++ [semi])) (.ret (some e))
  | ifThen {kw l r : Token} {cs ts : List Token} {c : Expr} {t : Stmt}
      (hkw : kw.type = .ifKw) (hl : l.type = .lparen) (hc : WritesExpr cs c)
      (hr : r.type = .rparen) (ht : DerivesStmt ts t) :
      DerivesStmt (kw :: l :: (cs ++ r :: ts)) (.ifThen c t)
  | ifElse {kw l r kw' : Token} {cs ts es : List Token} {c : Expr} {t e : Stmt}
      (hkw : kw.type = .ifKw) (hl : l.type = .lparen) (hc : WritesExpr cs c)
      (hr : r.type = .rparen) (ht : DerivesStmt ts t) (hclosed : openIf t = false)
      (hkw' : kw'.type = .elseKw) (he : DerivesStmt es e) :
      DerivesStmt (kw :: l :: (cs ++ r :: (ts ++ kw' :: es))) (.ifElse c t e)
  | whileLoop {kw l r : Token} {cs ts : List Token} {c : Expr} {body : Stmt}
      (hkw : kw.type = .whileKw) (hl : l.type = .lparen) (hc : WritesExpr cs c)
      (hr : r.type = .rparen) (hbody : DerivesStmt ts body) :
      DerivesStmt (kw :: l :: (cs ++ r :: ts)) (.whileLoop c body)
  | block {l r : Token} {parts : List (List Token × Stmt)} (hl : l.type = .lbrace)
      (hr : r.type = .rbrace) (hparts : ∀ part ∈ parts, DerivesStmt part.1 part.2)
      (hcount : parts.length ≤ maxBlockStatements) :
      DerivesStmt (l :: (parts.flatMap (·.1) ++ [r])) (.block (parts.map (·.2)))

/-- The tokens of one parameter. -/
def WritesParam (ts : List Token) (param : Parameter) : Prop :=
  ∃ ty name : Token, ts = [ty, name] ∧ isTypeKeyword ty.text = true ∧ name.type = .identifier ∧
    param = ⟨name.text, typeFromSv ty.text⟩

/-- The tokens between the parentheses of a function.  In front, `void` can only stand
alone. -/
inductive DerivesParams : List Token → List Parameter → Prop
  | none : DerivesParams [] []
  | void {v : Token} (hv : v.type = .void) : DerivesParams [v] []
  | some {parts : List (List Token × Parameter)} {ts : List Token}
      (hparts : ∀ part ∈ parts, WritesParam part.1 part.2)
      (hseparated : Separated (parts.map (·.1)) ts)
      (hfirst : ∃ t ts', ts = t :: ts' ∧ t.type ≠ .void) :
      DerivesParams ts (parts.map (·.2))

/-- The tokens of a prototype or of a function with its body. -/
inductive DerivesFunction : List Token → Function → Prop
  | prototype {ty name l r semi : Token} {ps : List Token} {params : List Parameter}
      (hty : isTypeKeyword ty.text = true) (hname : name.type = .identifier)
      (hl : l.type = .lparen) (hparams : DerivesParams ps params) (hr : r.type = .rparen)
      (hsemi : semi.type = .semicolon) :
      DerivesFunction (ty :: name :: l :: (ps ++ [r, semi]))
        ⟨name.text, typeFromSv ty.text, params, none⟩
  | definition {ty name l r : Token} {ps bs : List Token} {params : List Parameter}
      {body : List Stmt} (hty : isTypeKeyword ty.text = true) (hname : name.type = .identifier)
      (hl : l.type = .lparen) (hparams : DerivesParams ps params) (hr : r.type = .rparen)
      (hbody : DerivesStmt bs (.block body)) :
      DerivesFunction (ty :: name :: l :: (ps ++ r :: bs))
        ⟨name.text, typeFromSv ty.text, params, some body⟩

/-- The tokens of a file. -/
inductive DerivesUnit : List Token → TranslationUnit → Prop
  | mk {parts : List (List Token × Function)}
      (hparts : ∀ part ∈ parts, DerivesFunction part.1 part.2)
      (hcount : parts.length ≤ maxFunctionCount) :
      DerivesUnit (parts.flatMap (·.1)) (parts.map (·.2))

/-! ## Binding strength -/

theorem rank_le (type : TokenType) : (getTokenPrecedence type).rank ≤ Precedence.call.rank := by
  cases type <;> decide

/-- What binds stronger than `p` binds stronger than anything weaker. -/
theorem DerivesExpr.weaken {d p p' : Nat} {ts : List Token} {e : Expr} (h : DerivesExpr d p ts e)
    (hle : p' ≤ p) : DerivesExpr d p' ts e := by
  cases h with
  | number ht => exact .number ht
  | identifier ht => exact .identifier ht
  | grouping hl hr h => exact .grouping hl hr h
  | unary hop h => exact .unary hop h
  | binary hop hp hleft hright => exact .binary hop (Nat.lt_of_le_of_lt hle hp) hleft hright
  | assignment ht hp hname hvalue =>
    exact .assignment ht (Nat.lt_of_le_of_lt hle hp) hname hvalue
  | call hl hr hp hname hargs hcount hseparated =>
    exact .call hl hr (Nat.lt_of_le_of_lt hle hp) hname hargs hcount hseparated

theorem unaryOp_spec {type : TokenType} {op : UnaryOp} (h : unaryOp type = some op) :
    (rules type).prefixFn = some .parseUnary := by
  cases type <;> cases h <;> rfl

/-- An expression starts with a token that starts an operand. -/
theorem DerivesExpr.head {d p : Nat} {ts : List Token} {e : Expr} (h : DerivesExpr d p ts e) :
    ∃ t us, ts = t :: us ∧ ∃ fn, (rules t.type).prefixFn = some fn := by
  induction h with
  | number ht => exact ⟨_, [], rfl, .parseNumber, by rw [ht]; rfl⟩
  | identifier ht => exact ⟨_, [], rfl, .parseIdentifier, by rw [ht]; rfl⟩
  | grouping hl hr h ih => exact ⟨_, _, rfl, .parseGrouping, by rw [hl]; rfl⟩
  | unary hop h ih => exact ⟨_, _, rfl, .parseUnary, unaryOp_spec hop⟩
  | binary hop hp hleft hright ihleft ihright =>
    obtain ⟨t, us, rfl, hfn⟩ := ihleft
    exact ⟨t, _, rfl, hfn⟩
  | assignment ht hp hname hvalue ihname ihvalue =>
    obtain ⟨t, us, rfl, hfn⟩ := ihname
    exact ⟨t, _, rfl, hfn⟩
  | call hl hr hp hname hargs hcount hseparated ihname ihargs =>
    obtain ⟨t, us, rfl, hfn⟩ := ihname
    exact ⟨t, _, rfl, hfn⟩

/-- What every part starts with, the whole starts with. -/
theorem Separated.head {P : Token → Prop} {parts : List (List Token)} {ts : List Token}
    (h : Separated parts ts) (hne : parts ≠ [])
    (hparts : ∀ part ∈ parts, ∃ t us, part = t :: us ∧ P t) : ∃ t us, ts = t :: us ∧ P t := by
  cases h with
  | nil => exact absurd rfl hne
  | one ts => exact hparts ts (by simp)
  | cons ts hcomma hrest =>
    obtain ⟨t, us, rfl, ht⟩ := hparts ts (by simp)
    exact ⟨t, _, rfl, ht⟩

/-- One more part behind a comma. -/
theorem Separated.snoc {parts : List (List Token)} {ts us : List Token} {c : Token}
    (h : Separated parts ts) (hne : parts ≠ []) (hcomma : c.type = .comma) :
    Separated (parts ++ [us]) (ts ++ c :: us) := by
  induction h with
  | nil => exact absurd rfl hne
  | one ts => exact .cons ts hcomma (.one us)
  | cons ts hcomma' hrest ih =>
    rw [List.append_assoc, List.cons_append]
    exact .cons ts hcomma' (ih (by simp))

end TinyCompile.Parser
