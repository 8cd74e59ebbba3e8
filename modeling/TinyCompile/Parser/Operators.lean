import TinyCompile.Parser.Complete
import TinyCompile.Parser.Printer

set_option autoImplicit false

/-!
# Parser: operators as in C

C's grammar gives every operator a level and says which level an operand must have; a
printed expression has parentheses where an operand's level is too low, and nowhere else.
`parse_expression` reads it back.
-/

namespace TinyCompile.Parser

open TinyCompile.Source TinyCompile.Logic

/-! ## The levels of C's grammar -/

/-- The level of a binary operator, from the loosest expression up. -/
def binaryLevel : BinaryOp → Nat
  | .bitOr => 5
  | .bitXor => 6
  | .bitAnd => 7
  | .equal | .notEqual => 8
  | .less | .lessEqual | .greater | .greaterEqual => 9
  | .lshift | .rshift => 10
  | .add | .sub => 11
  | .mul | .div => 12

/-- The level of prefix operators and of their operands. -/
def unaryLevel : Nat := 13

/-- The level of the arguments of a call. -/
def assignmentLevel : Nat := 1

mutual

/-- An expression where the grammar requires a level.  Binary operators associate to the
left: their left operand may have their own level, the right one has a higher level. -/
def printC : Nat → Expr → List Lexeme
  | _, .number text => [(.number, text)]
  | _, .identifier name => [(.identifier, name)]
  | required, .binary op left right =>
      parens (binaryLevel op < required) (printC (binaryLevel op) left ++
        mark (binaryToken op) :: printC (binaryLevel op + 1) right)
  | _, .unary op operand => mark (unaryToken op) :: printC unaryLevel operand
  | required, .assignment name value =>
      parens (assignmentLevel < required) ((.identifier, name) :: mark .equal ::
        printC assignmentLevel value)
  | _, .call name args => (.identifier, name) :: mark .lparen :: (printCArgs args ++ [mark .rparen])

/-- The arguments of a call. -/
def printCArgs : List Expr → List Lexeme
  | [] => []
  | e :: es => printC assignmentLevel e ++ printCMoreArgs es

/-- The arguments behind the first. -/
def printCMoreArgs : List Expr → List Lexeme
  | [] => []
  | e :: es => mark .comma :: (printC assignmentLevel e ++ printCMoreArgs es)

end

mutual

/-- There is no assignment in an expression. -/
def assignmentFree : Expr → Bool
  | .number _ => true
  | .identifier _ => true
  | .binary _ left right => assignmentFree left && assignmentFree right
  | .unary _ operand => assignmentFree operand
  | .assignment _ _ => false
  | .call _ args => assignmentFreeArgs args

/-- The same of the arguments of a call. -/
def assignmentFreeArgs : List Expr → Bool
  | [] => true
  | e :: es => assignmentFree e && assignmentFreeArgs es

end

/-! ## The rule table follows C -/

/-- The precedences of the rule table are in the order of C's levels. -/
theorem binaryLevel_eq (op : BinaryOp) : binaryLevel op = binaryRank op + 1 := by
  cases op <;> rfl

/-- Where the grammar requires a level, the parser looks for what binds stronger than `p`. -/
def Agrees (required p : Nat) : Prop :=
  ∀ op : BinaryOp, binaryLevel op < required ↔ binaryRank op ≤ p

theorem agrees_left (op : BinaryOp) : Agrees (binaryLevel op) (binaryRank op - 1) := by
  intro op'
  have hpos := binaryRank_pos op
  rw [binaryLevel_eq, binaryLevel_eq]
  omega

theorem agrees_right (op : BinaryOp) : Agrees (binaryLevel op + 1) (binaryRank op) := by
  intro op'
  rw [binaryLevel_eq, binaryLevel_eq]
  omega

theorem agrees_unary : Agrees unaryLevel Precedence.unary.rank := by
  intro op
  cases op <;> decide

theorem agrees_assignment : Agrees assignmentLevel Precedence.assignment.rank := by
  intro op
  cases op <;> decide

theorem agrees_whole : Agrees 0 Precedence.none.rank := by
  intro op
  cases op <;> decide

mutual

/-- C's parentheses are those the rule table requires. -/
theorem printC_eq : ∀ {e : Expr} {required p : Nat}, assignmentFree e = true →
    Agrees required p → printC required e = printExpr p e
  | .number text, required, p, _, _ => by rw [printC, printExpr]
  | .identifier name, required, p, _, _ => by rw [printC, printExpr]
  | .binary op left right, required, p, he, hp => by
    rw [assignmentFree, Bool.and_eq_true] at he
    have hparens : decide (binaryLevel op < required) = decide (binaryRank op ≤ p) :=
      decide_eq_decide.mpr (hp op)
    rw [printC, printExpr, printC_eq he.1 (agrees_left op), printC_eq he.2 (agrees_right op),
      hparens]
  | .unary op operand, required, p, he, _ => by
    rw [assignmentFree] at he
    rw [printC, printExpr, printC_eq he agrees_unary]
  | .assignment name value, required, p, he, _ => by
    rw [assignmentFree] at he
    cases he
  | .call name args, required, p, he, _ => by
    rw [assignmentFree] at he
    rw [printC, printExpr, printCArgs_eq he]

theorem printCArgs_eq : ∀ {es : List Expr}, assignmentFreeArgs es = true →
    printCArgs es = printArgs es
  | [], _ => by rw [printCArgs, printArgs]
  | e :: es, h => by
    rw [assignmentFreeArgs, Bool.and_eq_true] at h
    rw [printCArgs, printArgs, printC_eq h.1 agrees_assignment, printCMoreArgs_eq h.2]

theorem printCMoreArgs_eq : ∀ {es : List Expr}, assignmentFreeArgs es = true →
    printCMoreArgs es = printMoreArgs es
  | [], _ => by rw [printCMoreArgs, printMoreArgs]
  | e :: es, h => by
    rw [assignmentFreeArgs, Bool.and_eq_true] at h
    rw [printCMoreArgs, printMoreArgs, printC_eq h.1 agrees_assignment, printCMoreArgs_eq h.2]

end

/-! ## Reading printed expressions -/

/-- An expression without assignments, printed as in C in front of a token that is no
operator, is read back, and the parser stands in front of that token. -/
theorem parseExpression_printC {e : Expr} (hfree : assignmentFree e = true)
    (hwritable : writableExpr e = true) {s : Parser}
    (hdepth : s.exprDepth + nesting 0 e ≤ maxExpressionDepth) (hpanic : s.panicMode = false)
    {ts rest : List Token} (htokens : s.tokens = ts ++ rest)
    (hprinted : ts.map Token.lexeme = printC 0 e)
    (hrest : ∀ t us, rest = t :: us → getTokenPrecedence t.type = .none)
    {fuel : Nat} (hfuel : s.tokens.length < fuel) :
    ∃ node s', parseExpression fuel .none s = .ok (node, s') ∧ node.expr? = some e ∧
      s'.errors = s.errors ∧ s'.panicMode = false ∧ s'.tokens = rest ∧
      (∀ t us, rest = t :: us → s'.next = t) ∧ (rest = [] → s'.next.type = .eof) := by
  have hderives : DerivesExpr (maxExpressionDepth - s.exprDepth) Precedence.none.rank ts e := by
    refine printExpr_derives e hwritable (by decide) ?_ ?_
    · exact Nat.le_sub_of_add_le' hdepth
    · rw [hprinted, printC_eq hfree agrees_whole]
  have hrank : headRank rest ≤ Precedence.none.rank := by
    cases rest with
    | nil => exact Nat.le_refl 0
    | cons t us =>
      have hhead : headRank (t :: us) = Precedence.none.rank := by
        rw [headRank_of_type rfl, hrest t us rfl]
      exact Nat.le_of_eq hhead
  have hstart : At s.exprDepth s.errors (ts ++ rest) s := ⟨htokens, hpanic, rfl, rfl⟩
  have hreads := hderives.reads.expression hderives.depth_ne (Nat.add_sub_of_le s.depthLe) hstart
    (by rwa [htokens] at hfuel) hrank (by decide)
  obtain ⟨node, s', hrun, hs', hnode⟩ := wp_total hreads
  refine ⟨node, s', hrun, hnode, hs'.errors, hs'.panic, hs'.tokens, ?_, ?_⟩
  · rintro t us rfl
    exact hs'.next
  · rintro rfl
    exact Parser.tokens_eq_nil.mp hs'.tokens

/-- `a - b - c * -f(d, 1) & (2 | x)`. -/
def mixedOperators : Expr :=
  .binary .bitAnd
    (.binary .sub (.binary .sub (.identifier (svOf "a")) (.identifier (svOf "b")))
      (.binary .mul (.identifier (svOf "c"))
        (.unary .negate (.call (svOf "f") [.identifier (svOf "d"), .number (svOf "1")]))))
    (.binary .bitOr (.number (svOf "2")) (.identifier (svOf "x")))

/-- The parser in front of `a - b - c * -f(d, 1) & (2 | x);`. -/
def mixedStart : Parser :=
  parserInit (tokenStream (svOf "a - b - c * -f(d, 1) & (2 | x);")) "a.c" 0 .init

theorem parseExpression_printC_mixed :
    ∃ node s', parseExpression 100 .none mixedStart = .ok (node, s') ∧
      node.expr? = some mixedOperators ∧ s'.errors = .init ∧ s'.next.type = .semicolon := by
  have hrest : (mixedStart.tokens.drop 19).map (·.type) = [.semicolon] := by decide +kernel
  obtain ⟨t, us, hdrop, ht, -⟩ := List.map_eq_cons_iff.mp hrest
  obtain ⟨node, s', hrun, hnode, herrors, -, -, hnext, -⟩ :=
    parseExpression_printC (e := mixedOperators) (s := mixedStart)
      (by decide +kernel) (by decide +kernel) (by decide +kernel) (by decide +kernel)
      (List.take_append_drop 19 mixedStart.tokens).symm (by decide +kernel)
      (fun t' us' heq => by
        rw [hdrop] at heq
        obtain ⟨rfl, -⟩ := List.cons.inj heq
        rw [ht]
        rfl)
      (show mixedStart.tokens.length < 100 by decide +kernel)
  exact ⟨node, s', hrun, hnode, herrors, by rw [hnext t us hdrop, ht]⟩

end TinyCompile.Parser
