import TinyCompile.Parser.Lexer
import TinyCompile.Source.Ast
import TinyCompile.Source.Errors
import TinyCompile.Logic.Loop

set_option autoImplicit false

/-!
# Parser: the parser's state

`Parser` of `incs/parser.h`, `srcs/parser/parser_utils.c` and
`srcs/parser/type_helpers.c`.
-/

namespace TinyCompile.Parser

open TinyCompile.Source TinyCompile.Logic

/-! ## `incs/defines.h` -/

/-- `MAX_EXPRESSION_DEPTH`. -/
def maxExpressionDepth : Nat := 128

/-- `MAX_BLOCK_STATEMENTS`. -/
def maxBlockStatements : Nat := 512

/-- `MAX_FUNCTION_COUNT`. -/
def maxFunctionCount : Nat := 256

/-! ## `srcs/parser/type_helpers.c` -/

/-- The rows of `types.def`. -/
def dataTypes : List DataType :=
  [.void, .int, .long, .int64, .int32, .int16, .int8, .uint64, .uint32, .uint16, .uint8,
    .char, .bool]

/-- `is_type_keyword`. -/
def isTypeKeyword (sv : StringView) : Bool :=
  dataTypes.any fun type => svEq sv (svOf (typeName type))

/-- `type_from_sv`. -/
def typeFromSv (sv : StringView) : DataType :=
  (dataTypes.find? fun type => svEq sv (svOf (typeName type))).getD .void

/-! ## The state -/

/-- `Parser`.  `next` comes from the lexer and is no lexical error, behind the end of the
file there is nothing more, and the depth of the expressions stays within its limit;
`arena` is the address the next node gets; `overrun` says that an element was written
behind the end of a parameter array. -/
structure Parser where
  lexer : TokenStream
  filename : String
  errors : ErrorContext
  current : Token
  next : Token
  panicMode : Bool
  exprDepth : Nat
  arena : Nat
  overrun : Bool
  lexical : next.Lexical ∧ next.type ≠ .error
  drained : next.type = .eof → lexer.tokens = []
  depthLe : exprDepth ≤ maxExpressionDepth

/-- Why a parsing function does not return: it follows a null pointer, or the bound on the
number of calls that stands for the C stack is used up. -/
inductive Stop where
  | nullPointer
  | outOfFuel
  deriving DecidableEq, Repr

/-- The parser's computations. -/
abbrev ParseM := StateT Parser (Except Stop)

/-- The loop of `parser_advance`: the first token that is no lexical error. -/
def TokenStream.nextProper (l : TokenStream) : Token × TokenStream := l.skipErrors.lexerNext

theorem TokenStream.nextProper_lexical (l : TokenStream) :
    l.nextProper.1.Lexical ∧ l.nextProper.1.type ≠ .error := by
  unfold nextProper lexerNext
  split
  · rename_i eof _ hend _
    refine ⟨hend.1, ?_⟩
    rw [hend.2]
    decide
  · rename_i t ts eof hl hend heq
    refine ⟨(hl t (by simp)).1, ?_⟩
    have hdrop : l.tokens.dropWhile (·.type == .error) = t :: ts := congrArg tokens heq
    have hnot := @List.head_dropWhile_not _ (fun t : Token => t.type == .error) l.tokens
      (by rw [hdrop]; simp)
    simpa [hdrop] using hnot

theorem TokenStream.nextProper_drained (l : TokenStream) (h : l.nextProper.1.type = .eof) :
    l.nextProper.2.tokens = [] := by
  unfold nextProper lexerNext at h ⊢
  split
  · rfl
  · rename_i t ts eof hl hend heq
    rw [heq] at h
    exact absurd h (hl t (by simp)).2

/-- `parser_advance`. -/
def parserAdvance (s : Parser) : Parser :=
  { s with
    lexer := s.lexer.nextProper.2
    current := s.next
    next := s.lexer.nextProper.1
    lexical := s.lexer.nextProper_lexical
    drained := s.lexer.nextProper_drained }

/-- What `vsnprintf` leaves of a message in the 512-byte buffer. -/
def truncateParserMessage (message : String) : String :=
  String.ofList (message.toList.take 511)

/-- `parser_error`. -/
def parserError (s : Parser) (message : String) : Parser :=
  if s.panicMode then s
  else
    { s with
      panicMode := true
      errors := errorAdd s.errors .parser .error (some s.filename) s.current.line
        s.current.column (truncateParserMessage message) }

/-- The token types at which `parser_synchronize` stops. -/
def startsStatement : TokenType → Bool
  | .ifKw | .whileKw | .returnKw | .int | .lbrace => true
  | _ => false

/-- The tokens that are still to come, without the lexical errors. -/
def Parser.tokens (s : Parser) : List Token :=
  if s.next.type = .eof then [] else s.next :: s.lexer.proper

/-- The loop of `parser_synchronize`; every turn takes a token, so that the number of
tokens bounds the number of turns. -/
def synchronizeLoop : Nat → Parser → Parser
  | 0, s => s
  | n + 1, s =>
      if s.next.type = .eof then s
      else if s.current.type = .semicolon then s
      else if startsStatement s.next.type then s
      else synchronizeLoop n (parserAdvance s)

/-- `parser_synchronize`. -/
def parserSynchronize (s : Parser) : Parser :=
  synchronizeLoop s.tokens.length { s with panicMode := false }

/-- `parser_consume`. -/
def parserConsume (s : Parser) (type : TokenType) (message : String) : Parser :=
  if s.next.type = type then { parserAdvance s with panicMode := false }
  else
    parserSynchronize (parserError s (message ++ " (got " ++ tokenTypeName s.next.type ++ ")"))

/-- `match`. -/
def matchToken (type : TokenType) : ParseM Bool := do
  let s ← get
  if s.next.type = type then
    set (parserAdvance s)
    return true
  else return false

/-- `parse_type`. -/
def parseType : ParseM DataType := do
  let s ← get
  if isTypeKeyword s.next.text then
    set (parserAdvance s)
    return typeFromSv s.next.text
  else
    set (parserError s "expected type specifier (e.g. 'int', 'char', 'void')")
    return .void

/-- The address of a new node. -/
def newNode : ParseM Nat := do
  let s ← get
  set { s with arena := s.arena + 1 }
  return s.arena

/-! ## What the state functions keep -/

/-- The tokens behind the first proper one. -/
theorem TokenStream.proper_nextProper (l : TokenStream) :
    (if l.nextProper.1.type = .eof then []
      else l.nextProper.1 :: l.nextProper.2.proper) = l.proper := by
  have hfilter : ∀ ts : List Token,
      (ts.dropWhile (·.type == .error)).filter (·.type != .error) =
        ts.filter (·.type != .error) := by
    intro ts
    induction ts with
    | nil => rfl
    | cons t ts ih =>
      rw [List.dropWhile_cons]
      by_cases h : t.type = .error <;> simp [h, ih]
  have hskip : l.proper = l.skipErrors.proper := (hfilter l.tokens).symm
  have hlex := l.nextProper_lexical
  rw [hskip]
  unfold nextProper lexerNext at hlex ⊢
  split
  · rename_i eof hl hend heq
    simp [heq, hend.2, proper]
  · rename_i t ts eof hl hend heq
    rw [heq] at hlex
    have hne := (hl t (by simp)).2
    simp [heq, hne, proper, hlex.2]

@[simp] theorem parserAdvance_tokens (s : Parser) : (parserAdvance s).tokens = s.tokens.tail := by
  have h := s.lexer.proper_nextProper
  unfold Parser.tokens
  show (if s.lexer.nextProper.1.type = .eof then [] else _) = _
  rw [show (parserAdvance s).next = s.lexer.nextProper.1 from rfl,
    show (parserAdvance s).lexer = s.lexer.nextProper.2 from rfl, h]
  by_cases heof : s.next.type = .eof
  · have hempty : s.lexer.proper = [] := by
      unfold TokenStream.proper
      rw [s.drained heof]
      rfl
    simp [heof, hempty]
  · simp [heof]

/-- Tokens are left unless the next one is the end of the file. -/
theorem Parser.tokens_of_ne {s : Parser} (h : s.next.type ≠ .eof) :
    s.tokens = s.next :: (parserAdvance s).tokens := by
  rw [parserAdvance_tokens]
  unfold tokens
  simp [h]

theorem Parser.tokens_eq_nil {s : Parser} : s.tokens = [] ↔ s.next.type = .eof := by
  unfold tokens
  split <;> simp [*]

end TinyCompile.Parser
