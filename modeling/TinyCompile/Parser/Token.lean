import TinyCompile.Source.Types

set_option autoImplicit false

/-!
# Parser: tokens and the rule table

`incs/lexer_tokens.def` with what `incs/lexer.h`, `incs/parser.h` and
`srcs/parser/parser.c` make of it.
-/

namespace TinyCompile.Parser

open TinyCompile.Source

/-- `TokenType`, in the order of `lexer_tokens.def`. -/
inductive TokenType where
  | int | char | void | ifKw | elseKw | whileKw | returnKw
  | number | identifier
  | plus | minus | star | slash | bang
  | lshift | rshift
  | bitAnd | bitXor | bitOr | bitNot
  | equalEqual | bangEqual | less | lessEqual | greater | greaterEqual
  | equal
  | lparen | rparen
  | semicolon | lbrace | rbrace | comma
  | eof | error
  deriving DecidableEq, Repr

/-- `Precedence`. -/
inductive Precedence where
  | none | assignment | or | and | bitOr | bitXor | bitAnd | equality | comparison
  | shift | term | factor | unary | call | primary
  deriving DecidableEq, Repr

/-- The number of a precedence in the enumeration. -/
def Precedence.rank : Precedence → Nat
  | none => 0
  | assignment => 1
  | or => 2
  | and => 3
  | bitOr => 4
  | bitXor => 5
  | bitAnd => 6
  | equality => 7
  | comparison => 8
  | shift => 9
  | term => 10
  | factor => 11
  | unary => 12
  | call => 13
  | primary => 14

/-- What a `ParsePrefixFn` may point at. -/
inductive PrefixFn where
  | parseNumber | parseIdentifier | parseUnary | parseGrouping
  deriving DecidableEq, Repr

/-- What a `ParseInfixFn` may point at. -/
inductive InfixFn where
  | parseBinary | parseAssignment | parseCall
  deriving DecidableEq, Repr

/-- What a `ParseStmtFn` may point at. -/
inductive StmtFn where
  | parseVarDecl | parseIf | parseWhile | parseReturn | parseBlock
  deriving DecidableEq, Repr

/-- `ParseRule`; a null pointer is `none`. -/
structure ParseRule where
  name : String
  prec : Precedence
  prefixFn : Option PrefixFn
  infixFn : Option InfixFn
  stmtFn : Option StmtFn

/-- `rules`. -/
def rules : TokenType → ParseRule
  | .int => ⟨"int", .none, none, none, some .parseVarDecl⟩
  | .char => ⟨"char", .none, none, none, some .parseVarDecl⟩
  | .void => ⟨"void", .none, none, none, some .parseVarDecl⟩
  | .ifKw => ⟨"if", .none, none, none, some .parseIf⟩
  | .elseKw => ⟨"else", .none, none, none, none⟩
  | .whileKw => ⟨"while", .none, none, none, some .parseWhile⟩
  | .returnKw => ⟨"return", .none, none, none, some .parseReturn⟩
  | .number => ⟨"number", .none, some .parseNumber, none, none⟩
  | .identifier => ⟨"identifier", .none, some .parseIdentifier, none, none⟩
  | .plus => ⟨"+", .term, none, some .parseBinary, none⟩
  | .minus => ⟨"-", .term, some .parseUnary, some .parseBinary, none⟩
  | .star => ⟨"*", .factor, none, some .parseBinary, none⟩
  | .slash => ⟨"/", .factor, none, some .parseBinary, none⟩
  | .bang => ⟨"!", .none, some .parseUnary, none, none⟩
  | .lshift => ⟨"<<", .shift, none, some .parseBinary, none⟩
  | .rshift => ⟨">>", .shift, none, some .parseBinary, none⟩
  | .bitAnd => ⟨"&", .bitAnd, none, some .parseBinary, none⟩
  | .bitXor => ⟨"^", .bitXor, none, some .parseBinary, none⟩
  | .bitOr => ⟨"|", .bitOr, none, some .parseBinary, none⟩
  | .bitNot => ⟨"~", .none, some .parseUnary, none, none⟩
  | .equalEqual => ⟨"==", .equality, none, some .parseBinary, none⟩
  | .bangEqual => ⟨"!=", .equality, none, some .parseBinary, none⟩
  | .less => ⟨"<", .comparison, none, some .parseBinary, none⟩
  | .lessEqual => ⟨"<=", .comparison, none, some .parseBinary, none⟩
  | .greater => ⟨">", .comparison, none, some .parseBinary, none⟩
  | .greaterEqual => ⟨">=", .comparison, none, some .parseBinary, none⟩
  | .equal => ⟨"=", .assignment, none, some .parseAssignment, none⟩
  | .lparen => ⟨"(", .call, some .parseGrouping, some .parseCall, none⟩
  | .rparen => ⟨")", .none, none, none, none⟩
  | .semicolon => ⟨";", .none, none, none, none⟩
  | .lbrace => ⟨"\x7b", .none, none, none, some .parseBlock⟩
  | .rbrace => ⟨"\x7d", .none, none, none, none⟩
  | .comma => ⟨",", .none, none, none, none⟩
  | .eof => ⟨"EOF", .none, none, none, none⟩
  | .error => ⟨"ERROR", .none, none, none, none⟩

/-- `get_token_precedence`. -/
def getTokenPrecedence (type : TokenType) : Precedence := (rules type).prec

/-- `token_type_name`. -/
def tokenTypeName (type : TokenType) : String := (rules type).name

/-- The token types marked as keywords, in the order of the table. -/
def keywords : List TokenType := [.int, .char, .void, .ifKw, .elseKw, .whileKw, .returnKw]

/-- `check_keyword`. -/
def checkKeyword (text : StringView) : TokenType :=
  (keywords.find? fun type => svEq text (svOf (tokenTypeName type))).getD .identifier

/-! ## Tokens -/

/-- `Token`; a token without a text field has the empty text. -/
structure Token where
  type : TokenType
  text : StringView
  line : Nat
  column : Nat
  deriving DecidableEq, Repr

/-- A zeroed token. -/
def Token.zero : Token := ⟨.int, [], 0, 0⟩

/-- `isalpha` in the C locale, and the underscore. -/
def isNameStart (b : UInt8) : Bool := (65 ≤ b && b ≤ 90) || (97 ≤ b && b ≤ 122) || b == 95

/-- `isalnum` in the C locale, and the underscore. -/
def isNameByte (b : UInt8) : Bool := isNameStart b || isDigit b

/-- The texts an identifier can have. -/
def isName (text : StringView) : Bool :=
  match text with
  | [] => false
  | b :: bs => isNameStart b && bs.all isNameByte && checkKeyword text == .identifier

/-- The texts a number can have. -/
def isNumeral (text : StringView) : Bool := !text.isEmpty && text.all isDigit

/-- The text the lexer gives a token of a type. -/
def spells (type : TokenType) (text : StringView) : Bool :=
  match type with
  | .number => isNumeral text
  | .identifier => isName text
  | .bang | .bangEqual | .equal | .equalEqual | .greater | .greaterEqual | .rshift
  | .less | .lessEqual | .lshift | .eof | .error => text.isEmpty
  | type => svEq text (svOf (tokenTypeName type))

/-- A token as the lexer makes them. -/
def Token.Lexical (t : Token) : Prop := spells t.type t.text = true

instance (t : Token) : Decidable t.Lexical := inferInstanceAs (Decidable (_ = true))

/-- What `lexer_next` returns one call after the other: some tokens, then the end of the
file over and over. -/
structure TokenStream where
  tokens : List Token
  eof : Token
  lexical : ∀ t ∈ tokens, t.Lexical ∧ t.type ≠ .eof
  atEof : eof.Lexical ∧ eof.type = .eof

/-- `lexer_next` on a stream. -/
def TokenStream.lexerNext (l : TokenStream) : Token × TokenStream :=
  match l with
  | ⟨[], eof, h, h'⟩ => (eof, ⟨[], eof, h, h'⟩)
  | ⟨t :: ts, eof, h, h'⟩ => (t, ⟨ts, eof, fun u hu => h u (List.mem_cons_of_mem t hu), h'⟩)

/-- The stream behind leading lexical errors. -/
def TokenStream.skipErrors (l : TokenStream) : TokenStream where
  tokens := l.tokens.dropWhile (·.type == .error)
  eof := l.eof
  lexical := fun t ht => l.lexical t ((List.dropWhile_sublist _).subset ht)
  atEof := l.atEof

/-- The tokens that are no lexical errors. -/
def TokenStream.proper (l : TokenStream) : List Token := l.tokens.filter (·.type != .error)

end TinyCompile.Parser
