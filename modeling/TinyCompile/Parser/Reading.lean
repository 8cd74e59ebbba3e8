import TinyCompile.Parser.Operands

set_option autoImplicit false

/-!
# Parser: how a file is read

The readings of expressions go on to statements, blocks and declarations.  They make no
trees and record nothing: they say which tokens the parser takes, where its error recovery
comes to, which statements of a block come to nothing, and so where a null pointer is
followed and where `parser_parse` gives up on a file.  What a file comes to is thereby
decided by its tokens.
-/

namespace TinyCompile.Parser

open TinyCompile.Source TinyCompile.Logic

/-! ## Readings -/

/-- The next token is the name of a type. -/
def Place.opensType (w : Place) : Bool := (w.ahead.head?).any fun t => isTypeKeyword t.text

section

variable (expr : Precedence → Place → Reading) (stmt : Place → Reading)

/-- A declaration, in front of the name of its type. -/
def readVarDecl (w : Place) : Reading := do
  let w := w.advance.expect .identifier
  let w ← if w.next = .equal then (expr .none w.advance).map (·.2) else some w
  return (.other, w.expect .semicolon)

def readReturn (w : Place) : Reading := do
  let w := w.expect .returnKw
  let w ← if w.next = .semicolon then some w else (expr .none w).map (·.2)
  return (.other, w.expect .semicolon)

/-- A condition in parentheses behind a keyword. -/
def readCondition (keyword : TokenType) (w : Place) : Option Place := do
  let (_, w) ← expr .none ((w.expect keyword).expect .lparen)
  return w.expect .rparen

def readIf (w : Place) : Reading := do
  let w ← readCondition expr .ifKw w
  let (_, w) ← stmt w
  let w ← if w.next = .elseKw then (stmt w.advance).map (·.2) else some w
  return (.other, w)

def readWhile (w : Place) : Reading := do
  let w ← readCondition expr .whileKw w
  let (_, w) ← stmt w
  return (.other, w)

/-- An expression that stands for a statement; it may come to nothing. -/
def readExprStmt (w : Place) : Reading := do
  let (kind, w) ← expr .none w
  return (kind, w.expect .semicolon)

/-- A statement of a block that has so many already. -/
def readBlockTurn : Nat × Place → Option (Turn (Nat × Place) Place)
  | (count, w) =>
    if w.next = .rbrace ∨ w.next = .eof then some (.leave w)
    else if count ≥ maxBlockStatements then some (.leave w.recover)
    else do
      let (kind, w') ← stmt w
      if kind = .null then some (.again (count, w'.recover)) else some (.again (count + 1, w'))

def readBlock (fuel : Nat) (w : Place) : Reading := do
  let w ← iterate (readBlockTurn stmt) fuel (0, w.expect .lbrace)
  return (.other, w.expect .rbrace)

end

def readStatement : Nat → Place → Reading
  | 0, _ => none
  | fuel + 1, w =>
      let expr := readExpression (fuel + 1) maxExpressionDepth
      match (rules w.next).stmtFn with
      | some .parseVarDecl => readVarDecl expr w
      | some .parseIf => readIf expr (readStatement fuel) w
      | some .parseWhile => readWhile expr (readStatement fuel) w
      | some .parseReturn => readReturn expr w
      | some .parseBlock => readBlock (readStatement fuel) fuel w
      | none => readExprStmt expr w

/-- A parameter; what is no type is left where it is. -/
def readParam (w : Place) : Option (Turn Place Place) :=
  let w := (if w.opensType then w.advance else w).expect .identifier
  if w.next = .comma then some (.again w.advance) else some (.leave w)

def readParamList (fuel : Nat) (w : Place) : Option Place :=
  if w.next = .rparen then some w
  else if w.next = .void then some w.advance
  else iterate readParam fuel w

/-- A function, in front of the name of its type. -/
def readFunction (fuel : Nat) (w : Place) : Option Place := do
  let w ← readParamList fuel ((w.advance.expect .identifier).expect .lparen)
  let w := w.expect .rparen
  if w.next = .semicolon then some w.advance
  else (readBlock (readStatement fuel) fuel w).map (·.2)

/-- A declaration of a file that has so many already: the end of the file is its end, and
anything that is no type, or one declaration too many, gives the file up. -/
def readDeclaration (fuel : Nat) : Nat × Place → Option (Turn (Nat × Place) Bool)
  | (count, w) =>
    if w.next = .eof then some (.leave true)
    else if count ≥ maxFunctionCount then some (.leave false)
    else if w.opensType then do
      let w ← readFunction fuel w
      return .again (count + 1, w)
    else some (.leave false)

/-- A file with these tokens: whether it is read to its end, and nothing where a null pointer
is followed. -/
def readTokens (tokens : List Token) : Option Bool :=
  iterate (readDeclaration (tokens.length + 1)) (tokens.length + 2)
    (0, ⟨Token.zero.type, tokens⟩)

/-! ## Statements -/

/-- Between statements no expression is open, and nothing is being recovered from. -/
structure AtRest (s : Parser) : Prop where
  room : Room maxExpressionDepth s
  panic : s.panicMode = false

theorem AtRest.newNode {s : Parser} (h : AtRest s) : AtRest { s with arena := s.arena + 1 } :=
  ⟨h.room, h.panic⟩

theorem AtRest.advance {s : Parser} (h : AtRest s) : AtRest (parserAdvance s) :=
  ⟨h.room.later (parserAdvance_later s), h.panic⟩

/-- `parser_consume` leaves panic mode in any case. -/
theorem Room.consume {s : Parser} (h : Room maxExpressionDepth s) (type : TokenType)
    (message : String) : AtRest (parserConsume s type message) :=
  ⟨h.later (parserConsume_later s type message), parserConsume_panic s type message⟩

theorem Room.synchronize {s : Parser} (h : Room maxExpressionDepth s) :
    AtRest (parserSynchronize s) :=
  ⟨h.later (parserSynchronize_later s), parserSynchronize_panic s⟩

/-- What a reading says about a statement and the parser behind it. -/
def Settled (node : ASTNode) (s : Parser) (left : NodeKind × Place) : Prop :=
  left = (nodeKind node, placeOf s) ∧ AtRest s

/-- What a reading without a node says about the parser: the place alone, or that it is also
calm. -/
def Reaches {α : Type} (_ : α) (s : Parser) (w : Place) : Prop :=
  w = placeOf s ∧ Room maxExpressionDepth s

def Stands {α : Type} (_ : α) (s : Parser) (w : Place) : Prop := w = placeOf s ∧ AtRest s

/-- What a reading says about the statements or declarations so far. -/
def Keeps (nodes : List ASTNode) (s : Parser) (read : Nat × Place) : Prop :=
  read = (nodes.length, placeOf s) ∧ AtRest s

/-- Calls of `parse_statement`, and their readings. -/
def ReadsAsStmt (stmt : ParseM ASTNode) (read : Place → Reading) : Prop :=
  ∀ s, AtRest s → Shadows Settled stmt (read (placeOf s)) s

section

variable {expr : Precedence → ParseM ASTNode} {read : Precedence → Place → Reading}
  {stmt : ParseM ASTNode} {readStmt : Place → Reading} {s : Parser}

/-- An expression leaves no more than its place. -/
theorem shadows_part (h : Reads maxExpressionDepth expr read) (hs : Room maxExpressionDepth s) :
    Shadows Reaches (expr .none) ((read .none (placeOf s)).map (·.2)) s := by
  refine shadows_map (h .none s hs) fun node s' left hleft => ?_
  obtain ⟨rfl, hs'⟩ := hleft
  exact ⟨rfl, hs'⟩

theorem shadows_stands {x : ParseM ASTNode} {r : Reading} (h : Shadows Settled x r s) :
    Shadows Stands x (r.map (·.2)) s :=
  shadows_map h fun _ _ _ hleft => ⟨congrArg Prod.snd hleft.1, hleft.2⟩

theorem shadows_parseType {α ρ : Type} {view : α → Parser → ρ → Prop} {f : DataType → ParseM α}
    {r : Option ρ} (htype : isTypeKeyword s.next.text = true)
    (h : Shadows view (f (typeFromSv s.next.text)) r (parserAdvance s)) :
    Shadows view (parseType >>= f) r s := by
  refine (wp_bind _ _ _).mpr (wp_parseType (fun _ => h) fun hno _ => ?_)
  rw [htype] at hno
  cases hno

/-- The semicolon behind a statement, and its node. -/
theorem shadows_semicolon (hs : Room maxExpressionDepth s) (message : String)
    {f : Nat → ASTNode} (hf : ∀ addr, nodeKind (f addr) = .other) :
    Shadows Settled (do
        modify (parserConsume · .semicolon message)
        let addr ← newNode
        return f addr : ParseM ASTNode)
      (some (.other, (placeOf s).expect .semicolon)) s := by
  refine shadows_modify (shadows_newNode (shadows_pure ⟨?_, (hs.consume _ _).newNode⟩))
  rw [hf]
  exact congrArg (NodeKind.other, ·) (place_consume s .semicolon message).symm

theorem shadows_varDecl (h : Reads maxExpressionDepth expr read) (hs : AtRest s)
    (htype : isTypeKeyword s.next.text = true) :
    Shadows Settled (parseVarDecl expr) (readVarDecl read (placeOf s)) s := by
  refine shadows_parseType htype (shadows_get ?_)
  rw [if_neg (show ¬ (parserAdvance s).panicMode = true by simp [hs.advance.panic])]
  refine shadows_modify (shadows_get ?_)
  have hs₂ := hs.advance.room.consume .identifier "expected variable name"
  have hplace : placeOf (parserConsume (parserAdvance s) .identifier "expected variable name") =
      (placeOf s).advance.expect .identifier := by
    rw [place_consume, place_advance]
  simp only [readVarDecl]
  rw [← hplace]
  generalize parserConsume (parserAdvance s) .identifier "expected variable name" = s₂ at hs₂ ⊢
  have hend : ∀ (initializer : ASTNode) (s₃ : Parser), Room maxExpressionDepth s₃ →
      Shadows Settled (do
        modify (parserConsume · .semicolon "expected ';'")
        let addr ← newNode
        let varType := typeFromSv s.next.text
        return .varDecl ⟨addr, varType, s₂.current.line, 0⟩ s₂.current.text varType initializer :
          ParseM ASTNode)
        (some (.other, (placeOf s₃).expect .semicolon)) s₃ :=
    fun _ _ hs₃ => shadows_semicolon hs₃ _ fun _ => rfl
  rw [place_next]
  refine shadows_matchToken (fun heq => ?_) fun hne => ?_
  · rw [if_pos heq, ← place_advance]
    refine shadows_bind (shadows_part h hs₂.advance.room) fun init s₃ w hw => ?_
    obtain ⟨rfl, hs₃⟩ := hw
    exact hend init s₃ hs₃
  · rw [if_neg hne]
    exact hend .null s₂ hs₂.room

theorem shadows_return (h : Reads maxExpressionDepth expr read) (hs : AtRest s) :
    Shadows Settled (parseReturn expr) (readReturn read (placeOf s)) s := by
  refine shadows_modify (shadows_get ?_)
  have hs₁ := hs.room.consume .returnKw "expected 'return'"
  simp only [readReturn]
  rw [← place_consume s .returnKw "expected 'return'"]
  generalize parserConsume s .returnKw "expected 'return'" = s₁ at hs₁ ⊢
  have hend : ∀ (expression : ASTNode) (s₂ : Parser), Room maxExpressionDepth s₂ →
      Shadows Settled (do
        modify (parserConsume · .semicolon "expected ';'")
        let addr ← newNode
        return .returnStmt ⟨addr, .void, s₁.current.line, 0⟩ expression : ParseM ASTNode)
        (some (.other, (placeOf s₂).expect .semicolon)) s₂ :=
    fun _ _ hs₂ => shadows_semicolon hs₂ _ fun _ => rfl
  rw [place_next]
  by_cases hsemi : s₁.next.type = .semicolon
  · rw [if_pos hsemi, if_pos hsemi]
    exact hend .null s₁ hs₁.room
  · rw [if_neg hsemi, if_neg hsemi]
    refine shadows_bind (shadows_part h hs₁.room) fun expression s₂ w hw => ?_
    obtain ⟨rfl, hs₂⟩ := hw
    exact hend expression s₂ hs₂

/-- The condition of `if` and `while`, and what follows it. -/
theorem shadows_condition (h : Reads maxExpressionDepth expr read) (hs : AtRest s)
    (keyword : TokenType) (message : String) {f : ASTNode → ParseM ASTNode} {g : Place → Reading}
    (hf : ∀ node s', AtRest s' → Shadows Settled (f node) (g (placeOf s')) s') :
    Shadows Settled (do
        let condition ← expr .none
        modify (parserConsume · .rparen "expected ')'")
        f condition)
      (readCondition read keyword (placeOf s) >>= g)
      (parserConsume (parserConsume s keyword message) .lparen "expected '('") := by
  have hs₁ := (hs.room.consume keyword message).room.consume .lparen "expected '('"
  unfold readCondition
  rw [← place_consume s keyword message, ← place_consume _ .lparen "expected '('"]
  generalize parserConsume (parserConsume s keyword message) .lparen "expected '('" = s₁ at hs₁ ⊢
  rw [bind_assoc]
  refine shadows_bind (h .none s₁ hs₁.room) fun node s₂ left hleft => ?_
  obtain ⟨rfl, hs₂⟩ := hleft
  refine shadows_modify ?_
  have hnode := hf node _ (hs₂.consume .rparen "expected ')'")
  rwa [place_consume] at hnode

theorem shadows_if (h : Reads maxExpressionDepth expr read) (hstmt : ReadsAsStmt stmt readStmt)
    (hs : AtRest s) :
    Shadows Settled (parseIf expr stmt) (readIf read readStmt (placeOf s)) s := by
  refine shadows_modify (shadows_get (shadows_modify ?_))
  refine shadows_condition h hs .ifKw _ fun condition s₁ hs₁ => ?_
  refine shadows_bind (hstmt s₁ hs₁) fun thenBranch s₂ left hleft => ?_
  obtain ⟨rfl, hs₂⟩ := hleft
  have hend : ∀ (elseBranch : ASTNode) (s₃ : Parser), AtRest s₃ →
      Shadows Settled (do
        let addr ← newNode
        return .ifStmt ⟨addr, .void, (parserConsume s .ifKw "expected 'if'").current.line, 0⟩
          condition thenBranch elseBranch : ParseM ASTNode) (some (.other, placeOf s₃)) s₃ :=
    fun _ _ hs₃ => shadows_newNode (shadows_pure ⟨rfl, hs₃.newNode⟩)
  dsimp only
  rw [place_next]
  refine shadows_matchToken (fun helse => ?_) fun helse => ?_
  · rw [if_pos rfl, if_pos helse, ← place_advance]
    refine shadows_bind (shadows_stands (hstmt _ hs₂.advance)) fun elseBranch s₃ w hw => ?_
    obtain ⟨rfl, hs₃⟩ := hw
    exact hend elseBranch s₃ hs₃
  · rw [if_neg Bool.false_ne_true, if_neg helse]
    exact hend .null s₂ hs₂

theorem shadows_while (h : Reads maxExpressionDepth expr read) (hstmt : ReadsAsStmt stmt readStmt)
    (hs : AtRest s) :
    Shadows Settled (parseWhile expr stmt) (readWhile read readStmt (placeOf s)) s := by
  refine shadows_modify (shadows_get (shadows_modify ?_))
  refine shadows_condition h hs .whileKw _ fun condition s₁ hs₁ => ?_
  refine shadows_bind (hstmt s₁ hs₁) fun body s₂ left hleft => ?_
  obtain ⟨rfl, hs₂⟩ := hleft
  exact shadows_newNode (shadows_pure ⟨rfl, hs₂.newNode⟩)

theorem shadows_exprStmt (h : Reads maxExpressionDepth expr read) (hs : AtRest s) :
    Shadows Settled (parseExprStmt expr) (readExprStmt read (placeOf s)) s := by
  refine shadows_bind (h .none s hs.room) fun node s₁ left hleft => ?_
  obtain ⟨rfl, hs₁⟩ := hleft
  refine shadows_modify (shadows_pure ⟨?_, hs₁.consume _ _⟩)
  rw [place_consume]

/-- A turn over the statements of a block; as many are kept as there are nodes. -/
theorem shadows_blockTurn (hstmt : ReadsAsStmt stmt readStmt) (hs : AtRest s)
    (stmts : List ASTNode) :
    Shadows (TurnView Keeps Stands) (blockTurn stmt stmts)
      (readBlockTurn readStmt (stmts.length, placeOf s)) s := by
  refine shadows_get ?_
  dsimp only [readBlockTurn]
  rw [place_next]
  refine shadows_ite Iff.rfl (fun _ => shadows_pure (.leave ⟨rfl, hs⟩)) fun _ => ?_
  refine shadows_ite Iff.rfl (fun _ => ?_) fun _ => ?_
  · refine shadows_modify (shadows_modify (shadows_pure (.leave ⟨?_, ?_⟩)))
    · rw [place_synchronize, place_error]
    · exact (hs.room.later (parserError_later s _)).synchronize
  · refine shadows_bind (hstmt s hs) fun node s₁ left hleft => ?_
    obtain ⟨rfl, hs₁⟩ := hleft
    refine shadows_ite isNull_iff (fun _ => ?_) fun _ => ?_
    · refine shadows_modify (shadows_pure (.again ⟨?_, hs₁.room.synchronize⟩))
      rw [place_synchronize]
    · refine shadows_pure (.again ⟨?_, hs₁⟩)
      rw [List.length_append]
      rfl

theorem shadows_block (hstmt : ReadsAsStmt stmt readStmt) (fuel : Nat) (hs : AtRest s) :
    Shadows Settled (parseBlock stmt fuel) (readBlock readStmt fuel (placeOf s)) s := by
  refine shadows_modify ?_
  have hs₁ := hs.room.consume .lbrace "Expected '\x7b'"
  unfold readBlock
  rw [← place_consume s .lbrace "Expected '\x7b'"]
  generalize parserConsume s .lbrace "Expected '\x7b'" = s₁ at hs₁ ⊢
  have hloop : Shadows Stands (loop .outOfFuel (blockTurn stmt) fuel [])
      (iterate (readBlockTurn readStmt) fuel (0, placeOf s₁)) s₁ := by
    refine shadows_loop (fun stmts s' v hv => ?_) fuel
      (show Keeps [] s₁ (0, placeOf s₁) from ⟨rfl, hs₁⟩)
    obtain ⟨rfl, hs'⟩ := hv
    exact shadows_blockTurn hstmt hs' stmts
  refine shadows_bind hloop fun stmts s₂ w hw => ?_
  obtain ⟨rfl, hs₂⟩ := hw
  have hs₃ := hs₂.room.consume .rbrace "Expected '\x7d'"
  refine shadows_modify (shadows_newNode (shadows_pure ⟨?_, hs₃.newNode⟩))
  exact congrArg (NodeKind.other, ·) (place_consume s₂ .rbrace _).symm

end

/-- `parse_statement` ends as the reading of the tokens to come says. -/
theorem shadows_statement (fuel : Nat) :
    ReadsAsStmt (parseStatement fuel) (readStatement fuel) := by
  induction fuel with
  | zero => exact fun s _ => shadows_throw _ s
  | succ fuel ih =>
    intro s hs
    have hexpr := shadows_expression (fuel + 1) maxExpressionDepth
    refine shadows_get ?_
    unfold readStatement
    rw [place_next]
    cases hfn : (rules s.next.type).stmtFn with
    | none => exact shadows_exprStmt hexpr hs
    | some fn =>
      cases fn with
      | parseVarDecl => exact shadows_varDecl hexpr hs (isTypeKeyword_of_varDecl s.lexical.1 hfn)
      | parseIf => exact shadows_if hexpr ih hs
      | parseWhile => exact shadows_while hexpr ih hs
      | parseReturn => exact shadows_return hexpr hs
      | parseBlock => exact shadows_block ih fuel hs

/-! ## Functions and files -/

theorem opensType_eq (s : Parser) : (placeOf s).opensType = isTypeKeyword s.next.text := by
  by_cases heof : s.next.type = .eof
  · have htext : s.next.text = [] := by
      have hlex := s.lexical.1
      unfold Token.Lexical at hlex
      rw [heof] at hlex
      exact List.isEmpty_iff.mp hlex
    unfold Place.opensType placeOf
    rw [Parser.tokens_eq_nil.mpr heof, htext]
    show false = isTypeKeyword []
    decide
  · unfold Place.opensType placeOf
    rw [Parser.tokens_of_ne heof]
    rfl

section

variable {s : Parser}

theorem shadows_paramTurn (hs : AtRest s) (params : List Parameter) :
    Shadows (TurnView Stands Stands) (paramTurn params) (readParam (placeOf s)) s := by
  have hrest : ∀ (paramType : DataType) (s₁ : Parser), Room maxExpressionDepth s₁ →
      placeOf s₁ = (if (placeOf s).opensType = true then (placeOf s).advance else placeOf s) →
      Shadows (TurnView Stands Stands) (do
        modify (parserConsume · .identifier "expected parameter name")
        let s ← get
        if params.length ≥ paramCapacity then
          set { s with overrun := true }
        let params := params ++ [⟨s.current.text, paramType⟩]
        if ← matchToken .comma then return .again params else return .leave params :
          ParseM (Turn (List Parameter) (List Parameter)))
        (readParam (placeOf s)) s₁ := by
    intro paramType s₁ hs₁ hplace
    refine shadows_modify (shadows_get ?_)
    have hs₂ := hs₁.consume .identifier "expected parameter name"
    simp only [readParam]
    rw [← hplace, ← place_consume s₁ .identifier "expected parameter name"]
    generalize parserConsume s₁ .identifier "expected parameter name" = s₂ at hs₂ ⊢
    have hturn : ∀ s₃ : Parser, placeOf s₃ = placeOf s₂ → AtRest s₃ → ∀ params : List Parameter,
        Shadows (TurnView Stands Stands) (do
          if ← matchToken .comma then return .again params else return .leave params :
            ParseM (Turn (List Parameter) (List Parameter)))
          (if (placeOf s₂).next = .comma then some (.again (placeOf s₂).advance)
            else some (.leave (placeOf s₂))) s₃ := by
      intro s₃ hplace₃ hs₃ params
      rw [← hplace₃, place_next]
      refine shadows_matchToken (fun hcomma => ?_) fun hcomma => ?_
      · rw [if_pos hcomma]
        exact shadows_pure (.again ⟨(place_advance s₃).symm, hs₃.advance⟩)
      · rw [if_neg hcomma]
        exact shadows_pure (.leave ⟨rfl, hs₃⟩)
    split
    · exact shadows_set (hturn { s₂ with overrun := true } rfl ⟨hs₂.room, hs₂.panic⟩ _)
    · exact hturn s₂ rfl hs₂ _
  refine (wp_bind _ _ _).mpr (wp_parseType (fun htype => ?_) fun htype message => ?_)
  · refine hrest _ _ hs.advance.room ?_
    rw [opensType_eq, if_pos htype, place_advance]
  · refine hrest _ _ (hs.room.later (parserError_later s message)) ?_
    rw [opensType_eq, if_neg (by simp [htype]), place_error]

theorem shadows_paramList (fuel : Nat) (hs : AtRest s) :
    Shadows Stands (parseParamList fuel) (readParamList fuel (placeOf s)) s := by
  refine shadows_get ?_
  unfold readParamList
  rw [place_next]
  refine shadows_ite Iff.rfl (fun _ => shadows_pure ⟨rfl, hs⟩) fun _ => ?_
  refine shadows_ite Iff.rfl (fun _ => ?_) fun _ => ?_
  · exact shadows_set (shadows_pure ⟨(place_advance s).symm, hs.advance⟩)
  · have hstart : Stands ([] : List Parameter) s (placeOf s) := ⟨rfl, hs⟩
    refine shadows_loop (fun params s' w hw => ?_) fuel hstart
    obtain ⟨rfl, hs'⟩ := hw
    exact shadows_paramTurn hs' params

theorem shadows_function (fuel : Nat) (hs : AtRest s) (htype : isTypeKeyword s.next.text = true) :
    Shadows Stands (parseFunction fuel) (readFunction fuel (placeOf s)) s := by
  refine shadows_parseType htype (shadows_get ?_)
  rw [if_neg (show ¬ (parserAdvance s).panicMode = true by simp [hs.advance.panic])]
  refine shadows_modify (shadows_get (shadows_modify ?_))
  have hs₂ := (hs.advance.room.consume .identifier "expected function name.").room.consume .lparen
    "expected '(' after function name."
  unfold readFunction
  rw [← place_advance, ← place_consume _ .identifier "expected function name.",
    ← place_consume _ .lparen "expected '(' after function name."]
  refine shadows_bind (shadows_paramList fuel hs₂) fun params s₃ w hw => ?_
  obtain ⟨rfl, hs₃⟩ := hw
  refine shadows_modify ?_
  have hs₄ := hs₃.room.consume .rparen "expected ')' after parameters."
  dsimp only
  rw [← place_consume s₃ .rparen "expected ')' after parameters."]
  generalize parserConsume s₃ .rparen "expected ')' after parameters." = s₄ at hs₄ ⊢
  rw [place_next]
  refine shadows_matchToken (fun hsemi => ?_) fun hsemi => ?_
  · rw [if_pos hsemi]
    exact ⟨_, rfl, (place_advance s₄).symm, hs₄.advance.newNode⟩
  · rw [if_neg hsemi]
    have hblock := shadows_stands (shadows_block (shadows_statement fuel) fuel hs₄)
    refine (wp_bind _ _ _).mpr (wp_mono hblock fun body s₅ hr => ?_)
    obtain ⟨w, hr, rfl, hs₅⟩ := hr
    exact ⟨placeOf s₅, hr, rfl, hs₅.newNode⟩

/-- The loop of `parser_parse` has read so many declarations. -/
theorem shadows_declarationTurn (fuel : Nat) (hs : AtRest s) (declarations : List ASTNode) :
    Shadows (TurnView Keeps fun r _ complete => r.isSome = complete)
      (declarationTurn fuel declarations)
      (readDeclaration fuel (declarations.length, placeOf s)) s := by
  refine shadows_get ?_
  dsimp only [readDeclaration]
  rw [place_next, opensType_eq]
  refine shadows_ite Iff.rfl (fun _ => shadows_pure (.leave rfl)) fun _ => ?_
  refine shadows_ite Iff.rfl (fun _ => shadows_set (shadows_pure (.leave rfl))) fun _ => ?_
  refine shadows_ite Iff.rfl (fun htype => ?_) fun _ => shadows_set (shadows_pure (.leave rfl))
  refine shadows_bind (shadows_function fuel hs htype) fun node s' w hw => ?_
  obtain ⟨rfl, hs'⟩ := hw
  refine shadows_pure (.again ⟨?_, hs'⟩)
  rw [List.length_append]
  rfl

end

/-- `parser_parse` returns as the reading of the tokens says: a tree if the file is read to
its end, and a null pointer if it is given up. -/
theorem shadows_parserParse (lexer : TokenStream) (filename : String) (arena : Nat)
    (errors : ErrorContext) :
    Shadows (fun node _ complete => !node.isNull = complete)
      (parseUnit (lexer.proper.length + 1)) (readTokens lexer.proper)
      (parserInit lexer filename arena errors) := by
  have htokens := parserInit_tokens lexer filename arena errors
  have hplace : placeOf (parserInit lexer filename arena errors) =
      ⟨Token.zero.type, lexer.proper⟩ := by
    unfold placeOf
    rw [htokens]
    rfl
  have hcalm : AtRest (parserInit lexer filename arena errors) := ⟨rfl, rfl⟩
  generalize parserInit lexer filename arena errors = s at htokens hplace hcalm ⊢
  have hloop : Shadows (fun r _ complete => Option.isSome r = complete)
      (loop .outOfFuel (declarationTurn (lexer.proper.length + 1)) (lexer.proper.length + 1 + 1) [])
      (readTokens lexer.proper) s := by
    unfold readTokens
    rw [← hplace]
    refine shadows_loop (fun declarations s' v hv => ?_) _
      (show Keeps [] s (0, placeOf s) from ⟨rfl, hcalm⟩)
    obtain ⟨rfl, hs'⟩ := hv
    exact shadows_declarationTurn _ hs' declarations
  refine (wp_bind _ _ _).mpr (wp_mono hloop fun r s' hr => ?_)
  obtain ⟨complete, hread, rfl⟩ := hr
  cases r with
  | none => exact ⟨false, hread, rfl⟩
  | some declarations => exact ⟨true, hread, rfl⟩

end TinyCompile.Parser
