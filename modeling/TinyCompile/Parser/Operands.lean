import TinyCompile.Logic.Shadow
import TinyCompile.Parser.Terminates

set_option autoImplicit false

/-!
# Parser: missing operands

`parse_expression` goes on behind an expression that came to nothing, and its loop hands
the null pointer on: `parse_binary` stores it, `parse_assignment` and `parse_call` follow
it.  Which operands are missing is decided by the types of the tokens to come and by how
many expressions may still be opened.  The readings below say so without a parser: they
keep the place in the tokens and what kind of operand stands on the left, and fail where
`=` or `(` meets no operand at all.
-/

namespace TinyCompile.Parser

open TinyCompile.Source TinyCompile.Logic

/-! ## Places -/

/-- What the parser looks at in a node. -/
inductive NodeKind where
  | null | identifier | other
  deriving DecidableEq

def nodeKind : ASTNode → NodeKind
  | .null => .null
  | .identifier _ _ => .identifier
  | _ => .other

theorem isNull_iff {node : ASTNode} : node.isNull = true ↔ nodeKind node = .null := by
  cases node <;> simp [ASTNode.isNull, nodeKind]

/-- Where the parser stands: the type of the token taken last and the tokens to come. -/
structure Place where
  current : TokenType
  ahead : List Token
  deriving DecidableEq

namespace Place

/-- The type of the next token, behind the last one that of the end of the file. -/
def next (w : Place) : TokenType := (w.ahead.map (·.type)).headD .eof

/-- Behind the next token. -/
def advance (w : Place) : Place := ⟨w.next, w.ahead.tail⟩

/-- Where the error recovery comes to: behind a semicolon, in front of a token that starts
a statement, or at the end. -/
def recoverFrom : TokenType → List Token → Place
  | current, [] => ⟨current, []⟩
  | current, t :: ahead =>
      if current = .semicolon ∨ startsStatement t.type = true then ⟨current, t :: ahead⟩
      else recoverFrom t.type ahead

def recover (w : Place) : Place := recoverFrom w.current w.ahead

/-- Behind a token of a type, or where the recovery from its absence comes to. -/
def expect (w : Place) (type : TokenType) : Place :=
  if w.next = type then w.advance else w.recover

/-- Behind a closing parenthesis. -/
def close (w : Place) : Place := w.expect .rparen

end Place

/-! ## Readings -/

/-- What an expression leaves on the left of what follows it, and where. -/
abbrev Reading := Option (NodeKind × Place)

section

variable (expr : Precedence → Place → Reading)

/-- The operand an expression starts with. -/
def readPrefix (w : Place) : PrefixFn → Reading
  | .parseNumber => some (.other, w)
  | .parseIdentifier => some (.identifier, w)
  | .parseUnary => do
      let (_, w') ← expr .unary w
      return (.other, w')
  | .parseGrouping => do
      let (kind, w') ← expr .none w
      return (kind, w'.close)

/-- An argument, and whether another one follows. -/
def readArgument : Nat × Place → Option (Turn (Nat × Place) Place)
  | (count, w) =>
    if count ≥ maxParamsPerFunction then some (.leave w.recover)
    else do
      let (kind, w') ← expr .assignment w
      if kind = .null then some (.leave w'.recover)
      else if w'.next = .comma then some (.again (count + 1, w'.advance))
      else some (.leave w')

/-- The arguments of a call. -/
def readArguments (fuel : Nat) (w : Place) : Option Place :=
  if w.next = .rparen then some w else iterate (readArgument expr) fuel (0, w)

/-- What an operator or a parenthesis makes of the operand on its left. -/
def readInfix (fuel : Nat) (kind : NodeKind) (w : Place) : InfixFn → Reading
  | .parseBinary => do
      let (_, w') ← expr (getTokenPrecedence w.current) w
      return (.other, w')
  | .parseAssignment =>
      match kind with
      | .null => none
      | .identifier => do
          let (_, w') ← expr .assignment w
          return (.other, w')
      -- only the `=` is taken
      | .other => some (.null, w)
  | .parseCall =>
      match kind with
      | .null => none
      | .identifier => do
          let w' ← readArguments expr fuel w
          return (.other, w'.close)
      -- only the `(` is taken
      | .other => some (.null, w)

/-- What follows an operand, as far as it binds tighter than the precedence. -/
def readTurn (fuel : Nat) (precedence : Precedence) :
    NodeKind × Place → Option (Turn (NodeKind × Place) (NodeKind × Place))
  | (kind, w) =>
    if precedence.rank < (getTokenPrecedence w.next).rank then
      match (rules w.next).infixFn with
      | some fn => do
          let left ← readInfix expr fuel kind w.advance fn
          return .again left
      | none => some (.again (kind, w.advance))
    else some (.leave (kind, w))

end

/-- An expression, where so many may still be opened. -/
def readExpression : Nat → Nat → Precedence → Place → Reading
  | 0, _, _, _ => none
  | _ + 1, 0, _, w => some (.null, w)
  | fuel + 1, levels + 1, precedence, w =>
      match (rules w.next).prefixFn with
      | some fn => do
          let left ← readPrefix (readExpression fuel levels) w.advance fn
          iterate (readTurn (readExpression fuel levels) fuel precedence) fuel left
      | none => some (.null, w.advance)

/-! ## The place of a parser -/

/-- The place a parser stands at. -/
def placeOf (s : Parser) : Place := ⟨s.current.type, s.tokens⟩

section

variable (s : Parser)

@[simp] theorem place_next : (placeOf s).next = s.next.type := by
  show (s.tokens.map (·.type)).headD .eof = s.next.type
  by_cases heof : s.next.type = .eof
  · rw [Parser.tokens_eq_nil.mpr heof]
    exact heof.symm
  · rw [Parser.tokens_of_ne heof]
    rfl

@[simp] theorem place_advance : placeOf (parserAdvance s) = (placeOf s).advance := by
  show Place.mk s.next.type _ = Place.mk (placeOf s).next _
  rw [place_next, parserAdvance_tokens]
  rfl

@[simp] theorem place_error (message : String) : placeOf (parserError s message) = placeOf s := by
  have hcurrent : (parserError s message).current = s.current := by
    unfold parserError
    split <;> rfl
  unfold placeOf
  rw [hcurrent, parserError_tokens]

end

theorem place_synchronizeLoop (n : Nat) (s : Parser) (h : s.tokens.length ≤ n) :
    placeOf (synchronizeLoop n s) = (placeOf s).recover := by
  induction n generalizing s with
  | zero =>
    have hnil : s.tokens = [] := List.length_eq_zero_iff.mp (by omega)
    unfold placeOf Place.recover
    rw [show synchronizeLoop 0 s = s from rfl, hnil]
    rfl
  | succ n ih =>
    unfold synchronizeLoop
    by_cases heof : s.next.type = .eof
    · rw [if_pos heof]
      unfold placeOf Place.recover
      rw [Parser.tokens_eq_nil.mpr heof]
      rfl
    · have hahead : placeOf s = ⟨s.current.type, s.next :: (parserAdvance s).tokens⟩ := by
        unfold placeOf
        rw [Parser.tokens_of_ne heof]
      have hlen : (parserAdvance s).tokens.length ≤ n := by
        rw [Parser.tokens_of_ne heof, List.length_cons] at h
        omega
      have hrecover : (placeOf s).recover =
          if s.current.type = .semicolon ∨ startsStatement s.next.type = true then placeOf s
          else (placeOf (parserAdvance s)).recover := by
        rw [hahead]
        rfl
      rw [if_neg heof, hrecover]
      by_cases hsemi : s.current.type = .semicolon
      · rw [if_pos hsemi, if_pos (.inl hsemi)]
      · rw [if_neg hsemi]
        by_cases hstart : startsStatement s.next.type = true
        · rw [if_pos hstart, if_pos (.inr hstart)]
        · rw [if_neg hstart, if_neg (not_or.mpr ⟨hsemi, hstart⟩)]
          exact ih _ hlen

@[simp] theorem place_synchronize (s : Parser) :
    placeOf (parserSynchronize s) = (placeOf s).recover :=
  place_synchronizeLoop _ { s with panicMode := false } (Nat.le_refl _)

@[simp] theorem place_consume (s : Parser) (type : TokenType) (message : String) :
    placeOf (parserConsume s type message) = (placeOf s).expect type := by
  unfold parserConsume Place.expect
  rw [place_next]
  split
  · exact place_advance s
  · rw [place_synchronize, place_error]

/-! ## The parser reads -/

/-- So many expressions may still be opened. -/
def Room (levels : Nat) (s : Parser) : Prop := s.exprDepth + levels = maxExpressionDepth

theorem Room.later {levels : Nat} {s s' : Parser} (h : Room levels s) (hs : Later s s') :
    Room levels s' := by
  unfold Room at h ⊢
  rw [hs.depth]
  exact h

/-- What a reading says about a node and the parser that made it. -/
def Leaves (levels : Nat) (node : ASTNode) (s : Parser) (left : NodeKind × Place) : Prop :=
  left = (nodeKind node, placeOf s) ∧ Room levels s

/-- What a reading says about the arguments so far. -/
def Counts (levels : Nat) (args : List ASTNode) (s : Parser) (read : Nat × Place) : Prop :=
  read = (args.length, placeOf s) ∧ Room levels s

/-- Calls of `parse_expression`, and their readings. -/
def Reads (levels : Nat) (expr : Precedence → ParseM ASTNode)
    (read : Precedence → Place → Reading) : Prop :=
  ∀ p s, Room levels s → Shadows (Leaves levels) (expr p) (read p (placeOf s)) s

section

variable {levels : Nat} {expr : Precedence → ParseM ASTNode}
  {read : Precedence → Place → Reading} {s : Parser}

theorem shadows_newNode {α ρ : Type} {view : α → Parser → ρ → Prop} {f : Nat → ParseM α}
    {r : Option ρ} (h : Shadows view (f s.arena) r { s with arena := s.arena + 1 }) :
    Shadows view (newNode >>= f) r s :=
  h

theorem shadows_matchToken {α ρ : Type} {view : α → Parser → ρ → Prop} {type : TokenType}
    {f : Bool → ParseM α} {r : Option ρ}
    (hyes : s.next.type = type → Shadows view (f true) r (parserAdvance s))
    (hno : s.next.type ≠ type → Shadows view (f false) r s) :
    Shadows view (matchToken type >>= f) r s :=
  (wp_bind _ _ _).mpr (wp_matchToken hyes hno)

/-- The result of an expression becomes part of a node. -/
theorem shadows_operand (h : Reads levels expr read) (p : Precedence) (hs : Room levels s)
    {f : ASTNode → ParseM ASTNode}
    (hf : ∀ node s', Room levels s' →
      Shadows (Leaves levels) (f node) (some (.other, placeOf s')) s') :
    Shadows (Leaves levels) (expr p >>= f) (do
      let (_, w) ← read p (placeOf s)
      return (NodeKind.other, w)) s := by
  refine shadows_bind (h p s hs) fun node s' left hleft => ?_
  obtain ⟨rfl, hs'⟩ := hleft
  exact hf node s' hs'

theorem shadows_prefix (h : Reads levels expr read) (hs : Room levels s) (fn : PrefixFn) :
    Shadows (Leaves levels) (callPrefix expr fn) (readPrefix read (placeOf s) fn) s := by
  cases fn with
  | parseNumber => exact shadows_newNode (shadows_get (shadows_pure ⟨rfl, hs⟩))
  | parseIdentifier => exact shadows_newNode (shadows_get (shadows_pure ⟨rfl, hs⟩))
  | parseUnary =>
    refine shadows_get (shadows_newNode ?_)
    refine shadows_operand (s := { s with arena := s.arena + 1 }) h .unary hs fun node s' hs' => ?_
    split <;> exact shadows_pure ⟨rfl, hs'⟩
  | parseGrouping =>
    refine shadows_bind (h .none s hs) fun node s' left hleft => ?_
    obtain ⟨rfl, hs'⟩ := hleft
    refine shadows_modify (shadows_pure ⟨?_, hs'.later (parserConsume_later _ _ _)⟩)
    rw [place_consume]
    rfl

/-- A turn over the arguments of a call; as many have been read as there are nodes. -/
theorem shadows_argument (h : Reads levels expr read) (hs : Room levels s)
    (args : List ASTNode) :
    Shadows (TurnView (Counts levels) fun _ s' w => w = placeOf s' ∧ Room levels s')
      (argTurn expr args) (readArgument read (args.length, placeOf s)) s := by
  refine shadows_ite Iff.rfl (fun _ => ?_) fun _ => ?_
  · refine shadows_modify (shadows_modify (shadows_pure (.leave ⟨?_, ?_⟩)))
    · rw [place_synchronize, place_error]
    · exact hs.later ((parserError_later s _).trans (parserSynchronize_later _))
  · refine shadows_bind (h .assignment s hs) fun arg s' left hleft => ?_
    obtain ⟨rfl, hs'⟩ := hleft
    refine shadows_ite isNull_iff (fun _ => ?_) fun _ => ?_
    · refine shadows_modify (shadows_pure (.leave ⟨?_, ?_⟩))
      · rw [place_synchronize]
      · exact hs'.later (parserSynchronize_later _)
    · rw [place_next]
      refine shadows_matchToken (fun hcomma => ?_) fun hcomma => ?_
      · rw [if_pos hcomma]
        refine shadows_pure (.again ⟨?_, hs'.later (parserAdvance_later _)⟩)
        rw [place_advance, List.length_append]
        rfl
      · rw [if_neg hcomma]
        exact shadows_pure (.leave ⟨rfl, hs'⟩)

theorem shadows_assignment (h : Reads levels expr read) (hs : Room levels s) (fuel : Nat)
    (left : ASTNode) :
    Shadows (Leaves levels) (parseAssignment expr left)
      (readInfix read fuel (nodeKind left) (placeOf s) .parseAssignment) s := by
  cases left with
  | null => exact shadows_throw _ s
  | identifier info name =>
    refine shadows_newNode ?_
    refine shadows_operand (s := { s with arena := s.arena + 1 }) h .assignment hs fun _ _ hs' => ?_
    exact shadows_pure ⟨rfl, hs'⟩
  | _ =>
    refine shadows_modify (shadows_pure ⟨?_, hs.later (parserError_later s _)⟩)
    rw [place_error]
    rfl

theorem shadows_call (h : Reads levels expr read) (hs : Room levels s) (fuel : Nat)
    (callee : ASTNode) :
    Shadows (Leaves levels) (parseCall expr fuel callee)
      (readInfix read fuel (nodeKind callee) (placeOf s) .parseCall) s := by
  cases callee with
  | null => exact shadows_throw _ s
  | identifier info name =>
    refine shadows_newNode (shadows_get ?_)
    have hclose : ∀ (args : List ASTNode) (s' : Parser), Room levels s' →
        Shadows (Leaves levels)
          (do
            modify (parserConsume · .rparen "Expected ')' after arguments")
            return .call ⟨s.arena, .void, info.line, info.column⟩ name args : ParseM ASTNode)
          (some (.other, (placeOf s').close)) s' := by
      intro args s' hs'
      refine shadows_modify (shadows_pure ⟨?_, hs'.later (parserConsume_later _ _ _)⟩)
      rw [place_consume]
      rfl
    have hread : readInfix read fuel .identifier (placeOf s) .parseCall =
        if s.next.type = .rparen then some (.other, (placeOf s).close)
        else iterate (readArgument read) fuel (0, placeOf s) >>= fun w =>
          some (.other, w.close) := by
      show (readArguments read fuel (placeOf s) >>= fun w => some (NodeKind.other, w.close)) = _
      unfold readArguments
      rw [place_next]
      split <;> rfl
    rw [show nodeKind (.identifier info name) = .identifier from rfl, hread]
    have hargs : Shadows (fun _ s' w => w = placeOf s' ∧ Room levels s')
        (loop .outOfFuel (argTurn expr) fuel []) (iterate (readArgument read) fuel (0, placeOf s))
        { s with arena := s.arena + 1 } := by
      refine shadows_loop (fun args s' v hv => ?_) fuel
        (show Counts levels [] { s with arena := s.arena + 1 } (0, placeOf s) from ⟨rfl, hs⟩)
      obtain ⟨rfl, hs'⟩ := hv
      exact shadows_argument h hs' args
    refine shadows_ite Iff.rfl (fun _ => ?_) fun _ => ?_
    · exact hclose [] { s with arena := s.arena + 1 } hs
    · refine shadows_bind hargs fun args s' w hw => ?_
      obtain ⟨rfl, hs'⟩ := hw
      exact hclose args s' hs'
  | _ =>
    refine shadows_modify (shadows_pure ⟨?_, hs.later (parserError_later s _)⟩)
    rw [place_error]
    rfl

/-- The infix functions, called behind the token that selects them. -/
theorem shadows_infix (h : Reads levels expr read) (hs : Room levels s) (fuel : Nat)
    (left : ASTNode) {fn : InfixFn} (hfn : (rules s.current.type).infixFn = some fn) :
    Shadows (Leaves levels) (callInfix expr fuel left fn)
      (readInfix read fuel (nodeKind left) (placeOf s) fn) s := by
  cases fn with
  | parseBinary =>
    obtain ⟨op, hop⟩ : ∃ op, binaryOp s.current.type = some op := by
      cases htype : s.current.type <;> rw [htype] at hfn <;> cases hfn <;> exact ⟨_, rfl⟩
    refine shadows_get (shadows_newNode ?_)
    rw [hop]
    refine shadows_operand (s := { s with arena := s.arena + 1 }) h _ hs fun _ _ hs' => ?_
    exact shadows_pure ⟨rfl, hs'⟩
  | parseAssignment => exact shadows_assignment h hs fuel left
  | parseCall => exact shadows_call h hs fuel left

theorem shadows_infixTurn (h : Reads levels expr read) (hs : Room levels s) (fuel : Nat)
    (p : Precedence) (left : ASTNode) :
    Shadows (TurnView (Leaves levels) (Leaves levels)) (infixTurn expr fuel p left)
      (readTurn read fuel p (nodeKind left, placeOf s)) s := by
  refine shadows_get ?_
  dsimp only [readTurn]
  rw [place_next]
  refine shadows_ite Iff.rfl (fun _ => ?_) fun _ => shadows_pure (.leave ⟨rfl, hs⟩)
  refine shadows_set ?_
  have hadv : Room levels (parserAdvance s) := hs.later (parserAdvance_later s)
  cases hfn : (rules s.next.type).infixFn with
  | some fn =>
    have hinfix := shadows_infix h hadv fuel left hfn
    rw [place_advance] at hinfix
    refine shadows_bind hinfix fun node s' v hv => shadows_pure (.again hv)
  | none =>
    refine shadows_pure (.again ⟨?_, hadv⟩)
    rw [place_advance]

end

/-- The last step changes the view only. -/
theorem shadows_leave {view view' : ASTNode → Parser → NodeKind × Place → Prop}
    {x : ParseM ASTNode} {g : Parser → Parser} {r : Reading} {s : Parser}
    (hview : ∀ node s' left, view node s' left → view' node (g s') left)
    (h : Shadows view x r s) :
    Shadows view' (do let node ← x; modify g; return node) r s := by
  refine (wp_bind _ _ _).mpr (wp_mono h fun node s' hr => ?_)
  obtain ⟨left, hr, hv⟩ := hr
  exact ⟨left, hr, hview node s' left hv⟩

/-- `parse_expression` ends as the reading of the tokens to come says. -/
theorem shadows_expression (fuel levels : Nat) :
    Reads levels (parseExpression fuel) (readExpression fuel levels) := by
  induction fuel generalizing levels with
  | zero => exact fun _ s _ => shadows_throw _ s
  | succ fuel ih =>
    intro p s hs
    refine shadows_get ?_
    cases levels with
    | zero =>
      have hfull : ¬ s.exprDepth < maxExpressionDepth := by
        unfold Room at hs
        omega
      rw [dif_neg hfull]
      refine shadows_set (shadows_pure ⟨?_, Room.later hs (parserError_later s _)⟩)
      rw [place_error]
      rfl
    | succ levels =>
      have hopen : s.exprDepth + (levels + 1) = maxExpressionDepth := hs
      have hdepth : s.exprDepth < maxExpressionDepth := by omega
      rw [dif_pos hdepth]
      refine shadows_set ?_
      -- between `expr_depth++` and `expr_depth--`
      have hroom : Room levels (parserAdvance (s.enterExpression hdepth)) := by
        show s.exprDepth + 1 + levels = maxExpressionDepth
        omega
      have hplace : placeOf (parserAdvance (s.enterExpression hdepth)) = (placeOf s).advance :=
        place_advance s
      have hback : ∀ (node : ASTNode) (s' : Parser) (left : NodeKind × Place),
          Leaves levels node s' left →
          Leaves (levels + 1) node s'.leaveExpression left := by
        intro node s' left hleft
        refine ⟨hleft.1, ?_⟩
        have hs' : s'.exprDepth + levels = maxExpressionDepth := hleft.2
        show s'.exprDepth - 1 + (levels + 1) = maxExpressionDepth
        omega
      unfold readExpression
      rw [place_next]
      cases hfn : (rules s.next.type).prefixFn with
      | some fn =>
        have hprefix := shadows_prefix (ih levels) hroom fn
        rw [hplace] at hprefix
        refine shadows_bind hprefix fun left s₁ v hv => ?_
        refine shadows_leave hback (shadows_loop (fun node s' v hv => ?_) fuel hv)
        obtain ⟨rfl, hs'⟩ := hv
        exact shadows_infixTurn (ih levels) hs' fuel p node
      | none =>
        refine shadows_modify (shadows_modify (shadows_pure (hback _ _ _ ⟨?_, ?_⟩)))
        · rw [place_error, hplace]
          rfl
        · exact hroom.later (parserError_later _ _)

/-! ## Which expressions have all their operands -/

/-- No `=` and no `(` of an expression stands where its left operand is missing. -/
def OperandsPresent (fuel : Nat) (p : Precedence) (s : Parser) : Prop :=
  readExpression fuel (maxExpressionDepth - s.exprDepth) p (placeOf s) ≠ none

instance (fuel : Nat) (p : Precedence) (s : Parser) : Decidable (OperandsPresent fuel p s) :=
  inferInstanceAs (Decidable (_ ≠ _))

/-- A call of `parse_expression` hands no null pointer to `parse_assignment` or
`parse_call` if and only if the operands are present among the tokens to come. -/
theorem operandsPresent_iff {fuel : Nat} {s : Parser} (h : s.tokens.length < fuel)
    (p : Precedence) :
    parseExpression fuel p s ≠ .error .nullPointer ↔ OperandsPresent fuel p s := by
  have hroom : Room (maxExpressionDepth - s.exprDepth) s :=
    Nat.add_sub_cancel' s.depthLe
  refine Iff.trans ?_ (shadows_expression fuel _ p s hroom).returns_iff
  have hends := parseExpression_ends fuel p s h
  constructor
  · intro hnot
    cases hrun : parseExpression fuel p s with
    | ok result => exact ⟨result.1, result.2, rfl⟩
    | error e =>
      have he : OnlyNull e := wp_of_error hrun hends
      obtain rfl := he
      exact absurd hrun hnot
  · rintro ⟨node, s', hrun⟩ hstop
    rw [hrun] at hstop
    cases hstop

/-- In `1 = = 2` the second `=` finds nothing on its left; in the other expression every
parenthesis does. -/
theorem operandsPresent_iff_assignments :
    parseExpression 9 .none (parserInit (tokenStream (svOf "1 = = 2")) "a.c" 0 .init) =
        .error .nullPointer ∧
      parseExpression 12 .none (parserInit (tokenStream (svOf "x = (y) + f(1)")) "a.c" 0 .init) ≠
        .error .nullPointer := by
  refine ⟨?_, (operandsPresent_iff (by decide +kernel) .none).mpr (by decide +kernel)⟩
  refine Classical.byContradiction fun h => ?_
  have hpresent := (operandsPresent_iff (by decide +kernel) .none).mp h
  exact absurd hpresent (by decide +kernel)

/-- The run came to a null pointer. -/
def nullReached {α : Type} : Except Stop α → Bool
  | .error .nullPointer => true
  | _ => false

theorem eq_of_nullReached {α : Type} {r : Except Stop α} (h : nullReached r = true) :
    r = .error .nullPointer := by
  cases r with
  | ok a => cases h
  | error e =>
    cases e with
    | nullPointer => rfl
    | outOfFuel => cases h

/-- An assignment to an assignment: the first one is no name, so that the second `=` leaves
nothing for the parenthesis behind it. -/
theorem chainedAssignment_follows_null :
    parserParse (tokenStream (svOf "int main() \x7b int x; int y; x = y = (1); \x7d")) "a.c" 0
      .init = .error .nullPointer :=
  eq_of_nullReached (by decide +kernel)

end TinyCompile.Parser
