import TinyCompile.Semantic.Runs
import TinyCompile.Source.Exchange

set_option autoImplicit false

/-!
# Semantic: exchanging two operands

What the analyzer makes of a tree in which two operands are exchanged, from what it makes
of the tree itself.  The two trees with types are alike: the same but for the exchange and
for the types of expressions, which have the same sizes and signs.
-/

namespace TinyCompile.Semantic

open TinyCompile.Source TinyCompile.Logic

/-! ## Types that are alike -/

/-- Types of the same size and sign. -/
def TypesAlike (type type' : DataType) : Prop :=
  typeSize type = typeSize type' ∧ typeIsUnsigned type = typeIsUnsigned type'

instance (type type' : DataType) : Decidable (TypesAlike type type') :=
  inferInstanceAs (Decidable (_ ∧ _))

theorem TypesAlike.refl (type : DataType) : TypesAlike type type := ⟨rfl, rfl⟩

theorem TypesAlike.trans {type type' type'' : DataType} (h : TypesAlike type type')
    (h' : TypesAlike type' type'') : TypesAlike type type'' :=
  ⟨h.1.trans h'.1, h.2.trans h'.2⟩

theorem TypesAlike.symm {type type' : DataType} (h : TypesAlike type type') :
    TypesAlike type' type :=
  ⟨h.1.symm, h.2.symm⟩

theorem typeSize_eq_zero {type : DataType} : typeSize type = 0 ↔ type = .void := by
  cases type <;> decide

theorem TypesAlike.void {type type' : DataType} (h : TypesAlike type type') :
    type = .void ↔ type' = .void := by
  rw [← typeSize_eq_zero, ← typeSize_eq_zero, h.1]

theorem largerType_alike {left left' right right' : DataType} (hleft : TypesAlike left left')
    (hright : TypesAlike right right') :
    TypesAlike (largerType left right) (largerType left' right') := by
  unfold largerType
  rw [hleft.1, hright.1]
  split
  · exact hleft
  · exact hright

theorem bitwiseType_alike {left left' : DataType} (hleft : TypesAlike left left') :
    TypesAlike (bitwiseType left) (bitwiseType left') := by
  unfold bitwiseType
  rw [hleft.1]
  split
  · exact .refl _
  · exact hleft

/-- Operands of types that are alike give types that are alike. -/
theorem resultType_alike {op : BinaryOp} {left left' right right' type : DataType}
    (hleft : TypesAlike left left') (hright : TypesAlike right right')
    (h : resultType op left right = some type) :
    ∃ type', resultType op left' right' = some type' ∧ TypesAlike type type' := by
  unfold resultType at h ⊢
  split at h
  · cases h
    exact ⟨_, rfl, largerType_alike hleft hright⟩
  · cases h
    exact ⟨_, rfl, .refl _⟩
  · cases h
    exact ⟨_, rfl, bitwiseType_alike hleft⟩
  · cases h

/-! ## Trees that are alike -/

/-- The constant in a tree, if there is one, can be computed. -/
def folds (node : ASTNode) : Bool :=
  match evaluateConstExpression node with
  | .ok _ => true
  | .error _ => false

/-- An operand that may be exchanged. -/
structure Operand (node : ASTNode) : Prop where
  noCall : node.hasCall = false
  folds : folds node = true

mutual

/-- Two trees are the same but for the exchange of operands and for types of expressions
that are alike. -/
inductive Like : ASTNode → ASTNode → Prop
  | refl (node : ASTNode) : Like node node
  | exchange {op : BinaryOp} {info info' : NodeInfo} {left left' right right' : ASTNode}
      (hop : commutes op = true) (htype : TypesAlike info.valueType info'.valueType)
      (hleft : Like left left') (hright : Like right right') (hleftOperand : Operand left)
      (hrightOperand : Operand right) :
      Like (.binary op info left right) (.binary op info' right' left')
  | binary {op : BinaryOp} {info info' : NodeInfo} {left left' right right' : ASTNode}
      (htype : TypesAlike info.valueType info'.valueType) (hleft : Like left left')
      (hright : Like right right') :
      Like (.binary op info left right) (.binary op info' left' right')
  | unary {op : UnaryOp} {info info' : NodeInfo} {operand operand' : ASTNode}
      (htype : TypesAlike info.valueType info'.valueType) (hoperand : Like operand operand') :
      Like (.unary op info operand) (.unary op info' operand')
  | call {info : NodeInfo} {functionName : StringView} {args args' : List ASTNode}
      (hargs : LikeAll args args') :
      Like (.call info functionName args) (.call info functionName args')
  | varDecl {info : NodeInfo} {varName : StringView} {varType : DataType}
      {initializer initializer' : ASTNode} (hinit : Like initializer initializer') :
      Like (.varDecl info varName varType initializer) (.varDecl info varName varType initializer')
  | assignment {info : NodeInfo} {varName : StringView} {value value' : ASTNode}
      (hvalue : Like value value') :
      Like (.assignment info varName value) (.assignment info varName value')
  | ifStmt {info : NodeInfo}
      {condition condition' thenBranch thenBranch' elseBranch elseBranch' : ASTNode}
      (hcondition : Like condition condition') (hthen : Like thenBranch thenBranch')
      (helse : Like elseBranch elseBranch') :
      Like (.ifStmt info condition thenBranch elseBranch)
        (.ifStmt info condition' thenBranch' elseBranch')
  | whileStmt {info : NodeInfo} {condition condition' body body' : ASTNode}
      (hcondition : Like condition condition') (hbody : Like body body') :
      Like (.whileStmt info condition body) (.whileStmt info condition' body')
  | block {info : NodeInfo} {statements statements' : List ASTNode}
      (hstatements : LikeAll statements statements') :
      Like (.block info statements) (.block info statements')
  | returnStmt {info : NodeInfo} {expression expression' : ASTNode}
      (hexpression : Like expression expression') :
      Like (.returnStmt info expression) (.returnStmt info expression')
  | function {info : NodeInfo} {name : StringView} {returnType : DataType}
      {params : List Parameter} {body body' : ASTNode} {isPrototype : Bool}
      (hbody : Like body body') :
      Like (.function info name returnType params body isPrototype)
        (.function info name returnType params body' isPrototype)
  | translationUnit {info : NodeInfo} {declarations declarations' : List ASTNode}
      (hdeclarations : LikeAll declarations declarations') :
      Like (.translationUnit info declarations) (.translationUnit info declarations')

/-- Two lists of trees are alike. -/
inductive LikeAll : List ASTNode → List ASTNode → Prop
  | nil : LikeAll [] []
  | cons {node node' : ASTNode} {rest rest' : List ASTNode} (hnode : Like node node')
      (hrest : LikeAll rest rest') : LikeAll (node :: rest) (node' :: rest')

end

theorem LikeAll.refl (nodes : List ASTNode) : LikeAll nodes nodes := by
  induction nodes with
  | nil => exact .nil
  | cons node nodes ih => exact .cons (.refl node) ih

theorem Like.isNull {node node' : ASTNode} (h : Like node node') : node'.isNull = node.isNull := by
  cases h <;> rfl

/-- Trees that are alike have types that are alike. -/
theorem Like.valueType {node node' : ASTNode} {type : DataType} (h : Like node node')
    (htype : node.valueType? = some type) :
    ∃ type', node'.valueType? = some type' ∧ TypesAlike type type' := by
  cases h with
  | refl => exact ⟨type, htype, .refl type⟩
  | exchange _ halike _ _ _ _ =>
    cases htype
    exact ⟨_, rfl, halike⟩
  | binary halike _ _ =>
    cases htype
    exact ⟨_, rfl, halike⟩
  | unary halike _ =>
    cases htype
    exact ⟨_, rfl, halike⟩
  | _ => exact ⟨type, htype, .refl type⟩

/-! ## Constants -/

theorem constBinary_comm {op : BinaryOp} (h : commutes op = true) (left right : BitVec 64) :
    constBinary op left right = constBinary op right left := by
  cases op with
  | add => rw [constBinary, constBinary, BitVec.add_comm]
  | mul => rw [constBinary, constBinary, BitVec.mul_comm]
  | bitAnd => rw [constBinary, constBinary, BitVec.and_comm]
  | bitOr => rw [constBinary, constBinary, BitVec.or_comm]
  | bitXor => rw [constBinary, constBinary, BitVec.xor_comm]
  | equal | notEqual => rfl
  | _ => cases h

theorem Operand.constant {node : ASTNode} (h : Operand node) :
    ∃ r, evaluateConstExpression node = .ok r := by
  have hfolds := h.folds
  unfold Semantic.folds at hfolds
  split at hfolds
  · exact ⟨_, ‹_›⟩
  · cases hfolds

/-- Trees that are alike have the same constant. -/
theorem Like.constant : ∀ {node node' : ASTNode}, Like node node' →
    evaluateConstExpression node' = evaluateConstExpression node
  | _, _, .refl _ => rfl
  | _, _, @Like.exchange op _ _ _ _ _ _ hop _ hleft hright hleftOperand hrightOperand => by
      obtain ⟨l, hl⟩ := hleftOperand.constant
      obtain ⟨r, hr⟩ := hrightOperand.constant
      unfold evaluateConstExpression
      rw [hleft.constant, hright.constant, hl, hr]
      split
      · rfl
      · cases l with
        | none => cases r <;> rfl
        | some l =>
          cases r with
          | none => rfl
          | some r => exact constBinary_comm hop r l
  | _, _, .binary _ hleft hright => by
      unfold evaluateConstExpression
      rw [hleft.constant, hright.constant]
  | _, _, @Like.unary op _ _ _ _ _ hoperand => by
      cases op with
      | not => rfl
      | _ =>
        unfold evaluateConstExpression
        rw [hoperand.constant]
  | _, _, .call _ => rfl
  | _, _, .varDecl _ => rfl
  | _, _, .assignment _ => rfl
  | _, _, .ifStmt _ _ _ => rfl
  | _, _, .whileStmt _ _ => rfl
  | _, _, .block _ => rfl
  | _, _, .returnStmt _ => rfl
  | _, _, .function _ => rfl
  | _, _, .translationUnit _ => rfl

/-! ## Runs of the analyzer -/

section

variable {sa sa' : SemanticAnalyzer} {node : ASTNode}

theorem Like.binaryType {op : BinaryOp} {left left' right right' : ASTNode} {type : DataType}
    (hleft : Like left left') (hright : Like right right')
    (h : binaryType op left right = some type) :
    ∃ type', binaryType op left' right' = some type' ∧ TypesAlike type type' := by
  unfold Semantic.binaryType at h ⊢
  split at h
  · obtain ⟨leftType, hl, h⟩ := Option.bind_eq_some_iff.mp h
    obtain ⟨rightType, hr, h⟩ := Option.bind_eq_some_iff.mp h
    cases h
    obtain ⟨leftType', hl', halike⟩ := hleft.valueType hl
    obtain ⟨rightType', hr', halike'⟩ := hright.valueType hr
    rw [hl', hr']
    exact ⟨_, rfl, largerType_alike halike halike'⟩
  · cases h
    exact ⟨_, rfl, .refl _⟩
  · obtain ⟨leftType, hl, rfl⟩ := Option.map_eq_some_iff.mp h
    obtain ⟨leftType', hl', halike⟩ := hleft.valueType hl
    rw [hl']
    exact ⟨_, rfl, bitwiseType_alike halike⟩
  · cases h

theorem Like.unaryType {op : UnaryOp} {operand operand' : ASTNode} {type : DataType}
    (h : Like operand operand') (htype : unaryType op operand = some type) :
    ∃ type', unaryType op operand' = some type' ∧ TypesAlike type type' := by
  cases op with
  | not =>
    cases htype
    exact ⟨_, rfl, .refl _⟩
  | _ => exact h.valueType htype

end

/-! ## States that are the same -/

/-- Two states of the analyzer are the same but for what was reported and recorded. -/
def Same (sa sa' : SemanticAnalyzer) : Prop :=
  ∃ errors history, sa' = { sa with errors := errors, history := history }

section

variable {sa sa' sa'' : SemanticAnalyzer}

theorem Same.refl (sa : SemanticAnalyzer) : Same sa sa := ⟨sa.errors, sa.history, rfl⟩

theorem Same.symm (h : Same sa sa') : Same sa' sa := by
  obtain ⟨errors, history, rfl⟩ := h
  exact ⟨sa.errors, sa.history, rfl⟩

theorem Same.trans (h : Same sa sa') (h' : Same sa' sa'') : Same sa sa'' := by
  obtain ⟨errors, history, rfl⟩ := h
  obtain ⟨errors', history', rfl⟩ := h'
  exact ⟨errors', history', rfl⟩

theorem Same.current (h : Same sa sa') : sa'.current = sa.current := by
  obtain ⟨errors, history, rfl⟩ := h
  rfl

theorem Same.visibleFuncs (h : Same sa sa') : sa'.visibleFuncs = sa.visibleFuncs := by
  obtain ⟨errors, history, rfl⟩ := h
  rfl

theorem Same.global (h : Same sa sa') : sa'.global = sa.global := by
  obtain ⟨errors, history, rfl⟩ := h
  rfl

theorem Same.returnType (h : Same sa sa') : sa'.currentReturnType = sa.currentReturnType := by
  obtain ⟨errors, history, rfl⟩ := h
  rfl

/-- A tree that is alike goes where the tree goes. -/
theorem checkTypeCompatibility_like {dest src src' : DataType} {node node' : ASTNode}
    {t : SemanticAnalyzer} (hrun : Returns (checkTypeCompatibility dest src node) sa true sa')
    (hsame : Same sa t) (hlike : Like node node') (htype : TypesAlike src src')
    (hnode : node'.valueType? = some src') :
    Same sa sa' ∧
      ∃ t', Returns (checkTypeCompatibility dest src' node') t true t' ∧ Same sa' t' := by
  have hkeep : ¬ typeSize dest < typeSize src' → (src' = .void → dest = .void) →
      Returns (checkTypeCompatibility dest src' node') t true t := by
    intro hsize hvoid
    rw [returns_checkTypeCompatibility]
    by_cases heq : dest = src'
    · exact .inl ⟨heq, rfl⟩
    · have hdest : dest ≠ .void := by
        rintro rfl
        have hzero := typeSize_eq_zero.mpr (rfl : DataType.void = .void)
        rw [hzero, Nat.pos_iff_ne_zero, not_not, typeSize_eq_zero] at hsize
        exact heq hsize.symm
      exact .inr ⟨heq, fun h => hdest (hvoid h), hdest, by rw [if_neg hsize]⟩
  obtain ⟨rfl, rfl⟩ | ⟨hne, hsrc, hdest, h⟩ := returns_checkTypeCompatibility.mp hrun
  · refine ⟨.refl _, t, hkeep ?_ htype.void.mpr, hsame⟩
    rw [htype.1]
    exact Nat.lt_irrefl _
  · have hsrc' : src' ≠ .void := fun h => hsrc (htype.void.mpr h)
    split at h
    · rename_i hsize
      obtain ⟨value, hvalue, h⟩ := h
      have hne' : dest ≠ src' := by
        rintro rfl
        rw [htype.1] at hsize
        exact Nat.lt_irrefl _ hsize
      rw [htype.1] at hsize
      split at h
      · rename_i hfits
        subst h
        refine ⟨.refl _, t, ?_, hsame⟩
        rw [returns_checkTypeCompatibility]
        refine .inr ⟨hne', hsrc', hdest, ?_⟩
        rw [if_pos hsize]
        exact ⟨value, hlike.constant.trans hvalue, by rw [if_pos hfits]⟩
      · rename_i hfits
        obtain ⟨info, -, rfl⟩ := h
        obtain ⟨info', hinfo', -⟩ := Option.map_eq_some_iff.mp hnode
        have hwarns := (@returns_checkTypeCompatibility t _ dest src' node').mpr
          (.inr ⟨hne', hsrc', hdest, by
            rw [if_pos hsize]
            refine ⟨value, hlike.constant.trans hvalue, ?_⟩
            rw [if_neg hfits]
            exact ⟨info', hinfo', rfl⟩⟩)
        obtain ⟨errors, history, rfl⟩ := hsame
        exact ⟨⟨_, _, rfl⟩, _, hwarns, _, _, rfl⟩
    · rename_i hsize
      subst h
      rw [htype.1] at hsize
      exact ⟨.refl _, t, hkeep hsize fun h => absurd h hsrc', hsame⟩

end

/-! ## Expressions -/

/-- Among some nodes, every binary operator at an address is `op`, between operands of the
types `leftType` and `rightType` that may be exchanged. -/
def OccursIn (addr : Nat) (op : BinaryOp) (leftType rightType : DataType)
    (nodes : List ASTNode) : Prop :=
  ∀ op' info left right, .binary op' info left right ∈ nodes → info.addr = addr →
    op' = op ∧ left.valueType? = some leftType ∧ right.valueType? = some rightType ∧
      Operand left ∧ Operand right

/-- The result has the same size and sign in either order. -/
def SameResult (op : BinaryOp) (leftType rightType : DataType) : Prop :=
  ∀ type type', resultType op leftType rightType = some type →
    resultType op rightType leftType = some type' → TypesAlike type type'

section

variable {addr : Nat} {op : BinaryOp} {leftType rightType : DataType}
  {nodes nodes' : List ASTNode} {node : ASTNode}

theorem OccursIn.left (h : OccursIn addr op leftType rightType (nodes ++ nodes')) :
    OccursIn addr op leftType rightType nodes :=
  fun op' info l r hmem => h op' info l r (List.mem_append_left _ hmem)

theorem OccursIn.right (h : OccursIn addr op leftType rightType (nodes ++ nodes')) :
    OccursIn addr op leftType rightType nodes' :=
  fun op' info l r hmem => h op' info l r (List.mem_append_right _ hmem)

theorem OccursIn.tail (h : OccursIn addr op leftType rightType (node :: nodes)) :
    OccursIn addr op leftType rightType nodes :=
  fun op' info l r hmem => h op' info l r (List.mem_cons_of_mem _ hmem)

mutual

/-- A tree is like itself with two operands exchanged. -/
theorem like_exchange (hop : commutes op = true) : ∀ {node : ASTNode},
    OccursIn addr op leftType rightType node.subnodes → Like node (node.exchange addr)
  | .null, _ => .refl _
  | .number _ _, _ => .refl _
  | .identifier _ _, _ => .refl _
  | .binary op' info left right, h => by
      have hleft := like_exchange hop h.tail.left
      have hright := like_exchange hop h.tail.right
      unfold ASTNode.exchange
      split
      · rename_i haddr
        obtain ⟨rfl, -, -, hl, hr⟩ := h op' info left right (List.mem_cons_self ..) haddr
        exact .exchange hop (.refl _) hleft hright hl hr
      · exact .binary (.refl _) hleft hright
  | .unary _ _ _, h => .unary (.refl _) (like_exchange hop h.tail)
  | .call _ _ _, h => .call (likeAll_exchange hop h.tail)
  | .varDecl _ _ _ _, h => .varDecl (like_exchange hop h.tail)
  | .assignment _ _ _, h => .assignment (like_exchange hop h.tail)
  | .ifStmt _ _ _ _, h =>
      .ifStmt (like_exchange hop h.tail.left.left) (like_exchange hop h.tail.left.right)
        (like_exchange hop h.tail.right)
  | .whileStmt _ _ _, h =>
      .whileStmt (like_exchange hop h.tail.left) (like_exchange hop h.tail.right)
  | .block _ _, h => .block (likeAll_exchange hop h.tail)
  | .returnStmt _ _, h => .returnStmt (like_exchange hop h.tail)
  | .function _ _ _ _ _ _, h => .function (like_exchange hop h.tail)
  | .translationUnit _ _, h => .translationUnit (likeAll_exchange hop h.tail)

theorem likeAll_exchange (hop : commutes op = true) : ∀ {nodes : List ASTNode},
    OccursIn addr op leftType rightType (subnodesAll nodes) →
      LikeAll nodes (exchangeAll addr nodes)
  | [], _ => .nil
  | _ :: _, h => .cons (like_exchange hop h.left) (likeAll_exchange hop h.right)

end

/-- The second program makes of the exchange what the first makes of the tree. -/
def Mirrors (addr : Nat) (op : BinaryOp) (leftType rightType : DataType)
    (x y : SemM (ASTNode × Bool)) : Prop :=
  ∀ sa t node sa', Same sa t → Returns x sa (node, true) sa' →
    OccursIn addr op leftType rightType node.subnodes →
    Same sa sa' ∧ ∃ node' t', Returns y t (node', true) t' ∧ Same sa' t' ∧ Like node node'

/-- The second program makes of the exchanges what the first makes of the trees. -/
def MirrorsAll (addr : Nat) (op : BinaryOp) (leftType rightType : DataType)
    (x y : SemM (List ASTNode × Bool)) : Prop :=
  ∀ sa t nodes sa', Same sa t → Returns x sa (nodes, true) sa' →
    OccursIn addr op leftType rightType (subnodesAll nodes) →
    Same sa sa' ∧ ∃ nodes' t', Returns y t (nodes', true) t' ∧ Same sa' t' ∧ LikeAll nodes nodes'

/-- What is left as it is. -/
theorem mirrors_pure {node node' : ASTNode}
    (hlike : OccursIn addr op leftType rightType node.subnodes → Like node node') :
    Mirrors addr op leftType rightType (pure (node, true)) (pure (node', true)) := by
  intro sa t out sa' hsame hrun hoccurs
  obtain ⟨h, rfl⟩ := returns_pure.mp hrun
  cases h
  exact ⟨.refl sa, node', t, returns_pure.mpr ⟨rfl, rfl⟩, hsame, hlike hoccurs⟩

theorem mirrors_identifier (info : NodeInfo) (name : StringView) :
    Mirrors addr op leftType rightType (analyzeIdentifier info name)
      (analyzeIdentifier info name) := by
  intro sa t out sa' hsame hrun hoccurs
  obtain ⟨var, hvar, rfl, rfl⟩ := returns_analyzeIdentifier.mp hrun
  have hvar' : semanticScopeLookup t.current name = some var := by rwa [hsame.current]
  refine ⟨⟨_, _, rfl⟩, _, _, returns_analyzeIdentifier.mpr ⟨var, hvar', rfl, rfl⟩, ?_, .refl _⟩
  obtain ⟨errors, history, rfl⟩ := hsame
  exact ⟨_, _, rfl⟩

theorem mirrors_unary {op' : UnaryOp} {info : NodeInfo} {x y : SemM (ASTNode × Bool)}
    (h : Mirrors addr op leftType rightType x y) :
    Mirrors addr op leftType rightType (analyzeUnary op' info x) (analyzeUnary op' info y) := by
  intro sa t out sa' hsame hrun hoccurs
  obtain ⟨operand, type, hoperand, htype, rfl⟩ := returns_analyzeUnary.mp hrun
  obtain ⟨hkeep, operand', t', hoperand', hsame', hlike⟩ := h sa t _ _ hsame hoperand hoccurs.tail
  obtain ⟨type', htype', halike⟩ := hlike.unaryType htype
  exact ⟨hkeep, _, t', returns_analyzeUnary.mpr ⟨operand', type', hoperand', htype', rfl⟩, hsame',
    .unary halike hlike⟩

theorem mirrors_binary {op' : BinaryOp} {info : NodeInfo} {left left' right right' : ASTNode}
    {x x' y y' : SemM (ASTNode × Bool)} (hcase : binaryCase op' ≠ .default)
    (hx : Mirrors addr op leftType rightType x x') (hy : Mirrors addr op leftType rightType y y') :
    Mirrors addr op leftType rightType (analyzeBinary op' info left right x y)
      (analyzeBinary op' info left' right' x' y') := by
  intro sa t out sa' hsame hrun hoccurs
  obtain ⟨l, r, sa₁, type, hl, hr, htype, rfl⟩ := (returns_analyzeBinary hcase).mp hrun
  obtain ⟨hkeep, l', t₁, hl', hsame₁, hlike⟩ := hx sa t _ _ hsame hl hoccurs.tail.left
  obtain ⟨hkeep', r', t', hr', hsame', hlike'⟩ := hy sa₁ t₁ _ _ hsame₁ hr hoccurs.tail.right
  obtain ⟨type', htype', halike⟩ := hlike.binaryType hlike' htype
  exact ⟨hkeep.trans hkeep', _, t', (returns_analyzeBinary hcase).mpr
    ⟨l', r', t₁, type', hl', hr', htype', rfl⟩, hsame', .binary halike hlike hlike'⟩

/-- The operands the other way round. -/
theorem mirrors_exchange (hop : commutes op = true) (hresult : SameResult op leftType rightType)
    {op' : BinaryOp} {info : NodeInfo} {left left' right right' : ASTNode}
    {x x' y y' : SemM (ASTNode × Bool)} (haddr : info.addr = addr)
    (hcase : binaryCase op' ≠ .default) (hx : Mirrors addr op leftType rightType x x')
    (hy : Mirrors addr op leftType rightType y y') :
    Mirrors addr op leftType rightType (analyzeBinary op' info left right x y)
      (analyzeBinary op' info right' left' y' x') := by
  intro sa t out sa' hsame hrun hoccurs
  obtain ⟨l, r, sa₁, type, hl, hr, htype, rfl⟩ := (returns_analyzeBinary hcase).mp hrun
  obtain ⟨rfl, hlType, hrType, hlOperand, hrOperand⟩ :=
    hoccurs op' (annotate info type) l r (List.mem_cons_self ..) haddr
  -- the right operand is analyzed first, from a state that is the same
  obtain ⟨hkeep, -⟩ := hx sa t _ _ hsame hl hoccurs.tail.left
  obtain ⟨hkeep', r', t₁, hr', hsame₁, hlike'⟩ :=
    hy sa₁ t _ _ (hkeep.symm.trans hsame) hr hoccurs.tail.right
  obtain ⟨-, l', t', hl', hsame', hlike⟩ :=
    hx sa t₁ _ _ ((hkeep.trans hkeep').trans hsame₁) hl hoccurs.tail.left
  -- the two orders have types that are alike
  obtain ⟨lType', hlType', hlAlike⟩ := hlike.valueType hlType
  obtain ⟨rType', hrType', hrAlike⟩ := hlike'.valueType hrType
  rw [binaryType_eq hlType hrType] at htype
  obtain ⟨type₁, htype₁⟩ : ∃ type₁, resultType op' rightType leftType = some type₁ := by
    unfold resultType at htype ⊢
    cases hcase' : binaryCase op' with
    | default => exact absurd hcase' hcase
    | _ => exact ⟨_, rfl⟩
  obtain ⟨type', htype', halike⟩ := resultType_alike hrAlike hlAlike htype₁
  rw [← binaryType_eq hrType' hlType'] at htype'
  refine ⟨hkeep.trans hkeep', _, t', (returns_analyzeBinary hcase).mpr
    ⟨r', l', t₁, type', hr', hl', htype', rfl⟩, hkeep'.symm.trans hsame', ?_⟩
  exact .exchange hop ((hresult _ _ htype htype₁).trans halike) hlike hlike' hlOperand hrOperand

theorem mirrors_call {info : NodeInfo} {functionName : StringView} {args args' : List ASTNode}
    {x y : List Parameter → SemM (List ASTNode × Bool)} (hlength : args'.length = args.length)
    (h : ∀ params, args.length = params.length →
      MirrorsAll addr op leftType rightType (x params) (y params)) :
    Mirrors addr op leftType rightType (analyzeCall info functionName args x)
      (analyzeCall info functionName args' y) := by
  intro sa t out sa' hsame hrun hoccurs
  obtain ⟨func, out', hvisible, hfunc, hcount, hargs, rfl⟩ := returns_analyzeCall.mp hrun
  obtain ⟨hkeep, out'', t', hargs', hsame', hlike⟩ :=
    h func.params hcount sa t _ _ hsame hargs hoccurs.tail
  refine ⟨hkeep, _, t', returns_analyzeCall.mpr ⟨func, out'', ?_, ?_, ?_, hargs', rfl⟩, hsame',
    .call hlike⟩
  · rwa [hsame.visibleFuncs]
  · rwa [hsame.global]
  · rw [hlength, hcount]

theorem mirrorsAll_nil {params : List Parameter} :
    MirrorsAll addr op leftType rightType (analyzeArgs [] params) (analyzeArgs [] params) := by
  intro sa t out sa' hsame hrun _
  obtain ⟨h, rfl⟩ := returns_pure.mp hrun
  cases h
  exact ⟨.refl sa, [], t, returns_pure.mpr ⟨rfl, rfl⟩, hsame, .nil⟩

theorem mirrorsAll_cons {arg arg' : ASTNode} {args args' : List ASTNode} {param : Parameter}
    {params : List Parameter}
    (harg : Mirrors addr op leftType rightType (analyzeExpression arg) (analyzeExpression arg'))
    (hargs : MirrorsAll addr op leftType rightType (analyzeArgs args params)
      (analyzeArgs args' params)) :
    MirrorsAll addr op leftType rightType (analyzeArgs (arg :: args) (param :: params))
      (analyzeArgs (arg' :: args') (param :: params)) := by
  intro sa t out sa' hsame hrun hoccurs
  obtain ⟨a, as, type, sa₁, sa₂, ha, htype, hcheck, has, rfl⟩ := returns_analyzeArgs_cons.mp hrun
  obtain ⟨hkeep₁, a', t₁, ha', hsame₁, hlike⟩ := harg sa t _ _ hsame ha hoccurs.left
  obtain ⟨type', htype', halike⟩ := hlike.valueType htype
  obtain ⟨hkeep₂, t₂, hcheck', hsame₂⟩ :=
    checkTypeCompatibility_like hcheck hsame₁ hlike halike htype'
  obtain ⟨hkeep₃, as', t', has', hsame', hlikes⟩ := hargs sa₂ t₂ _ _ hsame₂ has hoccurs.right
  exact ⟨(hkeep₁.trans hkeep₂).trans hkeep₃, _, t', returns_analyzeArgs_cons.mpr
    ⟨a', as', type', t₁, t₂, ha', htype', hcheck', has', rfl⟩, hsame', .cons hlike hlikes⟩

mutual

/-- The analyzer makes of an expression with two operands exchanged what it makes of the
expression. -/
theorem analyzeExpression_mirrors (hop : commutes op = true)
    (hresult : SameResult op leftType rightType) : ∀ node : ASTNode,
    Mirrors addr op leftType rightType (analyzeExpression node)
      (analyzeExpression (node.exchange addr))
  | .null => mirrors_pure fun _ => .refl _
  | .number _ _ => mirrors_pure fun _ => .refl _
  | .identifier info name => mirrors_identifier info name
  | .binary op' info left right => by
      have hleft := analyzeExpression_mirrors hop hresult left
      have hright := analyzeExpression_mirrors hop hresult right
      by_cases hcase : binaryCase op' = .default
      · -- what the analyzer does not look into stays as it is
        have hpure : ∀ l r : ASTNode, analyzeExpression (.binary op' info l r) =
            pure (.binary op' info l r, true) := by
          intro l r
          unfold analyzeExpression analyzeBinary
          rw [hcase]
        have hout : analyzeExpression ((ASTNode.binary op' info left right).exchange addr) =
            pure ((ASTNode.binary op' info left right).exchange addr, true) := by
          unfold ASTNode.exchange
          split <;> exact hpure _ _
        rw [hpure, hout]
        exact mirrors_pure (like_exchange hop)
      · unfold ASTNode.exchange
        split
        · rename_i haddr
          exact mirrors_exchange hop hresult haddr hcase hleft hright
        · exact mirrors_binary hcase hleft hright
  | .unary _ _ operand => mirrors_unary (analyzeExpression_mirrors hop hresult operand)
  | .call _ _ args => mirrors_call (length_exchangeAll addr args) fun params hlength =>
      analyzeArgs_mirrors hop hresult args params hlength
  | .varDecl _ _ _ _ => mirrors_pure (like_exchange hop)
  | .assignment _ _ _ => mirrors_pure (like_exchange hop)
  | .ifStmt _ _ _ _ => mirrors_pure (like_exchange hop)
  | .whileStmt _ _ _ => mirrors_pure (like_exchange hop)
  | .block _ _ => mirrors_pure (like_exchange hop)
  | .returnStmt _ _ => mirrors_pure (like_exchange hop)
  | .function _ _ _ _ _ _ => mirrors_pure (like_exchange hop)
  | .translationUnit _ _ => mirrors_pure (like_exchange hop)

theorem analyzeArgs_mirrors (hop : commutes op = true)
    (hresult : SameResult op leftType rightType) : ∀ (args : List ASTNode)
    (params : List Parameter), args.length = params.length →
    MirrorsAll addr op leftType rightType (analyzeArgs args params)
      (analyzeArgs (exchangeAll addr args) params)
  | [], _, _ => mirrorsAll_nil
  | arg :: args, _ :: params, h =>
      mirrorsAll_cons (analyzeExpression_mirrors hop hresult arg)
        (analyzeArgs_mirrors hop hresult args params (Nat.succ.inj h))

end

end

/-! ## Statements -/

/-- The second program makes of the exchange what the first makes of the tree; both may
change what is in scope. -/
def Copies (addr : Nat) (op : BinaryOp) (leftType rightType : DataType)
    (x y : SemM (ASTNode × Bool)) : Prop :=
  ∀ sa t node sa', Same sa t → Returns x sa (node, true) sa' →
    OccursIn addr op leftType rightType node.subnodes →
    ∃ node' t', Returns y t (node', true) t' ∧ Same sa' t' ∧ Like node node'

/-- The second program makes of the exchanges what the first makes of the trees. -/
def CopiesAll (addr : Nat) (op : BinaryOp) (leftType rightType : DataType)
    (x y : SemM (List ASTNode × Bool)) : Prop :=
  ∀ sa t nodes sa', Same sa t → Returns x sa (nodes, true) sa' →
    OccursIn addr op leftType rightType (subnodesAll nodes) →
    ∃ nodes' t', Returns y t (nodes', true) t' ∧ Same sa' t' ∧ LikeAll nodes nodes'

section

variable {addr : Nat} {op : BinaryOp} {leftType rightType : DataType} {info : NodeInfo}
  {x x' y y' : SemM (ASTNode × Bool)}

theorem Mirrors.copies (h : Mirrors addr op leftType rightType x y) :
    Copies addr op leftType rightType x y :=
  fun sa t node sa' hsame hrun hoccurs => (h sa t node sa' hsame hrun hoccurs).2

/-- A declaration goes the same way from states that are the same. -/
theorem Same.declare {sa sa' t : SemanticAnalyzer} {var : VarInfo} (hsame : Same sa t)
    (h : Returns (semanticScopeDeclare var) sa true sa') :
    ∃ t', Returns (semanticScopeDeclare var) t true t' ∧ Same sa' t' := by
  obtain ⟨scope, parents, scope', hcurrent, hdeclare, rfl⟩ := returns_semanticScopeDeclare.mp h
  rw [← hsame.current] at hcurrent
  have hrun := returns_semanticScopeDeclare.mpr ⟨scope, parents, scope', hcurrent, hdeclare, rfl⟩
  obtain ⟨errors, history, rfl⟩ := hsame
  exact ⟨_, hrun, _, _, rfl⟩

section

variable (hop : commutes op = true) (hresult : SameResult op leftType rightType)

include hop hresult

theorem analyzeValue_copies (dest : DataType) (value : ASTNode) :
    Copies addr op leftType rightType (analyzeValue dest value)
      (analyzeValue dest (value.exchange addr)) := by
  intro sa t out sa' hsame hrun hoccurs
  obtain ⟨type, sa₁, hvalue, htype, hcheck⟩ := returns_analyzeValue.mp hrun
  obtain ⟨-, out', t₁, hvalue', hsame₁, hlike⟩ :=
    analyzeExpression_mirrors hop hresult value sa t _ _ hsame hvalue hoccurs
  obtain ⟨type', htype', halike⟩ := hlike.valueType htype
  obtain ⟨-, t', hcheck', hsame'⟩ := checkTypeCompatibility_like hcheck hsame₁ hlike halike htype'
  exact ⟨out', t', returns_analyzeValue.mpr ⟨type', t₁, hvalue', htype', hcheck'⟩, hsame', hlike⟩

theorem analyzeInitializer_copies (varType : DataType) (initializer : ASTNode) :
    Copies addr op leftType rightType (analyzeInitializer varType initializer)
      (analyzeInitializer varType (initializer.exchange addr)) := by
  unfold analyzeInitializer
  rw [isNull_exchange]
  split
  · exact (mirrors_pure (like_exchange hop)).copies
  · exact analyzeValue_copies hop hresult varType initializer

theorem analyzeVarDecl_copies (varName : StringView) (varType : DataType)
    (initializer : ASTNode) :
    Copies addr op leftType rightType (analyzeVarDecl info varName varType initializer)
      (analyzeVarDecl info varName varType (initializer.exchange addr)) := by
  intro sa t out sa' hsame hrun hoccurs
  obtain ⟨init, sa₁, hinit, hdeclare, rfl⟩ := returns_analyzeVarDecl.mp hrun
  obtain ⟨init', t₁, hinit', hsame₁, hlike⟩ :=
    analyzeInitializer_copies hop hresult varType initializer sa t _ _ hsame hinit hoccurs.tail
  obtain ⟨t', hdeclare', hsame'⟩ := hsame₁.declare hdeclare
  exact ⟨_, t', returns_analyzeVarDecl.mpr ⟨init', t₁, hinit', hdeclare', rfl⟩, hsame',
    .varDecl hlike⟩

theorem analyzeAssignment_copies (varName : StringView) (value : ASTNode) :
    Copies addr op leftType rightType (analyzeAssignment info varName value)
      (analyzeAssignment info varName (value.exchange addr)) := by
  intro sa t out sa' hsame hrun hoccurs
  obtain ⟨var, value', hvar, hvalue, rfl⟩ := returns_analyzeAssignment.mp hrun
  have hvar' : semanticScopeLookup t.current varName = some var := by rwa [hsame.current]
  have hsame₁ : Same { sa with history := sa.history ++ [(info.addr, var.decl)] }
      { t with history := t.history ++ [(info.addr, var.decl)] } := by
    obtain ⟨errors, history, rfl⟩ := hsame
    exact ⟨_, _, rfl⟩
  obtain ⟨value'', t', hvalue', hsame', hlike⟩ :=
    analyzeValue_copies hop hresult var.type value _ _ _ _ hsame₁ hvalue hoccurs.tail
  exact ⟨_, t', returns_analyzeAssignment.mpr ⟨var, value'', hvar', hvalue', rfl⟩, hsame',
    .assignment hlike⟩

theorem analyzeReturn_copies (expression : ASTNode) :
    Copies addr op leftType rightType (analyzeReturn info expression)
      (analyzeReturn info (expression.exchange addr)) := by
  intro sa t out sa' hsame hrun hoccurs
  have h := returns_analyzeReturn.mp hrun
  by_cases hnull : expression.isNull = true
  · rw [if_pos hnull] at h
    obtain ⟨hvoid, rfl, rfl⟩ := h
    have hout := like_exchange hop hoccurs
    refine ⟨_, t, returns_analyzeReturn.mpr ?_, hsame, hout⟩
    rw [isNull_exchange, if_pos hnull]
    exact ⟨hsame.returnType.trans hvoid, rfl, rfl⟩
  · rw [if_neg hnull] at h
    obtain ⟨hvoid, expression', hvalue, rfl⟩ := h
    obtain ⟨expression'', t', hvalue', hsame', hlike⟩ :=
      analyzeValue_copies hop hresult sa.currentReturnType expression sa t _ _ hsame hvalue
        hoccurs.tail
    have hrun' : Returns (analyzeReturn info (expression.exchange addr)) t
        (.returnStmt (annotate info sa.currentReturnType) expression'', true) t' := by
      rw [returns_analyzeReturn, isNull_exchange, if_neg hnull, hsame.returnType]
      exact ⟨hvoid, expression'', hvalue', rfl⟩
    exact ⟨_, t', hrun', hsame', .returnStmt hlike⟩

omit hresult in
theorem analyzeElseBranch_copies (elseBranch : ASTNode)
    (h : Copies addr op leftType rightType x y) :
    Copies addr op leftType rightType (analyzeElseBranch elseBranch x)
      (analyzeElseBranch (elseBranch.exchange addr) y) := by
  unfold analyzeElseBranch
  rw [isNull_exchange]
  split
  · exact (mirrors_pure (like_exchange hop)).copies
  · exact h

theorem analyzeIf_copies (condition elseBranch : ASTNode)
    (hx : Copies addr op leftType rightType x x') (hy : Copies addr op leftType rightType y y') :
    Copies addr op leftType rightType (analyzeIf info condition elseBranch x y)
      (analyzeIf info (condition.exchange addr) (elseBranch.exchange addr) x' y') := by
  intro sa t out sa' hsame hrun hoccurs
  obtain ⟨c, thenBranch, e, sa₁, sa₂, hc, ht, he, rfl⟩ := returns_analyzeIf.mp hrun
  obtain ⟨-, c', t₁, hc', hsame₁, hlike⟩ :=
    analyzeExpression_mirrors hop hresult condition sa t _ _ hsame hc hoccurs.tail.left.left
  obtain ⟨thenBranch', t₂, ht', hsame₂, hlike'⟩ :=
    hx sa₁ t₁ _ _ hsame₁ ht hoccurs.tail.left.right
  obtain ⟨e', t', he', hsame', hlike''⟩ :=
    analyzeElseBranch_copies hop elseBranch hy sa₂ t₂ _ _ hsame₂ he hoccurs.tail.right
  exact ⟨_, t', returns_analyzeIf.mpr ⟨c', thenBranch', e', t₁, t₂, hc', ht', he', rfl⟩, hsame',
    .ifStmt hlike hlike' hlike''⟩

theorem analyzeWhile_copies (condition : ASTNode) (hx : Copies addr op leftType rightType x x') :
    Copies addr op leftType rightType (analyzeWhile info condition x)
      (analyzeWhile info (condition.exchange addr) x') := by
  intro sa t out sa' hsame hrun hoccurs
  obtain ⟨c, body, sa₁, hc, hbody, rfl⟩ := returns_analyzeWhile.mp hrun
  obtain ⟨-, c', t₁, hc', hsame₁, hlike⟩ :=
    analyzeExpression_mirrors hop hresult condition sa t _ _ hsame hc hoccurs.tail.left
  obtain ⟨body', t', hbody', hsame', hlike'⟩ := hx sa₁ t₁ _ _ hsame₁ hbody hoccurs.tail.right
  exact ⟨_, t', returns_analyzeWhile.mpr ⟨c', body', t₁, hc', hbody', rfl⟩, hsame',
    .whileStmt hlike hlike'⟩

end

theorem analyzeBlock_copies {x x' : SemM (List ASTNode × Bool)}
    (hx : CopiesAll addr op leftType rightType x x') :
    Copies addr op leftType rightType (analyzeBlock info x) (analyzeBlock info x') := by
  intro sa t out sa' hsame hrun hoccurs
  obtain ⟨statements, sa₁, hstatements, rfl, rfl⟩ := returns_analyzeBlock.mp hrun
  have hsame₁ : Same { sa with current := .empty :: sa.current }
      { t with current := .empty :: t.current } := by
    obtain ⟨errors, history, rfl⟩ := hsame
    exact ⟨_, _, rfl⟩
  obtain ⟨statements', t₁, hstatements', hsame', hlike⟩ :=
    hx _ _ _ _ hsame₁ hstatements hoccurs.tail
  refine ⟨_, _, returns_analyzeBlock.mpr ⟨statements', t₁, hstatements', rfl, rfl⟩, ?_,
    .block hlike⟩
  obtain ⟨errors, history, rfl⟩ := hsame'
  exact ⟨_, _, rfl⟩

mutual

/-- The analyzer makes of a statement with two operands exchanged what it makes of the
statement. -/
theorem analyzeStatement_copies (hop : commutes op = true)
    (hresult : SameResult op leftType rightType) : ∀ node : ASTNode,
    Copies addr op leftType rightType (analyzeStatement node)
      (analyzeStatement (node.exchange addr))
  | .null => (mirrors_pure fun _ => .refl _).copies
  | .varDecl _ varName varType initializer =>
      analyzeVarDecl_copies hop hresult varName varType initializer
  | .assignment _ varName value => analyzeAssignment_copies hop hresult varName value
  | .returnStmt _ expression => analyzeReturn_copies hop hresult expression
  | .ifStmt _ condition thenBranch elseBranch =>
      analyzeIf_copies hop hresult condition elseBranch
        (analyzeStatement_copies hop hresult thenBranch)
        (analyzeStatement_copies hop hresult elseBranch)
  | .whileStmt _ condition body =>
      analyzeWhile_copies hop hresult condition (analyzeStatement_copies hop hresult body)
  | .block _ statements => analyzeBlock_copies (analyzeStatements_copies hop hresult statements)
  | .number info value => (analyzeExpression_mirrors hop hresult (.number info value)).copies
  | .identifier info name =>
      (analyzeExpression_mirrors hop hresult (.identifier info name)).copies
  | .binary op' info left right => by
      have hout : analyzeStatement ((ASTNode.binary op' info left right).exchange addr) =
          analyzeExpression ((ASTNode.binary op' info left right).exchange addr) := by
        unfold ASTNode.exchange
        split <;> rfl
      rw [hout]
      exact (analyzeExpression_mirrors hop hresult (.binary op' info left right)).copies
  | .unary op' info operand =>
      (analyzeExpression_mirrors hop hresult (.unary op' info operand)).copies
  | .call info functionName args =>
      (analyzeExpression_mirrors hop hresult (.call info functionName args)).copies
  | .function info name returnType params body isPrototype =>
      (analyzeExpression_mirrors hop hresult
        (.function info name returnType params body isPrototype)).copies
  | .translationUnit info declarations =>
      (analyzeExpression_mirrors hop hresult (.translationUnit info declarations)).copies

theorem analyzeStatements_copies (hop : commutes op = true)
    (hresult : SameResult op leftType rightType) : ∀ nodes : List ASTNode,
    CopiesAll addr op leftType rightType (analyzeStatements nodes)
      (analyzeStatements (exchangeAll addr nodes))
  | [] => by
      intro sa t out sa' hsame hrun _
      obtain ⟨h, rfl⟩ := returns_pure.mp hrun
      cases h
      exact ⟨[], t, returns_pure.mpr ⟨rfl, rfl⟩, hsame, .nil⟩
  | stmt :: rest => by
      intro sa t out sa' hsame hrun hoccurs
      obtain ⟨stmt', rest', sa₁, hstmt, hrest, rfl⟩ := returns_analyzeStatements_cons.mp hrun
      obtain ⟨stmt'', t₁, hstmt', hsame₁, hlike⟩ :=
        analyzeStatement_copies hop hresult stmt sa t _ _ hsame hstmt hoccurs.left
      obtain ⟨rest'', t', hrest', hsame', hlikes⟩ :=
        analyzeStatements_copies hop hresult rest sa₁ t₁ _ _ hsame₁ hrest hoccurs.right
      exact ⟨_, t', returns_analyzeStatements_cons.mpr ⟨stmt'', rest'', t₁, hstmt', hrest', rfl⟩,
        hsame', .cons hlike hlikes⟩

end

end

/-! ## Functions and units -/

section

variable {sa sa' : SemanticAnalyzer} {node : ASTNode}

theorem Same.declareParams {t : SemanticAnalyzer} {line i : Nat} {params : List Parameter}
    (hsame : Same sa t) (h : Returns (declareParams line params i) sa true sa') :
    ∃ t', Returns (Semantic.declareParams line params i) t true t' ∧ Same sa' t' := by
  induction params generalizing sa t i with
  | nil =>
    obtain ⟨-, rfl⟩ := returns_pure.mp h
    exact ⟨t, returns_pure.mpr ⟨rfl, rfl⟩, hsame⟩
  | cons param params ih =>
    obtain ⟨sa₁, hdeclare, hrest⟩ := returns_declareParams_cons.mp h
    obtain ⟨t₁, hdeclare', hsame₁⟩ := hsame.declare hdeclare
    obtain ⟨t', hrest', hsame'⟩ := ih hsame₁ hrest
    exact ⟨t', returns_declareParams_cons.mpr ⟨t₁, hdeclare', hrest'⟩, hsame'⟩

end

section

variable {addr : Nat} {op : BinaryOp} {leftType rightType : DataType}

/-- The names of functions are collected alike. -/
theorem Same.collectVisible {nodes : List ASTNode} {sa sa' t : SemanticAnalyzer}
    (hsame : Same sa t) (h : Returns (collectVisible nodes) sa true sa') :
    ∃ t', Returns (Semantic.collectVisible (exchangeAll addr nodes)) t true t' ∧ Same sa' t' := by
  induction nodes generalizing sa t with
  | nil =>
    obtain ⟨-, rfl⟩ := returns_pure.mp h
    exact ⟨t, returns_pure.mpr ⟨rfl, rfl⟩, hsame⟩
  | cons node nodes ih =>
    cases node with
    | function info name returnType params body isPrototype =>
      obtain ⟨errors, history, rfl⟩ := hsame
      simp only [exchangeAll, ASTNode.exchange, returns_collectVisible] at h ⊢
      split at h
      · obtain ⟨t', hrun, hsame'⟩ := ih ⟨errors, history, rfl⟩ h
        exact ⟨t', by rwa [if_pos ‹_›], hsame'⟩
      · obtain ⟨hroom, hrest⟩ := h
        obtain ⟨t', hrun, hsame'⟩ := ih ⟨errors, history, rfl⟩ hrest
        exact ⟨t', by rw [if_neg ‹_›]; exact ⟨hroom, hrun⟩, hsame'⟩
    | null => exact absurd h returns_throw
    | binary op' info left right =>
      obtain ⟨t', hrun, hsame'⟩ := ih hsame h
      refine ⟨t', ?_, hsame'⟩
      unfold exchangeAll ASTNode.exchange
      split <;> exact hrun
    | _ => exact ih hsame h

variable (hop : commutes op = true) (hresult : SameResult op leftType rightType)

include hop hresult

theorem analyzeBody_copies (body : ASTNode) :
    Copies addr op leftType rightType (analyzeBody body) (analyzeBody (body.exchange addr)) := by
  cases body with
  | block info statements =>
    intro sa t out sa' hsame hrun hoccurs
    obtain ⟨⟨statements', ok⟩, sa₁, hstatements, hend⟩ := returns_bind.mp hrun
    obtain ⟨heq, rfl⟩ := returns_pure.mp hend
    cases heq
    obtain ⟨statements'', t', hstatements', hsame', hlike⟩ :=
      analyzeStatements_copies hop hresult statements sa t _ _ hsame hstatements hoccurs.tail
    exact ⟨_, t', returns_bind.mpr ⟨(statements'', true), t', hstatements',
      returns_pure.mpr ⟨rfl, rfl⟩⟩, hsame', .block hlike⟩
  | binary op' info left right =>
    have hout : analyzeBody ((ASTNode.binary op' info left right).exchange addr) =
        pure ((ASTNode.binary op' info left right).exchange addr, true) := by
      unfold ASTNode.exchange
      split <;> rfl
    rw [hout]
    exact (mirrors_pure (like_exchange hop)).copies
  | _ => exact (mirrors_pure (like_exchange hop)).copies

theorem analyzeNode_copies (node : ASTNode) :
    Copies addr op leftType rightType (analyzeNode node) (analyzeNode (node.exchange addr)) := by
  intro sa t out sa' hsame hrun hoccurs
  cases node with
  | null => exact absurd hrun returns_throw
  | function info name returnType params body isPrototype =>
    cases isPrototype with
    | true => exact (mirrors_pure (like_exchange hop)).copies sa t out sa' hsame hrun hoccurs
    | false =>
      obtain ⟨body', sa₁, sa₂, hparams, hbody, rfl, rfl⟩ := returns_analyzeNode.mp hrun
      have hsame₀ : Same
          { sa with currentReturnType := returnType, current := .empty :: sa.current }
          { t with currentReturnType := returnType, current := .empty :: t.current } := by
        obtain ⟨errors, history, rfl⟩ := hsame
        exact ⟨_, _, rfl⟩
      obtain ⟨t₁, hparams', hsame₁⟩ := hsame₀.declareParams hparams
      obtain ⟨body'', t₂, hbody', hsame₂, hlike⟩ :=
        analyzeBody_copies hop hresult body sa₁ t₁ _ _ hsame₁ hbody hoccurs.tail
      refine ⟨_, _, returns_analyzeNode.mpr ⟨body'', t₁, t₂, hparams', hbody', rfl, rfl⟩, ?_,
        .function hlike⟩
      obtain ⟨errors, history, rfl⟩ := hsame₂
      exact ⟨_, _, rfl⟩
  | _ => cases (returns_pure.mp hrun).1

theorem analyzeNodes_copies (nodes : List ASTNode) :
    CopiesAll addr op leftType rightType (analyzeNodes nodes)
      (analyzeNodes (exchangeAll addr nodes)) := by
  induction nodes with
  | nil =>
    intro sa t out sa' hsame hrun _
    obtain ⟨h, rfl⟩ := returns_pure.mp hrun
    cases h
    exact ⟨[], t, returns_pure.mpr ⟨rfl, rfl⟩, hsame, .nil⟩
  | cons node nodes ih =>
    intro sa t out sa' hsame hrun hoccurs
    obtain ⟨node', nodes', sa₁, hnode, hnodes, rfl⟩ := returns_analyzeNodes_cons.mp hrun
    obtain ⟨node'', t₁, hnode', hsame₁, hlike⟩ :=
      analyzeNode_copies hop hresult node sa t _ _ hsame hnode hoccurs.left
    obtain ⟨nodes'', t', hnodes', hsame', hlikes⟩ := ih sa₁ t₁ _ _ hsame₁ hnodes hoccurs.right
    exact ⟨_, t', returns_analyzeNodes_cons.mpr ⟨node'', nodes'', t₁, hnode', hnodes', rfl⟩,
      hsame', .cons hlike hlikes⟩

/-- The analyzer makes of a unit with two operands exchanged what it makes of the unit. -/
theorem semanticAnalyze_copies (nodes : List ASTNode) :
    CopiesAll addr op leftType rightType (semanticAnalyze nodes)
      (semanticAnalyze (exchangeAll addr nodes)) := by
  intro sa t out sa' hsame hrun hoccurs
  obtain ⟨sa₁, hvisible, hnodes⟩ := returns_semanticAnalyze.mp hrun
  obtain ⟨t₁, hvisible', hsame₁⟩ := hsame.collectVisible hvisible
  obtain ⟨out', t', hnodes', hsame', hlike⟩ :=
    analyzeNodes_copies hop hresult nodes sa₁ t₁ _ _ hsame₁ hnodes hoccurs
  exact ⟨out', t', returns_semanticAnalyze.mpr ⟨t₁, hvisible', hnodes'⟩, hsame', hlike⟩

end

end TinyCompile.Semantic
