import TinyCompile.Ir.Mirror

set_option autoImplicit false

/-!
# Ir: the code follows C

Where the run of a function in C stays within the limits of the code, the trees mean to the
generator what they mean in C.
-/

namespace TinyCompile.Ir

open TinyCompile.Machine TinyCompile.Source TinyCompile.Semantic TinyCompile.Logic

/-- The words of integers. -/
abbrev wordsOf (zs : List Int) : List Word := zs.map (BitVec.ofInt 64)

/-- The oracle answers every call that has a value in C. -/
def Answered (oracle : Oracle) (callee : StringView → List Int → Option Value) : Prop :=
  ∀ name args v, callee name args = some v →
    InRange v.value ∧ oracle ⟨name, wordsOf args⟩ = some (BitVec.ofInt 64 v.value)

section

variable {oracle : Oracle} {callee : StringView → List Int → Option Value}

/-! ## Expressions -/

/-- An evaluation ends with a value and changes no variable. -/
def Evaluated {α : Type} (x : Evaluation α) (m : Store) (a : α) : Prop :=
  ∃ calls, x = some (some a, { m with calls := calls })

section

variable {F : Frame} {env : Env} {Δ : Typing}

theorem Evaluated.pure {α : Type} (m : Store) (a : α) : Evaluated (some (some a, m)) m a :=
  ⟨m.calls, rfl⟩

/-- Go on with the value of an evaluation. -/
theorem Evaluated.withValue {α β : Type} {x : Evaluation α} {m : Store} {a : α} {b : β}
    {f : α → Store → Evaluation β} (h : Evaluated x m a)
    (hf : ∀ calls, Evaluated (f a { m with calls := calls }) { m with calls := calls } b) :
    Evaluated (x.withValue f) m b := by
  obtain ⟨calls, rfl⟩ := h
  obtain ⟨calls', hb⟩ := hf calls
  exact ⟨calls', hb⟩

/-- A variable that may be read. -/
theorem identifier_word {m : Store} {info : NodeInfo} {name : StringView} {seen : Bool} {v : Value}
    (hmirrors : Mirrors m F env) (htyped : TypedBy F Δ)
    (hannotated : AnnotatedExpr Δ seen (.identifier info name))
    (h : exactExpr compiledLimits callee F seen (.identifier info name) = some v) :
    InRange v.value ∧
      Evaluated (evalExpr oracle env (.identifier info name) m) m (BitVec.ofInt 64 v.value) := by
  obtain ⟨x, hfind, hx⟩ := Option.bind_eq_some_iff.mp h
  obtain ⟨z, hz, hallowed⟩ := Option.bind_eq_some_iff.mp hx
  obtain ⟨hread, hv⟩ := Option.ite_none_right_eq_some.mp hallowed
  obtain rfl := Option.some.inj hv
  obtain ⟨e, hlookup, hmirrored, -⟩ := hmirrors.lookup hfind
  obtain ⟨hrange, hvalue⟩ := hmirrored.value z hz
  refine ⟨hrange, m.calls, ?_⟩
  have hword : m.read e.binding info.valueType = BitVec.ofInt 64 z := by
    rw [← hvalue]
    cases seen with
    | true =>
      have htype := htyped name x z hfind hz
      rw [AnnotatedExpr, if_pos rfl, htype] at hannotated
      rw [Option.some.inj hannotated]
    | false =>
      rw [AnnotatedExpr, if_neg Bool.false_ne_true] at hannotated
      rw [hannotated]
      unfold Store.read
      split
      · rename_i hstack
        have hunseen : compiledLimits.unseen x.type x.isLocal = true := by simpa using hread
        have hlocal : x.isLocal = true := hmirrored.isLocal.trans hstack
        have hbytes : storedBytes (typeSize x.type) = 8 := by
          simpa [compiledLimits, hlocal] using hunseen
        exact loadSlot_void hbytes _
      · rfl
  rw [evalExpr, hlookup, Option.map_some, hword]

mutual

/-- Expressions have the values they have in C. -/
theorem exactExpr_word (hcallee : Answered oracle callee) (htyped : TypedBy F Δ) :
    ∀ (node : ASTNode) {seen : Bool} {m : Store} {v : Value}, Mirrors m F env →
    AnnotatedExpr Δ seen node →
    exactExpr compiledLimits callee F seen node = some v →
    InRange v.value ∧ Evaluated (evalExpr oracle env node m) m (BitVec.ofInt 64 v.value)
  | .number info text, seen, m, v, _, _, h => by
      obtain ⟨hword, hrange⟩ := literalValue_word h
      exact ⟨hrange, m.calls, by rw [evalExpr, hword]⟩
  | .identifier info name, seen, m, v, hmirrors, hannotated, h =>
      identifier_word hmirrors htyped hannotated h
  | .call info functionName args, seen, m, v, hmirrors, hannotated, h => by
      obtain ⟨zs, hargs, hcall⟩ := Option.bind_eq_some_iff.mp h
      obtain ⟨hrange, hanswer⟩ := hcallee functionName zs v hcall
      refine ⟨hrange, ?_⟩
      rw [evalExpr]
      have hvalues := exactArgs_word hcallee htyped args hmirrors hannotated hargs
      refine hvalues.withValue fun calls => ?_
      rw [hanswer]
      exact ⟨_, rfl⟩
  | .unary op info operand, seen, m, v, hmirrors, hannotated, h => by
      obtain ⟨a, hoperand, hv⟩ := Option.bind_eq_some_iff.mp h
      obtain ⟨ha, hevaluated⟩ := exactExpr_word hcallee htyped operand hmirrors hannotated hoperand
      obtain ⟨hword, hrange⟩ := unary_word hv ha
      refine ⟨hrange, ?_⟩
      rw [evalExpr]
      refine hevaluated.withValue fun calls => ?_
      rw [hword]
      exact .pure _ _
  | .binary op info left right, seen, m, v, hmirrors, hannotated, h => by
      obtain ⟨a, hleft, hrest⟩ := Option.bind_eq_some_iff.mp h
      obtain ⟨b, hright, hv⟩ := Option.bind_eq_some_iff.mp hrest
      obtain ⟨ha, hleftValue⟩ := exactExpr_word hcallee htyped left hmirrors hannotated.1 hleft
      have hb := fun calls =>
        exactExpr_word hcallee htyped right (hmirrors.calls calls) hannotated.2 hright
      obtain ⟨hword, hrange⟩ := binary_word (typeOf left) hv ha (hb m.calls).1
      refine ⟨hrange, ?_⟩
      rw [evalExpr]
      refine hleftValue.withValue fun calls => (hb calls).2.withValue fun calls' => ?_
      rw [hword]
      exact .pure _ _
  | .null, _, _, _, _, _, h => by cases h
  | .varDecl _ _ _ _, _, _, _, _, _, h => by cases h
  | .assignment _ _ _, _, _, _, _, _, h => by cases h
  | .returnStmt _ _, _, _, _, _, _, h => by cases h
  | .ifStmt _ _ _ _, _, _, _, _, _, h => by cases h
  | .whileStmt _ _ _, _, _, _, _, _, h => by cases h
  | .block _ _, _, _, _, _, _, h => by cases h
  | .function _ _ _ _ _ _, _, _, _, _, _, h => by cases h
  | .translationUnit _ _, _, _, _, _, _, h => by cases h

theorem exactArgs_word (hcallee : Answered oracle callee) (htyped : TypedBy F Δ) :
    ∀ (nodes : List ASTNode) {seen : Bool} {m : Store} {zs : List Int}, Mirrors m F env →
    AnnotatedArgs Δ seen nodes →
    exactArgs compiledLimits callee F seen nodes = some zs →
    Evaluated (evalArgs oracle env nodes m) m (wordsOf zs)
  | [], _, m, _, _, _, h => by
      cases h
      exact .pure m []
  | node :: nodes, seen, m, zs, hmirrors, hannotated, h => by
      obtain ⟨v, hnode, hrest⟩ := Option.bind_eq_some_iff.mp h
      obtain ⟨zs', hnodes, rfl⟩ := Option.map_eq_some_iff.mp hrest
      rw [evalArgs]
      have hfirst := (exactExpr_word hcallee htyped node hmirrors hannotated.1 hnode).2
      have hmore := fun calls =>
        exactArgs_word hcallee htyped nodes (hmirrors.calls calls) hannotated.2 hnodes
      refine hfirst.withValue fun calls => (hmore calls).withValue fun calls' => ?_
      exact .pure _ _

end

end

/-! ## Statements -/

/-- A statement ends as in C, with the names of `env` in scope behind it. -/
inductive EndsAs (env : Env) : Ending → Outcome → Prop
  | next {F : Frame} {m : Store} (h : Mirrors m F env) : EndsAs env (.next F) (.next m)
  | returned {z : Int} (hz : InRange z) (m : Store) :
      EndsAs env (.returned z) (.returned (BitVec.ofInt 64 z) m)

section

variable {F : Frame} {env env' : Env} {m : Store} {r : Ending} {o : Outcome}

/-- Go on with the value of an evaluation. -/
theorem Evaluated.next {x : Evaluation Word} {w : Word} (h : Evaluated x m w)
    (f : Word → Store → Option Outcome) :
    ∃ calls, Ir.withValue x f = f w { m with calls := calls } := by
  obtain ⟨calls, rfl⟩ := h
  exact ⟨calls, rfl⟩

/-- At the end of a block the names of the block are left. -/
theorem EndsAs.leave (h : EndsAs env' r o) (hmirrors : Mirrors m F env)
    (hsuffix : env <:+ env') : EndsAs env (Ending.leave F r) o := by
  cases h with
  | @next F' m' h =>
    obtain ⟨inner, rfl⟩ := hsuffix
    have hcount : F'.length - F.length = inner.length := by
      rw [h.length_eq, hmirrors.length_eq, List.length_append, Nat.add_sub_cancel]
    have hdrop := List.forall₂_drop inner.length h
    rw [List.drop_left] at hdrop
    refine .next ?_
    rw [Frame.leave, hcount]
    exact hdrop
  | returned hz m' => exact .returned hz m'

/-- A turn of a loop goes as in C. -/
inductive TurnsAs (env : Env) : Turn Frame Ending → Turn Store Outcome → Prop
  | again {F : Frame} {m : Store} (h : Mirrors m F env) : TurnsAs env (.again F) (.again m)
  | leave {r : Ending} {o : Outcome} (h : EndsAs env r o) : TurnsAs env (.leave r) (.leave o)

/-- Where the condition has its value and the body ends as in C, the turn does as well. -/
theorem exactTurn_follows {condition : Option Value} {x : Evaluation Word}
    {body : Frame → Option Ending} {body' : Store → Option Outcome} {t : Turn Frame Ending}
    (hmirrors : Mirrors m F env)
    (hcondition : ∀ v, condition = some v →
      InRange v.value ∧ Evaluated x m (BitVec.ofInt 64 v.value))
    (hbody : ∀ m r, Mirrors m F env → body F = some r → ∃ o, body' m = some o ∧ EndsAs env r o)
    (h : exactTurn F condition body = some t) :
    ∃ t', loopTurn x body' = some t' ∧ TurnsAs env t t' := by
  obtain ⟨v, hv, hrest⟩ := Option.bind_eq_some_iff.mp h
  obtain ⟨hrange, calls, rfl⟩ := hcondition v hv
  have hmirrors' := hmirrors.calls calls
  have hzero := ofInt_eq_zero_iff hrange
  show ∃ t', (if BitVec.ofInt 64 v.value = 0 then _ else _) = some t' ∧ _
  by_cases hfalse : v.value = 0
  · rw [if_pos hfalse] at hrest
    cases hrest
    rw [if_pos (hzero.mpr hfalse)]
    exact ⟨_, rfl, .leave (.next hmirrors')⟩
  · rw [if_neg hfalse] at hrest
    rw [if_neg (mt hzero.mp hfalse)]
    obtain ⟨r, hr, rfl⟩ := Option.map_eq_some_iff.mp hrest
    obtain ⟨o, ho, hends⟩ := hbody _ r hmirrors' hr
    have hleave := hends.leave hmirrors List.suffix_rfl
    rw [ho]
    cases hends with
    | next _ =>
      cases hleave with
      | next hback => exact ⟨_, rfl, .again hback⟩
    | returned hz m' => exact ⟨_, rfl, .leave (.returned hz m')⟩

/-- The types of the names behind a statement. -/
theorem envTyping_behind {node : ASTNode} (hblocks : declaresInBlocks node = true) (env : Env)
    (stack : Nat) :
    envTyping (scopeStmt env node stack).1 = typingBehind (envTyping env) node := by
  cases hdecl : isDeclaration node with
  | true =>
    cases node with
    | varDecl _ _ _ _ => rfl
    | _ => cases hdecl
  | false => rw [scopeStmt_statement hdecl hblocks, typingBehind_statement hdecl]

/-- A variable that is declared has a slot of its own. -/
theorem Mirrors.declare {stack : Nat} {name : StringView} {type : DataType} {decl : Decl}
    {z : Option Int} {w : Word} (h : Mirrors m F env) (hslots : Slotted env stack)
    (hz : ∀ z', z = some z' → compiledLimits.stored type true z' = true ∧ w = BitVec.ofInt 64 z') :
    Mirrors (m.setSlot type stack w) (⟨name, type, true, z⟩ :: F)
      ((name, ⟨decl, type, ⟨stack, true⟩⟩) :: env) := by
  refine .cons ⟨rfl, rfl, rfl, fun z' hz' => ?_⟩ (h.write_ne hslots.fresh)
  obtain ⟨hstored, rfl⟩ := hz z' hz'
  refine ⟨stored_inRange hstored, ?_⟩
  show loadSlot _ (Function.update m.slots stack _ stack) = _
  rw [Function.update_self]
  exact slotContains_load (stored_slotContains hstored) (stored_inRange hstored) _

/-- A value that is stored in a variable is read from it. -/
theorem read_write {b : SymbolTable.Binding} {type : DataType} {z : Int}
    (h : compiledLimits.stored type b.isStack z = true) :
    (m.write b type (BitVec.ofInt 64 z)).read b type = BitVec.ofInt 64 z := by
  unfold Store.read Store.write
  split
  · rename_i hstack
    rw [hstack] at h
    show loadSlot _ (Function.update m.slots b.index _ b.index) = _
    rw [Function.update_self]
    exact slotContains_load (stored_slotContains h) (stored_inRange h) _
  · exact Function.update_self ..

end

/-- The value of an initializer. -/
theorem exactInit_word (hcallee : Answered oracle callee) {F : Frame} {env : Env} {Δ : Typing}
    {m : Store} {type : DataType} {initializer : ASTNode} {z : Option Int} (htyped : TypedBy F Δ)
    (hmirrors : Mirrors m F env)
    (hannotated : AnnotatedExpr Δ true initializer)
    (h : exactInit compiledLimits callee F type initializer = some z) :
    ∃ w, Evaluated (evalInit oracle env initializer m) m w ∧
      ∀ z', z = some z' → compiledLimits.stored type true z' = true ∧ w = BitVec.ofInt 64 z' := by
  unfold exactInit at h
  unfold evalInit
  split at h
  · rename_i hnull
    obtain rfl := Option.some.inj h
    rw [if_pos hnull]
    exact ⟨0, .pure m 0, fun z' hz' => by cases hz'⟩
  · rename_i hnull
    obtain ⟨v, hv, hstored⟩ := Option.bind_eq_some_iff.mp h
    obtain ⟨hallowed, hz⟩ := Option.ite_none_right_eq_some.mp hstored
    obtain rfl := Option.some.inj hz
    rw [if_neg hnull]
    refine ⟨_, (exactExpr_word hcallee htyped initializer hmirrors hannotated hv).2, ?_⟩
    intro z' hz'
    obtain rfl := Option.some.inj hz'
    exact ⟨hallowed, rfl⟩

/-- An expression that is evaluated for nothing. -/
theorem expression_follows (hcallee : Answered oracle callee) {F : Frame} {env : Env} {m : Store}
    {r : Ending} {node : ASTNode} (hmirrors : Mirrors m F env)
    (hannotated : AnnotatedExpr (envTyping env) true node)
    (h : (exactExpr compiledLimits callee F true node).map (fun _ => Ending.next F) = some r) :
    ∃ o, withValue (evalExpr oracle env node m) (fun _ m => some (.next m)) = some o ∧
      EndsAs env r o := by
  obtain ⟨v, hv, rfl⟩ := Option.map_eq_some_iff.mp h
  have hvalue := (exactExpr_word hcallee hmirrors.typedBy node hmirrors hannotated hv).2
  obtain ⟨calls, hnext⟩ := hvalue.next fun _ m => some (.next m)
  exact ⟨_, hnext, .next (hmirrors.calls calls)⟩

mutual

/-- Statements end as they do in C. -/
theorem exactStmt_follows (hcallee : Answered oracle callee) (ret : DataType) (fuel : Nat) :
    ∀ (node : ASTNode) {F : Frame} {env : Env} {stack : Nat} {m : Store} {r : Ending},
    Mirrors m F env → Slotted env stack →
    AnnotatedStmt (envTyping env) node → declaresInBlocks node = true →
    exactStmt compiledLimits callee ret fuel node F = some r →
    ∃ o, evalStmt oracle fuel env node stack m = some o ∧
      EndsAs (scopeStmt env node stack).1 r o
  | .null, F, env, stack, m, r, hmirrors, _, _, _, h => by
      cases h
      exact ⟨_, rfl, .next hmirrors⟩
  | .varDecl info varName varType initializer, F, env, stack, m, r, hmirrors, hslots,
      hannotated, _, h => by
      obtain ⟨z, hz, rfl⟩ := Option.map_eq_some_iff.mp h
      have hdeclared : Mirrors m (⟨varName, varType, true, none⟩ :: F)
          ((varName, ⟨.var info.addr, varType, ⟨stack, true⟩⟩) :: env) :=
        .cons ⟨rfl, rfl, rfl, fun _ hnone => by cases hnone⟩ hmirrors
      obtain ⟨w, hvalue, hw⟩ := exactInit_word hcallee (hmirrors.typedBy.declare _ rfl) hdeclared
        hannotated hz
      obtain ⟨calls, hnext⟩ := hvalue.next fun v m => some (.next (m.setSlot varType stack v))
      exact ⟨_, hnext, .next ((hmirrors.calls calls).declare hslots hw)⟩
  | .assignment info varName value, F, env, stack, m, r, hmirrors, hslots, hannotated, _, h => by
      obtain ⟨x, hfind, hrest⟩ := Option.bind_eq_some_iff.mp h
      obtain ⟨v, hv, hstored⟩ := Option.bind_eq_some_iff.mp hrest
      obtain ⟨hallowed, hr⟩ := Option.ite_none_right_eq_some.mp hstored
      obtain rfl := Option.some.inj hr
      obtain ⟨e, hlookup, hmirrored, hmem⟩ := hmirrors.lookup hfind
      have hvalue := (exactExpr_word hcallee hmirrors.typedBy value hmirrors hannotated.2 hv).2
      obtain ⟨calls, hnext⟩ :=
        hvalue.next fun w m => some (.next (m.write e.binding info.valueType w))
      have htype : x.type = info.valueType := by
        have hinfo := hannotated.1
        rw [lookup_envTyping, hlookup] at hinfo
        exact hmirrored.type.trans (Option.some.inj hinfo)
      rw [hmirrored.isLocal, htype] at hallowed
      have hread : ({ m with calls := calls }.write e.binding info.valueType
          (BitVec.ofInt 64 v.value)).read e.binding x.type = BitVec.ofInt 64 v.value := by
        rw [htype]
        exact read_write hallowed
      refine ⟨_, ?_, .next ((hmirrors.calls calls).set hslots.apart hfind hlookup
        (stored_inRange hallowed) hread)⟩
      rw [evalStmt, hlookup]
      exact hnext
  | .returnStmt info expression, F, env, stack, m, r, hmirrors, _, hannotated, _, h => by
      obtain ⟨v, hv, hreturn⟩ := Option.bind_eq_some_iff.mp h
      obtain ⟨hallowed, hr⟩ := Option.ite_none_right_eq_some.mp hreturn
      obtain rfl := Option.some.inj hr
      have hnull : ¬ expression.isNull = true := by
        intro hnull
        rw [ASTNode.isNull_iff.mp hnull] at hv
        cases hv
      have hvalue := (exactExpr_word hcallee hmirrors.typedBy expression hmirrors hannotated hv).2
      obtain ⟨calls, hnext⟩ := hvalue.next fun w m => some (.returned w m)
      refine ⟨_, ?_, .returned (expression_inRange hallowed) { m with calls := calls }⟩
      rw [evalStmt, if_neg hnull]
      exact hnext
  | .block info statements, F, env, stack, m, r, hmirrors, hslots, hannotated, hblocks, h => by
      obtain ⟨r', hr', rfl⟩ := Option.map_eq_some_iff.mp h
      obtain ⟨o, ho, hends⟩ :=
        exactStmts_follows hcallee ret fuel statements hmirrors hslots hannotated hblocks hr'
      exact ⟨o, ho, hends.leave hmirrors (scopeStmts_slotted statements hslots).2.2⟩
  | .ifStmt info condition thenBranch elseBranch, F, env, stack, m, r, hmirrors, hslots,
      hannotated, hblocks, h => by
      obtain ⟨v, hv, hbranch⟩ := Option.bind_eq_some_iff.mp h
      obtain ⟨hcondition, hthen, helse⟩ := hannotated
      rw [scopeStmt_statement rfl hblocks]
      simp only [declaresInBlocks, Bool.and_eq_true, Bool.not_eq_true'] at hblocks
      obtain ⟨⟨⟨hthenStmt, helseStmt⟩, hthenBlocks⟩, helseBlocks⟩ := hblocks
      obtain ⟨hrange, hvalue⟩ :=
        exactExpr_word hcallee hmirrors.typedBy condition hmirrors hcondition hv
      obtain ⟨calls, hnext⟩ := hvalue.next fun w m =>
        if w ≠ 0 then evalStmt oracle fuel env thenBranch stack m
        else if elseBranch.isNull then some (.next m)
        else
          let t := scopeStmt env thenBranch stack
          evalStmt oracle fuel t.1 elseBranch t.2 m
      have hmirrors' := hmirrors.calls calls
      have hthenEnv := scopeStmt_statement hthenStmt hthenBlocks env stack
      rw [evalStmt, hnext]
      by_cases htrue : v.value ≠ 0
      · rw [if_pos htrue] at hbranch
        rw [if_pos (mt (ofInt_eq_zero_iff hrange).mp htrue)]
        obtain ⟨r', hr', rfl⟩ := Option.map_eq_some_iff.mp hbranch
        obtain ⟨o, ho, hends⟩ :=
          exactStmt_follows hcallee ret fuel thenBranch hmirrors' hslots hthen hthenBlocks hr'
        rw [hthenEnv] at hends
        exact ⟨o, ho, hends.leave hmirrors List.suffix_rfl⟩
      · rw [if_neg htrue] at hbranch
        rw [if_neg (mt (mt (ofInt_eq_zero_iff hrange).mpr) htrue)]
        obtain ⟨r', hr', rfl⟩ := Option.map_eq_some_iff.mp hbranch
        by_cases hnull : elseBranch.isNull = true
        · rw [if_pos hnull]
          rw [ASTNode.isNull_iff.mp hnull] at hr'
          cases hr'
          exact ⟨_, rfl, (EndsAs.next hmirrors').leave hmirrors List.suffix_rfl⟩
        · rw [if_neg hnull]
          dsimp only
          rw [hthenEnv]
          obtain ⟨-, hle, -⟩ := scopeStmt_slotted thenBranch hslots
          obtain ⟨o, ho, hends⟩ := exactStmt_follows hcallee ret fuel elseBranch hmirrors'
            (hslots.mono hle) helse helseBlocks hr'
          rw [scopeStmt_statement helseStmt helseBlocks] at hends
          exact ⟨o, ho, hends.leave hmirrors List.suffix_rfl⟩
  | .whileStmt info condition body, F, env, stack, m, r, hmirrors, hslots, hannotated, hblocks,
      h => by
      obtain ⟨hcondition, hbody⟩ := hannotated
      rw [scopeStmt_statement rfl hblocks]
      simp only [declaresInBlocks, Bool.and_eq_true, Bool.not_eq_true'] at hblocks
      obtain ⟨hbodyStmt, hbodyBlocks⟩ := hblocks
      have hbodyEnv := scopeStmt_statement hbodyStmt hbodyBlocks env stack
      rw [evalStmt]
      have hturns : ∀ (F : Frame) (m : Store) (t : Turn Frame Ending), Mirrors m F env →
          exactTurn F (exactExpr compiledLimits callee F true condition)
            (fun F => exactStmt compiledLimits callee ret fuel body F) = some t →
          ∃ t', loopTurn (evalExpr oracle env condition m)
            (fun m => evalStmt oracle fuel env body stack m) = some t' ∧ TurnsAs env t t' := by
        intro F m t hmirrors hturn
        refine exactTurn_follows hmirrors (fun v hv =>
          exactExpr_word hcallee hmirrors.typedBy condition hmirrors hcondition hv)
          (fun m' r hmirrors' hr => ?_) hturn
        obtain ⟨o, ho, hends⟩ :=
          exactStmt_follows hcallee ret fuel body hmirrors' hslots hbody hbodyBlocks hr
        exact ⟨o, ho, hbodyEnv ▸ hends⟩
      refine iterate_together (R := fun F m => Mirrors m F env) (fun F F' m hmirrors hturn => ?_)
        (fun F r m hmirrors hturn => ?_) hmirrors h
      · obtain ⟨t', ht', hsame⟩ := hturns F m _ hmirrors hturn
        cases hsame with
        | again hmirrors' => exact ⟨_, ht', hmirrors'⟩
      · obtain ⟨t', ht', hsame⟩ := hturns F m _ hmirrors hturn
        cases hsame with
        | leave hends => exact ⟨_, ht', hends⟩
  | .number info value, _, _, _, _, _, hmirrors, _, hannotated, _, h =>
      expression_follows hcallee hmirrors hannotated h
  | .identifier info name, _, _, _, _, _, hmirrors, _, hannotated, _, h =>
      expression_follows hcallee hmirrors hannotated h
  | .binary op info left right, _, _, _, _, _, hmirrors, _, hannotated, _, h =>
      expression_follows hcallee hmirrors hannotated h
  | .unary op info operand, _, _, _, _, _, hmirrors, _, hannotated, _, h =>
      expression_follows hcallee hmirrors hannotated h
  | .call info name args, _, _, _, _, _, hmirrors, _, hannotated, _, h =>
      expression_follows hcallee hmirrors hannotated h
  | .function _ _ _ _ _ _, _, _, _, _, _, _, _, _, _, h => by cases h
  | .translationUnit _ _, _, _, _, _, _, _, _, _, _, h => by cases h

/-- Statements in order end as they do in C. -/
theorem exactStmts_follows (hcallee : Answered oracle callee) (ret : DataType) (fuel : Nat) :
    ∀ (nodes : List ASTNode) {F : Frame} {env : Env} {stack : Nat} {m : Store} {r : Ending},
    Mirrors m F env → Slotted env stack →
    AnnotatedStmts (envTyping env) nodes → allDeclareInBlocks nodes = true →
    exactStmts compiledLimits callee ret fuel nodes F = some r →
    ∃ o, evalStmts oracle fuel env nodes stack m = some o ∧
      EndsAs (scopeStmts env nodes stack).1 r o
  | [], F, env, stack, m, r, hmirrors, _, _, _, h => by
      cases h
      exact ⟨_, rfl, .next hmirrors⟩
  | node :: nodes, F, env, stack, m, r, hmirrors, hslots, hannotated, hblocks, h => by
      rw [allDeclareInBlocks, Bool.and_eq_true] at hblocks
      obtain ⟨r', hr', hrest⟩ := Option.bind_eq_some_iff.mp h
      obtain ⟨o, ho, hends⟩ :=
        exactStmt_follows hcallee ret fuel node hmirrors hslots hannotated.1 hblocks.1 hr'
      rw [evalStmts, ho]
      cases hends with
      | next hmirrors' =>
        have hannotated' := hannotated.2
        rw [← envTyping_behind hblocks.1 env stack] at hannotated'
        exact exactStmts_follows hcallee ret fuel nodes hmirrors' (scopeStmt_slotted node hslots).1
          hannotated' hblocks.2 hrest
      | returned hz m' =>
        cases hrest
        exact ⟨_, rfl, .returned hz m'⟩

end

end

end TinyCompile.Ir
