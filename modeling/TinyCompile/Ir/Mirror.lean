import TinyCompile.Ir.Limits
import TinyCompile.Ir.Meaning
import TinyCompile.Semantic.Annotated

set_option autoImplicit false

/-!
# Ir: variables of C and their registers and slots

A store mirrors the variables in scope if each of them that has a value has it in its
register or its slot.  Expressions have the same values on both sides.
-/

namespace TinyCompile.Ir

open TinyCompile.Machine TinyCompile.Source TinyCompile.Semantic TinyCompile.Logic

/-! ## Scopes with slots of their own -/

/-- The variables in scope have different places, and the slots of the locals are taken. -/
structure Slotted (env : Env) (stack : Nat) : Prop where
  apart : env.Pairwise fun e e' => e.2.binding ≠ e'.2.binding
  below : ∀ e ∈ env, e.2.binding.isStack = true → e.2.binding.index < stack

section

variable {env : Env} {stack stack' : Nat}

theorem Slotted.mono (h : Slotted env stack) (hle : stack ≤ stack') : Slotted env stack' :=
  ⟨h.apart, fun e he hstack => Nat.lt_of_lt_of_le (h.below e he hstack) hle⟩

/-- The next slot is nobody's. -/
theorem Slotted.fresh (h : Slotted env stack) :
    ∀ e ∈ env, e.2.binding ≠ ⟨stack, true⟩ := by
  intro e he heq
  have hlt := h.below e he (by rw [heq])
  rw [heq] at hlt
  exact Nat.lt_irrefl stack hlt

theorem Slotted.declare (h : Slotted env stack) (name : StringView) (decl : Decl)
    (type : DataType) : Slotted ((name, ⟨decl, type, ⟨stack, true⟩⟩) :: env) (stack + 1) where
  apart := List.pairwise_cons.mpr ⟨fun e he => (h.fresh e he).symm, h.apart⟩
  below := by
    refine List.forall_mem_cons.mpr ⟨fun _ => Nat.lt_succ_self stack, fun e he hstack => ?_⟩
    exact Nat.lt_succ_of_lt (h.below e he hstack)

mutual

/-- Statements take slots and leave the names of their scope where they are. -/
theorem scopeStmt_slotted : ∀ (node : ASTNode) {env : Env} {stack : Nat}, Slotted env stack →
    Slotted (scopeStmt env node stack).1 (scopeStmt env node stack).2 ∧
      stack ≤ (scopeStmt env node stack).2 ∧ env <:+ (scopeStmt env node stack).1
  | .varDecl _ _ _ _, env, stack, h =>
      ⟨h.declare _ _ _, Nat.le_succ stack, List.suffix_cons _ env⟩
  | .block _ statements, env, stack, h => by
      obtain ⟨-, hle, -⟩ := scopeStmts_slotted statements h
      exact ⟨h.mono hle, hle, List.suffix_rfl⟩
  | .ifStmt _ condition thenBranch elseBranch, env, stack, h => by
      obtain ⟨hthen, hle, hsuffix⟩ := scopeStmt_slotted thenBranch h
      obtain ⟨helse, hle', hsuffix'⟩ := scopeStmt_slotted elseBranch hthen
      rw [scopeStmt]
      dsimp only
      split
      · split
        · exact ⟨hthen, hle, hsuffix⟩
        · exact ⟨helse, hle.trans hle', hsuffix.trans hsuffix'⟩
      · exact ⟨h, Nat.le_refl stack, List.suffix_rfl⟩
  | .whileStmt _ condition body, env, stack, h => by
      rw [scopeStmt]
      split
      · exact scopeStmt_slotted body h
      · exact ⟨h, Nat.le_refl stack, List.suffix_rfl⟩
  | .null, _, _, h => ⟨h, Nat.le_refl _, List.suffix_rfl⟩
  | .number _ _, _, _, h => ⟨h, Nat.le_refl _, List.suffix_rfl⟩
  | .identifier _ _, _, _, h => ⟨h, Nat.le_refl _, List.suffix_rfl⟩
  | .binary _ _ _ _, _, _, h => ⟨h, Nat.le_refl _, List.suffix_rfl⟩
  | .unary _ _ _, _, _, h => ⟨h, Nat.le_refl _, List.suffix_rfl⟩
  | .assignment _ _ _, _, _, h => ⟨h, Nat.le_refl _, List.suffix_rfl⟩
  | .returnStmt _ _, _, _, h => ⟨h, Nat.le_refl _, List.suffix_rfl⟩
  | .function _ _ _ _ _ _, _, _, h => ⟨h, Nat.le_refl _, List.suffix_rfl⟩
  | .translationUnit _ _, _, _, h => ⟨h, Nat.le_refl _, List.suffix_rfl⟩
  | .call _ _ _, _, _, h => ⟨h, Nat.le_refl _, List.suffix_rfl⟩

theorem scopeStmts_slotted : ∀ (nodes : List ASTNode) {env : Env} {stack : Nat},
    Slotted env stack → Slotted (scopeStmts env nodes stack).1 (scopeStmts env nodes stack).2 ∧
      stack ≤ (scopeStmts env nodes stack).2 ∧ env <:+ (scopeStmts env nodes stack).1
  | [], _, _, h => ⟨h, Nat.le_refl _, List.suffix_rfl⟩
  | node :: nodes, env, stack, h => by
      obtain ⟨hnode, hle, hsuffix⟩ := scopeStmt_slotted node h
      obtain ⟨hnodes, hle', hsuffix'⟩ := scopeStmts_slotted nodes hnode
      exact ⟨hnodes, hle.trans hle', hsuffix.trans hsuffix'⟩

end

/-- Behind a statement whose declarations stand in blocks the scope is as before. -/
theorem scopeStmt_statement {node : ASTNode} (hdecl : isDeclaration node = false)
    (hblocks : declaresInBlocks node = true) (env : Env) (stack : Nat) :
    (scopeStmt env node stack).1 = env := by
  cases node with
  | varDecl _ _ _ _ => cases hdecl
  | ifStmt info condition thenBranch elseBranch =>
    simp only [declaresInBlocks, Bool.and_eq_true, Bool.not_eq_true'] at hblocks
    obtain ⟨⟨⟨hthen, helse⟩, hthenBlocks⟩, helseBlocks⟩ := hblocks
    have hthenEnv := scopeStmt_statement hthen hthenBlocks env stack
    rw [scopeStmt]
    dsimp only
    split
    · split
      · exact hthenEnv
      · rw [hthenEnv]
        exact scopeStmt_statement helse helseBlocks env _
    · rfl
  | whileStmt info condition body =>
    simp only [declaresInBlocks, Bool.and_eq_true, Bool.not_eq_true'] at hblocks
    rw [scopeStmt]
    split
    · exact scopeStmt_statement hblocks.1 hblocks.2 env stack
    · rfl
  | _ => rfl
termination_by sizeOf node

end

/-! ## Stores that mirror variables -/

/-- A variable and its place in the store. -/
structure Mirrored (m : Store) (v : Variable) (entry : StringView × Entry) : Prop where
  name : v.name = entry.1
  type : v.type = entry.2.type
  isLocal : v.isLocal = entry.2.binding.isStack
  value : ∀ z, v.value = some z →
    InRange z ∧ m.read entry.2.binding v.type = BitVec.ofInt 64 z

/-- The variables in scope and their places. -/
abbrev Mirrors (m : Store) : Frame → Env → Prop := List.Forall₂ (Mirrored m)

/-- The types of the names in scope. -/
def envTyping (env : Env) : Typing := env.map fun e => (e.1, e.2.type)

/-- The type of a name in scope. -/
theorem lookup_envTyping (env : Env) (name : StringView) :
    (envTyping env).lookup name = (env.lookup name).map (·.type) := by
  induction env with
  | nil => rfl
  | cons entry env ih =>
    obtain ⟨other, e⟩ := entry
    show List.lookup name ((other, e.type) :: envTyping env) = _
    rw [List.lookup_cons, List.lookup_cons]
    cases name == other with
    | true => rfl
    | false => exact ih

/-- The variables with a value have the types of a typing. -/
def TypedBy (F : Frame) (Δ : Typing) : Prop :=
  ∀ name v z, F.find name = some v → v.value = some z → Δ.lookup name = some v.type

section

variable {m : Store} {F : Frame} {env : Env} {name : StringView} {v : Variable} {z : Int}
  {b : SymbolTable.Binding} {type : DataType} {w : Word}

theorem Mirrors.calls (h : Mirrors m F env) (calls : List Call) :
    Mirrors { m with calls := calls } F env :=
  h.imp fun _ _ hv => ⟨hv.name, hv.type, hv.isLocal, hv.value⟩

/-- Both sides find the same variable. -/
theorem Mirrors.lookup (h : Mirrors m F env) (hv : F.find name = some v) :
    ∃ e, env.lookup name = some e ∧ Mirrored m v (name, e) ∧ (name, e) ∈ env := by
  induction h with
  | nil => cases hv
  | @cons x entry F env hx _ ih =>
    obtain ⟨other, e⟩ := entry
    obtain rfl : x.name = other := hx.name
    rw [Frame.find, List.find?_cons] at hv
    cases hname : x.name == name with
    | true =>
      obtain rfl := beq_iff_eq.mp hname
      rw [hname] at hv
      obtain rfl := Option.some.inj hv
      exact ⟨e, by simp, hx, List.mem_cons_self⟩
    | false =>
      rw [hname] at hv
      obtain ⟨e', hlookup, he', hmem⟩ := ih hv
      refine ⟨e', ?_, he', List.mem_cons_of_mem _ hmem⟩
      have hother : (name == x.name) = false := by
        rw [← hname]
        exact Bool.beq_comm
      rw [List.lookup_cons, hother]
      exact hlookup

/-- The types of mirrored variables. -/
theorem Mirrors.typedBy (h : Mirrors m F env) : TypedBy F (envTyping env) := by
  intro name v z hv _
  obtain ⟨e, hlookup, hmirrored, -⟩ := h.lookup hv
  rw [lookup_envTyping, hlookup, hmirrored.type]
  rfl

/-- A variable without a value hides the type of another one, and no more. -/
theorem TypedBy.declare {Δ : Typing} (h : TypedBy F Δ) (x : Variable) (hx : x.value = none) :
    TypedBy (x :: F) Δ := by
  intro name v z hv hz
  rw [Frame.find, List.find?_cons] at hv
  split at hv
  · obtain rfl := Option.some.inj hv
    rw [hx] at hz
    cases hz
  · exact h name v z hv hz

/-- A write leaves the other places alone. -/
theorem read_write_ne {b' : SymbolTable.Binding} (hne : b' ≠ b) (type' : DataType) :
    (m.write b type w).read b' type' = m.read b' type' := by
  obtain ⟨i, stack⟩ := b
  obtain ⟨i', stack'⟩ := b'
  unfold Store.read Store.write
  cases stack with
  | true =>
    rw [if_pos rfl]
    cases stack' with
    | true =>
      have hi : i' ≠ i := by
        rintro rfl
        exact hne rfl
      simp [Store.setSlot, Function.update_of_ne hi]
    | false => rfl
  | false =>
    rw [if_neg Bool.false_ne_true]
    cases stack' with
    | true => rfl
    | false =>
      have hi : i' ≠ i := by
        rintro rfl
        exact hne rfl
      simp [Function.update_of_ne hi]

theorem Mirrors.write_ne (h : Mirrors m F env) (hne : ∀ e ∈ env, e.2.binding ≠ b) :
    Mirrors (m.write b type w) F env := by
  induction h with
  | nil => exact .nil
  | @cons x entry F env hx _ ih =>
    obtain ⟨hentry, hrest⟩ := List.forall_mem_cons.mp hne
    refine .cons ⟨hx.name, hx.type, hx.isLocal, fun z hz => ?_⟩ (ih hrest)
    rw [read_write_ne hentry]
    exact hx.value z hz

/-- A write to the place of a variable is a write to the variable. -/
theorem Mirrors.set (h : Mirrors m F env)
    (hapart : env.Pairwise fun e e' => e.2.binding ≠ e'.2.binding) {e : Entry}
    (hv : F.find name = some v) (he : env.lookup name = some e) (hz : InRange z)
    (hread : (m.write e.binding type w).read e.binding v.type = BitVec.ofInt 64 z) :
    Mirrors (m.write e.binding type w) (F.set name z) env := by
  induction h with
  | nil => cases hv
  | @cons x entry F env hx hrest ih =>
    obtain ⟨other, e'⟩ := entry
    obtain rfl : x.name = other := hx.name
    obtain ⟨hhead, htail⟩ := List.pairwise_cons.mp hapart
    rw [Frame.find, List.find?_cons] at hv
    rw [List.lookup_cons] at he
    rw [Frame.set]
    cases hname : x.name == name with
    | true =>
      obtain rfl := beq_iff_eq.mp hname
      rw [hname] at hv
      rw [beq_self_eq_true] at he
      obtain rfl := Option.some.inj hv
      obtain rfl := Option.some.inj he
      rw [if_pos rfl]
      refine .cons ⟨rfl, hx.type, hx.isLocal, fun z' hz' => ?_⟩
        (Mirrors.write_ne hrest fun e he => (hhead e he).symm)
      obtain rfl := Option.some.inj hz'
      exact ⟨hz, hread⟩
    | false =>
      rw [hname] at hv
      have hother : (name == x.name) = false := by
        rw [← hname]
        exact Bool.beq_comm
      rw [hother] at he
      rw [if_neg Bool.false_ne_true]
      refine .cons ⟨hx.name, hx.type, hx.isLocal, fun z' hz' => ?_⟩ (ih htail hv he)
      obtain ⟨e₁, he₁, -, hmem⟩ := Mirrors.lookup hrest hv
      obtain rfl := Option.some.inj (he₁.symm.trans he)
      rw [read_write_ne (hhead _ hmem)]
      exact hx.value z' hz'

end

end TinyCompile.Ir
