import TinyCompile.Semantic.Analyze

set_option autoImplicit false

/-!
# Semantic: the chain of tables is lexical scoping

Lexical scoping is a list of open blocks, each the list of the variables it declares.  The
chain of open-addressing tables behaves like it in every run of the scope operations, full
tables included.
-/

namespace TinyCompile.Semantic

open TinyCompile.Source

/-! ## One table -/

theorem Scope.covers : Probe.Covers Scope.probe scopeHashSize :=
  Probe.covers_linear (fun name => (Ir.hashSv name).toNat) 7

theorem Vars.find_eq_none {vars : Vars} {name : StringView} :
    vars.find name = none ↔ name ∉ vars.map (·.name) := by
  simp only [Vars.find, List.find?_eq_none, svEq_iff, List.mem_map, not_exists, not_and]

/-- A table holds the variables of a block. -/
structure Scope.Holds (scope : Scope) (vars : Vars) : Prop where
  consistent : scope.Consistent
  find : ∀ name, scope.find name = vars.find name
  nodup : (vars.map (·.name)).Nodup

theorem Scope.holds_empty : Scope.empty.Holds [] where
  consistent := Scope.consistent_empty
  find := Scope.find_empty
  nodup := List.nodup_nil

/-- The names in a table are those of the variables. -/
theorem Scope.Holds.names {scope : Scope} {vars : Vars} (h : scope.Holds vars)
    (name : StringView) :
    name ∈ (vars.map (·.name)).toFinset ↔ ∃ s, scope.keyAt s = some name := by
  have hfind : scope.find name = none ↔ ¬ ∃ s, scope.keyAt s = some name := by
    rw [Scope.find_eq_lookup, Option.map_eq_none_iff, Option.eq_none_iff_forall_ne_some]
    simp only [ne_eq, Probe.Consistent.lookup_eq_some_iff h.consistent, not_exists]
  rw [h.find, Vars.find_eq_none] at hfind
  rw [List.mem_toFinset]
  exact not_iff_not.mp hfind

/-- What keeps a block from declaring a name: it has the name, or it is full. -/
def Rejects (vars : Vars) (name : StringView) : Prop :=
  name ∈ vars.map (·.name) ∨ scopeHashSize ≤ vars.length

instance (vars : Vars) (name : StringView) : Decidable (Rejects vars name) :=
  inferInstanceAs (Decidable (_ ∨ _))

/-- The loop of `semantic_scope_declare` stores the variable unless the block rejects it. -/
theorem Scope.Holds.declare {scope : Scope} {vars : Vars} (h : scope.Holds vars)
    (var : VarInfo) :
    if Rejects vars var.name then ∀ scope', scope.declare var ≠ .stored scope'
    else ∃ scope', scope.declare var = .stored scope' ∧ scope'.Holds (var :: vars) := by
  have hnames := h.names var.name
  rw [List.mem_toFinset] at hnames
  have hnone := Probe.Consistent.find_eq_none h.consistent Scope.covers h.names var.name
  rw [List.mem_toFinset, List.toFinset_card_of_nodup h.nodup, List.length_map] at hnone
  split
  · rename_i hreject
    intro scope' hstored
    obtain ⟨curr, hslot, -, -⟩ := Scope.declare_eq_stored hstored
    unfold Scope.declare at hstored
    rw [hslot] at hstored
    have hfree : scope.keyAt curr = none := by
      unfold Scope.keyAt
      cases hocc : (scope.entries curr).occupied with
      | false => rfl
      | true =>
        simp only [hocc, if_true] at hstored
        cases hstored
    have hfound : Probe.find Scope.probe scopeHashSize scope.keyAt var.name = some curr := hslot
    by_cases hmem : var.name ∈ vars.map (·.name)
    · -- the search would have ended in the entry of the name
      obtain ⟨s, hs⟩ := hnames.mp hmem
      obtain rfl : s = curr := Option.some.inj ((h.consistent s _ hs).symm.trans hfound)
      rw [hfree] at hs
      cases hs
    · have hfail := hnone.mpr ⟨hmem, hreject.resolve_left hmem⟩
      rw [hfound] at hfail
      cases hfail
  · rename_i haccept
    unfold Rejects at haccept
    push Not at haccept
    obtain ⟨hnew, hroom⟩ := haccept
    obtain ⟨curr, hslot⟩ : ∃ curr, scope.slotOf var.name = some curr := by
      apply Option.ne_none_iff_exists'.mp
      intro hfail
      exact absurd (hnone.mp hfail).2 (Nat.not_le.mpr hroom)
    have hfree : (scope.entries curr).occupied = false := by
      rw [Bool.eq_false_iff]
      intro hocc
      rcases Probe.find_stops hslot with hnokey | hkey
      · simp [Scope.keyAt, hocc] at hnokey
      · exact hnew (hnames.mpr ⟨curr, hkey⟩)
    have hstored : scope.declare var =
        .stored ⟨Function.update scope.entries curr ⟨var, true⟩, scope.varCount + 1⟩ := by
      unfold Scope.declare
      simp only [hslot, hfree, Bool.false_eq_true, if_false]
    refine ⟨_, hstored, h.consistent.declare hstored, fun name => ?_, ?_⟩
    · rw [h.consistent.find_declare hstored, h.find]
      simp only [Vars.find, List.find?_cons]
      by_cases hname : name = var.name
      · subst hname
        have hself : svEq var.name var.name = true := by simp
        rw [if_pos rfl, hself]
      · have hother : svEq var.name name = false := by
          rw [svEq, beq_eq_false_iff_ne]
          exact fun heq => hname heq.symm
        rw [if_neg hname, hother]
    · rw [List.map_cons, List.nodup_cons]
      exact ⟨hnew, h.nodup⟩

/-! ## The chain -/

/-- The variable a name stands for: that of the innermost block which declares it. -/
def lookupBlocks (blocks : List Vars) (name : StringView) : Option VarInfo :=
  blocks.findSome? fun vars => vars.find name

/-- Each table of the chain holds the variables of its block. -/
def Represents (chain : List Scope) (blocks : List Vars) : Prop :=
  List.Forall₂ Scope.Holds chain blocks

theorem Represents.lookup {chain : List Scope} {blocks : List Vars} (h : Represents chain blocks)
    (name : StringView) : semanticScopeLookup chain name = lookupBlocks blocks name := by
  induction h with
  | nil => rfl
  | @cons scope vars chain blocks hscope _ ih =>
    unfold semanticScopeLookup lookupBlocks
    rw [hscope.find, List.findSome?_cons]
    cases vars.find name with
    | none => exact ih
    | some var => rfl

/-- The operations on scopes that change them. -/
inductive ScopeOp where
  | enter
  | exit
  | declare (var : VarInfo)

/-- An operation of the analyzer. -/
def ScopeOp.run : ScopeOp → SemM Unit
  | .enter => semanticScopeEnter
  | .exit => semanticScopeExit
  | .declare var => do
      let _ ← semanticScopeDeclare var

/-- Operations one after the other. -/
def runScopeOps : List ScopeOp → SemM Unit
  | [] => return
  | op :: ops => do
      op.run
      runScopeOps ops

/-- What an operation does to the open blocks. -/
def ScopeOp.apply : ScopeOp → List Vars → List Vars
  | .enter, blocks => [] :: blocks
  | .exit, blocks => blocks.tail
  | .declare _, [] => []
  | .declare var, vars :: outer =>
      if Rejects vars var.name then vars :: outer else (var :: vars) :: outer

/-- The open blocks after some operations. -/
def blocksAfter (ops : List ScopeOp) (blocks : List Vars) : List Vars :=
  ops.foldl (fun blocks op => op.apply blocks) blocks

/-- No block is open, or the innermost one rejects the name. -/
def Refused (blocks : List Vars) (name : StringView) : Prop :=
  ∀ vars outer, blocks = vars :: outer → Rejects vars name

theorem semanticScopeDeclare_run {sa : SemanticAnalyzer} {scope : Scope}
    {parents : List Scope} (hchain : sa.current = scope :: parents) (var : VarInfo) :
    semanticScopeDeclare var sa = (match scope.declare var with
        | .stored scope => do
            set { sa with current := scope :: parents }
            return true
        | .redeclared line => do
            errorSemantic var.line 0 ("redeclaration of variable '" ++ svText var.name ++
              "' (first declared at line " ++ toString line ++ ")")
            return false
        | .full => do
            errorSemantic var.line 0
              ("too many variables in scope (max " ++ toString scopeHashSize ++ ")")
            return false : SemM Bool) sa := by
  cases sa
  subst hchain
  rfl

/-- `semantic_scope_declare`. -/
theorem Represents.declare {sa : SemanticAnalyzer} {blocks : List Vars}
    (h : Represents sa.current blocks) (var : VarInfo) :
    ∃ ok sa', semanticScopeDeclare var sa = .ok (ok, sa') ∧
      Represents sa'.current ((ScopeOp.declare var).apply blocks) ∧
      (ok = false ↔ Refused blocks var.name) ∧ (ok = false → sa'.current = sa.current) := by
  cases hchain : sa.current with
  | nil =>
    rw [hchain] at h
    cases h
    refine ⟨false, sa, ?_, ?_, ?_, fun _ => hchain⟩
    · cases sa
      subst hchain
      rfl
    · rw [hchain]
      exact .nil
    · exact ⟨fun _ _ _ hnil => absurd hnil.symm (List.cons_ne_nil _ _), fun _ => rfl⟩
  | cons scope parents =>
    rw [hchain] at h
    obtain ⟨vars, outer, hscope, hparents, rfl⟩ := List.forall₂_cons_left_iff.mp h
    have hrefused : Refused (vars :: outer) var.name ↔ Rejects vars var.name :=
      ⟨fun hall => hall vars outer rfl, fun hr _ _ heq => (List.cons.inj heq).1 ▸ hr⟩
    have hdeclare := hscope.declare var
    rw [semanticScopeDeclare_run hchain, hrefused]
    by_cases hreject : Rejects vars var.name
    · rw [if_pos hreject] at hdeclare
      have happly : (ScopeOp.declare var).apply (vars :: outer) = vars :: outer := if_pos hreject
      rw [happly]
      cases hres : scope.declare var with
      | stored scope' => exact absurd hres (hdeclare scope')
      | redeclared line =>
        exact ⟨false, _, rfl, by rw [← hchain] at h; exact h, ⟨fun _ => hreject, fun _ => rfl⟩,
          fun _ => hchain⟩
      | full =>
        exact ⟨false, _, rfl, by rw [← hchain] at h; exact h, ⟨fun _ => hreject, fun _ => rfl⟩,
          fun _ => hchain⟩
    · rw [if_neg hreject] at hdeclare
      obtain ⟨scope', hstored, hholds⟩ := hdeclare
      have happly : (ScopeOp.declare var).apply (vars :: outer) = (var :: vars) :: outer :=
        if_neg hreject
      rw [happly, hstored]
      exact ⟨true, _, rfl, .cons hholds hparents,
        ⟨fun hok => absurd hok.symm Bool.false_ne_true, fun hr => absurd hr hreject⟩,
        fun hok => absurd hok.symm Bool.false_ne_true⟩

theorem Represents.step {sa : SemanticAnalyzer} {blocks : List Vars}
    (h : Represents sa.current blocks) (op : ScopeOp) :
    ∃ sa', op.run sa = .ok ((), sa') ∧ Represents sa'.current (op.apply blocks) := by
  cases op with
  | enter => exact ⟨_, rfl, .cons Scope.holds_empty h⟩
  | exit =>
    refine ⟨_, rfl, ?_⟩
    show Represents sa.current.tail blocks.tail
    generalize sa.current = chain at h
    cases h with
    | nil => exact .nil
    | cons _ hparents => exact hparents
  | declare var =>
    obtain ⟨ok, sa', hrun, hrep, -, -⟩ := h.declare var
    refine ⟨sa', ?_, hrep⟩
    simp only [ScopeOp.run, bind, StateT.bind, hrun]
    rfl

theorem Represents.steps {sa : SemanticAnalyzer} {blocks : List Vars}
    (h : Represents sa.current blocks) (ops : List ScopeOp) :
    ∃ sa', runScopeOps ops sa = .ok ((), sa') ∧
      Represents sa'.current (blocksAfter ops blocks) := by
  induction ops generalizing sa blocks with
  | nil => exact ⟨sa, rfl, h⟩
  | cons op ops ih =>
    obtain ⟨sa₁, hrun, hrep⟩ := h.step op
    obtain ⟨sa', hruns, hreps⟩ := ih hrep
    refine ⟨sa', ?_, hreps⟩
    simp only [runScopeOps, bind, StateT.bind, hrun]
    exact hruns

/-- After any run of the scope operations a lookup finds the variable of the innermost open
block that declared the name; a declaration fails exactly when no block is open or the
innermost one has the name or is full, and then changes no scope; one that succeeds
changes the meaning of its own name only. -/
theorem scopes_lexical (ops : List ScopeOp) (sa : SemanticAnalyzer) :
    ∃ sa', runScopeOps ops { sa with current := [] } = .ok ((), sa') ∧
      (∀ name, semanticScopeLookup sa'.current name =
        lookupBlocks (blocksAfter ops []) name) ∧
      ∀ var, ∃ ok sa'', semanticScopeDeclare var sa' = .ok (ok, sa'') ∧
        (ok = false ↔ Refused (blocksAfter ops []) var.name) ∧
        (ok = false → sa''.current = sa'.current) ∧
        (ok = true → semanticScopeLookup sa''.current var.name = some var ∧
          ∀ name, name ≠ var.name →
            semanticScopeLookup sa''.current name = semanticScopeLookup sa'.current name) := by
  have hstart : Represents (SemanticAnalyzer.current { sa with current := [] }) [] := .nil
  obtain ⟨sa', hrun, hrep⟩ := hstart.steps ops
  refine ⟨sa', hrun, hrep.lookup, fun var => ?_⟩
  obtain ⟨ok, sa'', hdeclare, hrep', hiff, hsame⟩ := hrep.declare var
  refine ⟨ok, sa'', hdeclare, hiff, hsame, fun hok => ?_⟩
  subst hok
  -- an accepted declaration is put in front of its block
  cases hblocks : blocksAfter ops [] with
  | nil =>
    rw [hblocks] at hiff
    exact absurd (hiff.mpr nofun) (by simp)
  | cons vars outer =>
    rw [hblocks] at hiff hrep hrep'
    have haccept : ¬ Rejects vars var.name := by
      intro hreject
      have := hiff.mpr fun _ _ heq => (List.cons.inj heq).1 ▸ hreject
      cases this
    have happly : (ScopeOp.declare var).apply (vars :: outer) = (var :: vars) :: outer :=
      if_neg haccept
    rw [happly] at hrep'
    have hfind : ∀ name, Vars.find (var :: vars) name =
        if svEq var.name name then some var else vars.find name := by
      intro name
      simp only [Vars.find, List.find?_cons]
      cases svEq var.name name <;> rfl
    refine ⟨?_, fun name hname => ?_⟩
    · rw [hrep'.lookup, lookupBlocks, List.findSome?_cons, hfind]
      simp
    · have hother : svEq var.name name = false := by
        rw [svEq, beq_eq_false_iff_ne]
        exact fun heq => hname heq.symm
      rw [hrep'.lookup, hrep.lookup]
      unfold lookupBlocks
      rw [List.findSome?_cons, List.findSome?_cons, hfind, hother]
      rfl

end TinyCompile.Semantic
