import TinyCompile.Ir.SymbolTable

set_option autoImplicit false

/-!
# Semantic: scopes

`semantic_scope_*` of `srcs/semantic/semantic.c`: one open-addressing table for each
open block, chained from the innermost to the outermost.
-/

namespace TinyCompile.Semantic

open TinyCompile.Source

/-- `SCOPE_HASH_SIZE`. -/
def scopeHashSize : Nat := 128

/-- `VarInfo`.  `decl`, the declaration it comes from, is not in the source. -/
structure VarInfo where
  name : StringView := []
  type : DataType := .void
  initialized : Bool := false
  line : Nat := 0
  decl : Decl := .param 0
  deriving DecidableEq, Repr

/-- `ScopeEntry`. -/
structure ScopeEntry where
  info : VarInfo := {}
  occupied : Bool := false
  deriving DecidableEq, Repr

/-- `Scope`; the chain of parents is a list of these. -/
structure Scope where
  entries : Nat → ScopeEntry
  varCount : Nat

namespace Scope

/-- A new scope: the table is cleared. -/
def empty : Scope := ⟨fun _ => {}, 0⟩

/-- The name an occupied entry holds. -/
def keyAt (scope : Scope) (s : Nat) : Option StringView :=
  if (scope.entries s).occupied then some (scope.entries s).info.name else none

/-- The entry probe number `i` looks at. -/
def probe (name : StringView) (i : Nat) : Nat :=
  (((Ir.hashSv name).toNat &&& (scopeHashSize - 1)) + i) &&& (scopeHashSize - 1)

/-- The entry at which the loops of lookup and declare stop for a name. -/
def slotOf (scope : Scope) (name : StringView) : Option Nat :=
  Probe.find probe scopeHashSize scope.keyAt name

/-- The loop of `semantic_scope_lookup` over one table. -/
def find (scope : Scope) (name : StringView) : Option VarInfo :=
  match scope.slotOf name with
  | some curr =>
      if (scope.entries curr).occupied then some (scope.entries curr).info else none
  | none => none

end Scope

/-- `semantic_scope_lookup`, from the innermost scope outwards. -/
def semanticScopeLookup : List Scope → StringView → Option VarInfo
  | [], _ => none
  | scope :: parents, name =>
      match scope.find name with
      | some var => some var
      | none => semanticScopeLookup parents name

/-- How the loop of `semantic_scope_declare` ends. -/
inductive Declared where
  | stored (scope : Scope)
  /-- The name is taken, by a declaration on `line`. -/
  | redeclared (line : Nat)
  | full

/-- The loop of `semantic_scope_declare`. -/
def Scope.declare (scope : Scope) (var : VarInfo) : Declared :=
  match scope.slotOf var.name with
  | some curr =>
      if (scope.entries curr).occupied then .redeclared (scope.entries curr).info.line
      else .stored ⟨Function.update scope.entries curr ⟨var, true⟩, scope.varCount + 1⟩
  | none => .full

/-! ## What a scope holds -/

namespace Scope

/-- Every occupied entry is found by a search for its name. -/
def Consistent (scope : Scope) : Prop := Probe.Consistent probe scopeHashSize scope.keyAt

theorem consistent_empty : empty.Consistent := Probe.consistent_empty

theorem find_empty (name : StringView) : empty.find name = none := by
  unfold find
  split
  · rfl
  · rfl

/-- A search ends in the entry of the name. -/
theorem find_eq_lookup (scope : Scope) (name : StringView) :
    scope.find name = (Probe.lookup probe scopeHashSize scope.keyAt name).map
      fun s => (scope.entries s).info := by
  unfold find Probe.lookup slotOf
  cases Probe.find probe scopeHashSize scope.keyAt name with
  | none => rfl
  | some curr =>
    simp only [keyAt, Option.filter_some]
    by_cases hocc : (scope.entries curr).occupied <;> simp [hocc]

/-- What a declaration that stores the variable makes of the table. -/
theorem declare_eq_stored {scope scope' : Scope} {var : VarInfo}
    (h : scope.declare var = .stored scope') :
    ∃ curr, scope.slotOf var.name = some curr ∧
      scope'.keyAt = Function.update scope.keyAt curr (some var.name) ∧
      scope'.entries = Function.update scope.entries curr ⟨var, true⟩ := by
  unfold declare at h
  split at h
  · rename_i curr hslot
    split at h
    · cases h
    · obtain rfl := (Declared.stored.inj h).symm
      refine ⟨curr, hslot, ?_, rfl⟩
      funext s
      by_cases hs : s = curr
      · subst hs
        simp [keyAt]
      · simp [keyAt, Function.update_of_ne hs]
  · cases h

theorem Consistent.declare {scope scope' : Scope} {var : VarInfo} (h : scope.Consistent)
    (hdeclare : scope.declare var = .stored scope') : scope'.Consistent := by
  obtain ⟨curr, hslot, hkeys, -⟩ := declare_eq_stored hdeclare
  unfold Consistent
  rw [hkeys]
  exact h.store hslot

/-- A declared name stands for its variable, and the others for what they stood for. -/
theorem Consistent.find_declare {scope scope' : Scope} {var : VarInfo} (h : scope.Consistent)
    (hdeclare : scope.declare var = .stored scope') (name : StringView) :
    scope'.find name = if name = var.name then some var else scope.find name := by
  obtain ⟨curr, hslot, hkeys, hentries⟩ := declare_eq_stored hdeclare
  rw [find_eq_lookup, hkeys, hentries, Probe.Consistent.lookup_store h hslot]
  split
  · simp
  · rename_i hname
    rw [find_eq_lookup]
    cases hlookup : Probe.lookup probe scopeHashSize scope.keyAt name with
    | none => rfl
    | some s =>
      -- the entry of another name is not the one that was stored
      have hkey := (Probe.Consistent.lookup_eq_some_iff h).mp hlookup
      have hne : s ≠ curr := by
        rintro rfl
        rcases Probe.find_stops hslot with hfree | hsame
        · rw [hfree] at hkey
          cases hkey
        · rw [hsame] at hkey
          exact hname (Option.some.inj hkey).symm
      simp [Function.update_of_ne hne]

end Scope

/-! ## Lexical scoping -/

/-- The variables in scope, innermost first. -/
abbrev Vars := List VarInfo

/-- The variable a name stands for. -/
def Vars.find (vars : Vars) (name : StringView) : Option VarInfo :=
  vars.find? fun var => svEq var.name name

/-- The chain of tables holds the variables in scope. -/
structure Models (chain : List Scope) (vars : Vars) : Prop where
  consistent : ∀ scope ∈ chain, scope.Consistent
  lookup : ∀ name, semanticScopeLookup chain name = vars.find name

theorem models_nil : Models [] [] := ⟨by simp, fun _ => rfl⟩

/-- Opening a block changes nothing. -/
theorem Models.enter {chain : List Scope} {vars : Vars} (h : Models chain vars) :
    Models (.empty :: chain) vars := by
  constructor
  · intro scope hscope
    rcases List.mem_cons.mp hscope with rfl | hmem
    · exact Scope.consistent_empty
    · exact h.consistent scope hmem
  · intro name
    simp only [semanticScopeLookup, Scope.find_empty]
    exact h.lookup name

/-- A declaration puts its variable in front. -/
theorem Models.declare {scope scope' : Scope} {parents : List Scope} {vars : Vars}
    {var : VarInfo} (h : Models (scope :: parents) vars)
    (hdeclare : scope.declare var = .stored scope') :
    Models (scope' :: parents) (var :: vars) := by
  have hcons := h.consistent scope (by simp)
  constructor
  · intro other hother
    rcases List.mem_cons.mp hother with rfl | hmem
    · exact hcons.declare hdeclare
    · exact h.consistent other (List.mem_cons_of_mem _ hmem)
  · intro name
    simp only [semanticScopeLookup, hcons.find_declare hdeclare, Vars.find, List.find?_cons]
    by_cases hname : name = var.name
    · subst hname
      have hsame : svEq var.name var.name = true := by simp
      rw [if_pos rfl, hsame]
    · have hother : svEq var.name name = false := by
        rw [svEq, beq_eq_false_iff_ne]
        exact fun heq => hname heq.symm
      rw [if_neg hname, hother]
      exact h.lookup name

end TinyCompile.Semantic
