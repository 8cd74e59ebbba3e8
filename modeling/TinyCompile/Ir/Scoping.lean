import TinyCompile.Ir.SymbolTable

set_option autoImplicit false

/-!
# Ir: the symbol table is a stack of bindings

Nested scopes are a list of bindings, newest first, that a block cuts back to what it was
when the block ends.  The one open-addressing table with its undo log behaves like that
list in every run, as long as the names fit.
-/

namespace TinyCompile.Ir.SymbolTable

open TinyCompile.Source

/-! ## One table -/

theorem covers : Probe.Covers probe symbolTableSize :=
  Probe.covers_linear (fun name => (hashSv name).toNat) 12

/-- Bindings that are not undone, newest first. -/
abbrev Bindings := List (StringView × Binding)

/-- The names that are bound. -/
def liveNames (bs : Bindings) : Finset StringView := (bs.map (·.1)).toFinset

/-- A table binds each name as the list does. -/
structure Holds (st : SymbolTable) (bs : Bindings) : Prop where
  consistent : st.Consistent
  binding : ∀ name, st.bindingOf name = bs.lookup name

theorem holds_init : init.Holds [] := ⟨consistent_init, fun _ => rfl⟩

theorem lookup_eq_none {bs : Bindings} {name : StringView} :
    bs.lookup name = none ↔ name ∉ liveNames bs := by
  simp only [liveNames, List.mem_toFinset, List.lookup_eq_none_iff, List.mem_map, Prod.exists,
    not_exists, not_and]
  grind

/-- The names in a table are those that are bound. -/
theorem Holds.names {st : SymbolTable} {bs : Bindings} (h : st.Holds bs) (name : StringView) :
    name ∈ liveNames bs ↔ ∃ s, st.keyAt s = some name := by
  have hnone : st.bindingOf name = none ↔ ¬ ∃ s, st.keyAt s = some name := by
    rw [bindingOf, Option.map_eq_none_iff, Option.eq_none_iff_forall_ne_some]
    simp only [ne_eq, h.consistent.lookup_iff, not_exists]
  rw [h.binding, lookup_eq_none] at hnone
  exact not_iff_not.mp hnone

/-- While there is room a name can be bound. -/
theorem Holds.bind {st : SymbolTable} {bs : Bindings} (h : st.Holds bs) (name : StringView)
    (b : Binding) (hroom : (liveNames bs).card < symbolTableSize) :
    ∃ st', st.bind name b = some st' ∧ st'.Holds ((name, b) :: bs) := by
  obtain ⟨curr, hslot⟩ : ∃ curr, st.slotOf name = some curr := by
    apply Option.ne_none_iff_exists'.mp
    intro hfail
    have hfull := (h.consistent.find_eq_none covers h.names name).mp hfail
    exact absurd hfull.2 (Nat.not_le.mpr hroom)
  obtain ⟨st', hbind⟩ : ∃ st', st.bind name b = some st' := by
    unfold SymbolTable.bind symbolTableAdd
    rw [hslot]
    exact ⟨_, rfl⟩
  refine ⟨st', hbind, h.consistent.bind hbind, fun other => ?_⟩
  rw [bindingOf_bind h.consistent hbind, h.binding, List.lookup_cons]
  by_cases hname : other = name
  · simp [hname]
  · have hother : (other == name) = false := by simpa using hname
    rw [if_neg hname, hother]

/-! ## Runs -/

/-- The operations on the table that change it. -/
inductive TableOp where
  /-- `symbol_table_add`, with `is_stack` set for a local. -/
  | bind (name : StringView) (b : Binding)
  /-- Take `changes` as the watermark of a block. -/
  | mark
  /-- `symbol_table_restore` to the newest watermark. -/
  | restore

/-- An operation on the table and the watermarks; `none` is the `exit(1)` on overflow. -/
def TableOp.run : TableOp → SymbolTable × List Nat → Option (SymbolTable × List Nat)
  | .bind name b, (st, marks) => (st.bind name b).map (·, marks)
  | .mark, (st, marks) => some (st, st.changes.length :: marks)
  | .restore, (st, []) => some (st, [])
  | .restore, (st, watermark :: marks) => some (symbolTableRestore st watermark, marks)

/-- Operations one after the other. -/
def runTableOps : List TableOp → SymbolTable × List Nat → Option (SymbolTable × List Nat)
  | [], state => some state
  | op :: ops, state => (op.run state).bind (runTableOps ops)

/-- What an operation does to the bindings and to those at the watermarks. -/
def TableOp.apply : TableOp → Bindings × List Bindings → Bindings × List Bindings
  | .bind name b, (bs, saved) => ((name, b) :: bs, saved)
  | .mark, (bs, saved) => (bs, bs :: saved)
  | .restore, (bs, []) => (bs, [])
  | .restore, (_, bs :: saved) => (bs, saved)

/-- The bindings after some operations. -/
def bindingsAfter (ops : List TableOp) (start : Bindings × List Bindings) :
    Bindings × List Bindings :=
  ops.foldl (fun state op => op.apply state) start

/-- A table and its watermarks follow the bindings: undoing the changes since a watermark
gives the table that was there. -/
inductive Tracks : SymbolTable × List Nat → Bindings × List Bindings → Prop
  | bottom {st : SymbolTable} {bs : Bindings} (h : st.Holds bs) : Tracks (st, []) (bs, [])
  | block {st st₀ : SymbolTable} {bs bs₀ : Bindings} {marks : List Nat} {saved : List Bindings}
      (h : st.Holds bs) (hsince : st₀.Since st) (outer : Tracks (st₀, marks) (bs₀, saved)) :
      Tracks (st, st₀.changes.length :: marks) (bs, bs₀ :: saved)

theorem Tracks.holds {st : SymbolTable} {marks : List Nat} {bs : Bindings}
    {saved : List Bindings} (h : Tracks (st, marks) (bs, saved)) : st.Holds bs := by
  cases h with
  | bottom h => exact h
  | block h _ _ => exact h

theorem Tracks.step {st : SymbolTable} {marks : List Nat} {bs : Bindings}
    {saved : List Bindings} (h : Tracks (st, marks) (bs, saved))
    (hroom : (liveNames bs).card < symbolTableSize) (op : TableOp) :
    ∃ state, op.run (st, marks) = some state ∧ Tracks state (op.apply (bs, saved)) := by
  cases op with
  | bind name b =>
    obtain ⟨st', hbind, hholds⟩ := h.holds.bind name b hroom
    refine ⟨(st', marks), by simp [TableOp.run, hbind], ?_⟩
    cases h with
    | bottom _ => exact .bottom hholds
    | block hst hsince outer => exact .block hholds (hsince.bind hst.consistent hbind) outer
  | mark => exact ⟨_, rfl, .block h.holds (.refl st) h⟩
  | restore =>
    cases h with
    | bottom hst => exact ⟨_, rfl, .bottom hst⟩
    | block hst hsince outer =>
      refine ⟨_, rfl, ?_⟩
      rw [hsince.restore]
      exact outer

theorem Tracks.steps {state : SymbolTable × List Nat} {bindings : Bindings × List Bindings}
    (h : Tracks state bindings) (ops : List TableOp)
    (hroom : ∀ pre post, ops = pre ++ post →
      (liveNames (bindingsAfter pre bindings).1).card < symbolTableSize) :
    ∃ state', runTableOps ops state = some state' ∧ Tracks state' (bindingsAfter ops bindings) := by
  induction ops generalizing state bindings with
  | nil => exact ⟨state, rfl, h⟩
  | cons op ops ih =>
    obtain ⟨state₁, hrun, hstep⟩ := h.step (hroom [] (op :: ops) rfl) op
    obtain ⟨state', hruns, hsteps⟩ := ih hstep fun pre post hsplit =>
      hroom (op :: pre) post (by rw [hsplit]; rfl)
    exact ⟨state', by rw [runTableOps, hrun]; exact hruns, hsteps⟩

/-- In every run in which fewer names than the table has entries are bound at any time, a
lookup finds the newest binding of a name that is not undone. -/
theorem table_scoped (ops : List TableOp)
    (hroom : ∀ pre post, ops = pre ++ post →
      (liveNames (bindingsAfter pre ([], [])).1).card < symbolTableSize) :
    ∃ st marks, runTableOps ops (init, []) = some (st, marks) ∧
      ∀ name, (symbolTableLookup st name).map st.bindingAt =
        (bindingsAfter ops ([], [])).1.lookup name := by
  obtain ⟨⟨st, marks⟩, hrun, htracks⟩ := (Tracks.bottom holds_init).steps ops hroom
  exact ⟨st, marks, hrun, htracks.holds.binding⟩

/-- `x` shadowed in a block. -/
def shadowing : List TableOp :=
  [.bind (svOf "x") ⟨1, false⟩, .mark, .bind (svOf "x") ⟨0, true⟩, .restore]

theorem table_scoped_shadowing :
    ∃ st marks, runTableOps shadowing (init, []) = some (st, marks) ∧
      ∀ name, (symbolTableLookup st name).map st.bindingAt =
        (bindingsAfter shadowing ([], [])).1.lookup name := by
  refine table_scoped shadowing fun pre post hsplit => ?_
  have hpre : pre = shadowing.take pre.length := by
    rw [hsplit]
    simp
  have hlength : pre.length ≤ shadowing.length := by
    rw [hsplit]
    simp
  have hfour : shadowing.length = 4 := rfl
  generalize pre.length = n at hpre hlength
  subst hpre
  have hn : n = 0 ∨ n = 1 ∨ n = 2 ∨ n = 3 ∨ n = 4 := by omega
  rcases hn with rfl | rfl | rfl | rfl | rfl <;> decide

end TinyCompile.Ir.SymbolTable
