import TinyCompile.Ir.Instr
import TinyCompile.Machine.Probe

set_option autoImplicit false

/-!
# Ir: the symbol table of the code generator

`srcs/ir/ir_symboltable.c`: one open-addressing table for a whole function with
an undo log that restores it when a block ends.
-/

namespace TinyCompile.Ir

open TinyCompile.Source

/-- `SYMBOL_TABLE_SIZE`. -/
def symbolTableSize : Nat := 4096

/-- `hash_sv`; the bytes are of type `char`, which is signed. -/
def hashSv (sv : StringView) : BitVec 32 :=
  sv.foldl (fun hash b => (hash ^^^ b.toBitVec.signExtend 32) * 16777619) 2166136261

/-- `Symbol`. -/
structure Symbol where
  name : StringView := []
  index : Nat := 0
  isStack : Bool := false
  occupied : Bool := false
  deriving DecidableEq, Repr

/-- `ScopeChange`; the link is the log. -/
structure ScopeChange where
  index : Nat
  previous : Symbol
  deriving DecidableEq, Repr

/-- `SymbolTable`; the newest change comes first. -/
structure SymbolTable where
  entries : Nat → Symbol
  changes : List ScopeChange

namespace SymbolTable

/-- `{ .arena = a, .changes = NULL }`. -/
def init : SymbolTable := ⟨fun _ => {}, []⟩

/-- The name an occupied entry holds. -/
def keyAt (st : SymbolTable) (s : Nat) : Option StringView :=
  if (st.entries s).occupied then some (st.entries s).name else none

/-- The entry probe number `i` looks at. -/
def probe (name : StringView) (i : Nat) : Nat :=
  (((hashSv name).toNat &&& (symbolTableSize - 1)) + i) &&& (symbolTableSize - 1)

/-- The entry at which the loops of lookup and add stop for a name. -/
def slotOf (st : SymbolTable) (name : StringView) : Option Nat :=
  Probe.find probe symbolTableSize st.keyAt name

end SymbolTable

/-- `symbol_table_lookup`; the result is the index of the entry. -/
def symbolTableLookup (st : SymbolTable) (name : StringView) : Option Nat :=
  match st.slotOf name with
  | some curr => if (st.entries curr).occupied then some curr else none
  | none => none

/-- `symbol_table_add`; `none` is the `exit(1)` on overflow. -/
def symbolTableAdd (st : SymbolTable) (name : StringView) (vreg : Nat) : Option SymbolTable :=
  match st.slotOf name with
  | some curr =>
      some ⟨Function.update st.entries curr ⟨name, vreg, false, true⟩,
        ⟨curr, st.entries curr⟩ :: st.changes⟩
  | none => none

/-- `sym->is_stack = true` for an entry. -/
def setIsStack (st : SymbolTable) (curr : Nat) : SymbolTable :=
  { st with entries :=
      Function.update st.entries curr { st.entries curr with isStack := true } }

/-- Undo the newest `n` changes. -/
def undoChanges (entries : Nat → Symbol) : List ScopeChange → Nat → SymbolTable
  | top :: rest, n + 1 =>
      undoChanges (Function.update entries top.index top.previous) rest n
  | changes, _ => ⟨entries, changes⟩

/-- `symbol_table_restore`; a pointer into the log is the number of changes from
there on. -/
def symbolTableRestore (st : SymbolTable) (target : Nat) : SymbolTable :=
  undoChanges st.entries st.changes (st.changes.length - target)

/-! ## What a table binds -/

namespace SymbolTable

/-- What a name stands for: a virtual register or a stack slot. -/
structure Binding where
  index : Nat
  isStack : Bool
  deriving DecidableEq, Repr

/-- The binding of an entry. -/
def bindingAt (st : SymbolTable) (s : Nat) : Binding :=
  ⟨(st.entries s).index, (st.entries s).isStack⟩

/-- The binding of a name. -/
def bindingOf (st : SymbolTable) (name : StringView) : Option Binding :=
  (symbolTableLookup st name).map st.bindingAt

/-- Every occupied entry is found by a lookup of its name. -/
def Consistent (st : SymbolTable) : Prop :=
  Probe.Consistent probe symbolTableSize st.keyAt

theorem consistent_init : init.Consistent := Probe.consistent_empty

theorem keyAt_eq_some_iff {st : SymbolTable} {s : Nat} {name : StringView} :
    st.keyAt s = some name ↔ (st.entries s).occupied = true ∧ (st.entries s).name = name := by
  unfold keyAt
  split <;> simp_all

/-- Under the invariant a lookup finds the entry of a name if there is one. -/
theorem Consistent.lookup_iff {st : SymbolTable} (h : st.Consistent) {name : StringView}
    {s : Nat} : symbolTableLookup st name = some s ↔ st.keyAt s = some name := by
  constructor
  · intro hlookup
    unfold symbolTableLookup at hlookup
    split at hlookup
    · rename_i curr hslot
      split at hlookup
      · rename_i hocc
        obtain rfl : curr = s := by simpa using hlookup
        rcases Probe.find_stops hslot with hfree | hkey
        · simp [keyAt, hocc] at hfree
        · exact hkey
      · exact absurd hlookup (by simp)
    · exact absurd hlookup (by simp)
  · intro hkey
    have hfind : st.slotOf name = some s := h s name hkey
    simp only [symbolTableLookup, hfind, (keyAt_eq_some_iff.mp hkey).1, if_true]

/-- The table that binds `name` to `b`: an add, followed for a local by the
assignment to `is_stack`. -/
def bind (st : SymbolTable) (name : StringView) (b : Binding) : Option SymbolTable :=
  (symbolTableAdd st name b.index).map fun st' =>
    if b.isStack then
      match symbolTableLookup st' name with
      | some curr => setIsStack st' curr
      | none => st'
    else st'

/-- What an entry that a store replaced looks like. -/
theorem keyAt_store (st : SymbolTable) (changes : List ScopeChange) (curr : Nat) (sym : Symbol)
    (hocc : sym.occupied = true) :
    keyAt ⟨Function.update st.entries curr sym, changes⟩ =
      Function.update st.keyAt curr (some sym.name) := by
  funext s
  by_cases hs : s = curr
  · subst hs
    simp [keyAt, hocc]
  · simp [keyAt, Function.update_of_ne hs]

/-- A bind stores one entry and logs the one it replaced. -/
theorem bind_eq_some {st st' : SymbolTable} {name : StringView} {b : Binding}
    (h : st.Consistent) (hbind : st.bind name b = some st') :
    ∃ curr, st.slotOf name = some curr ∧
      st' = ⟨Function.update st.entries curr ⟨name, b.index, b.isStack, true⟩,
        ⟨curr, st.entries curr⟩ :: st.changes⟩ := by
  obtain ⟨st₁, hadd, hst'⟩ := Option.map_eq_some_iff.mp hbind
  unfold symbolTableAdd at hadd
  split at hadd
  · rename_i curr hslot
    refine ⟨curr, hslot, ?_⟩
    obtain rfl := (Option.some.inj hadd).symm
    rw [← hst']
    split
    · rename_i hstack
      have hcons : Consistent ⟨Function.update st.entries curr ⟨name, b.index, false, true⟩,
          ⟨curr, st.entries curr⟩ :: st.changes⟩ := by
        unfold Consistent
        rw [keyAt_store _ _ _ _ rfl]
        exact h.store hslot
      have hlookup := hcons.lookup_iff.mpr (by
        rw [keyAt_store _ _ _ _ rfl]
        exact Function.update_self ..)
      rw [hlookup]
      simp [setIsStack, hstack]
    · rename_i hstack
      simp [hstack]
  · exact absurd hadd (by simp)

theorem Consistent.bind {st st' : SymbolTable} {name : StringView} {b : Binding}
    (h : st.Consistent) (hbind : st.bind name b = some st') : st'.Consistent := by
  obtain ⟨curr, hslot, rfl⟩ := bind_eq_some h hbind
  unfold Consistent
  rw [keyAt_store _ _ _ _ rfl]
  exact h.store hslot

/-- A bound name has its binding, and the others keep theirs. -/
theorem bindingOf_bind {st st' : SymbolTable} {name : StringView} {b : Binding}
    (h : st.Consistent) (hbind : st.bind name b = some st') (other : StringView) :
    st'.bindingOf other = if other = name then some b else st.bindingOf other := by
  have h' := h.bind hbind
  obtain ⟨curr, hslot, rfl⟩ := bind_eq_some h hbind
  set st' : SymbolTable := ⟨Function.update st.entries curr ⟨name, b.index, b.isStack, true⟩,
    ⟨curr, st.entries curr⟩ :: st.changes⟩ with hst'
  have hkeys : st'.keyAt = Function.update st.keyAt curr (some name) :=
    keyAt_store _ _ _ _ rfl
  split
  · rename_i hname
    subst hname
    have hlookup : symbolTableLookup st' other = some curr := by
      rw [h'.lookup_iff, hkeys, Function.update_self]
    have hb : st'.bindingAt curr = b := by simp [bindingAt, hst']
    rw [bindingOf, hlookup, Option.map_some, hb]
  · rename_i hname
    have hsame : ∀ s, symbolTableLookup st' other = some s ↔
        symbolTableLookup st other = some s ∧ s ≠ curr := by
      intro s
      rw [h'.lookup_iff, h.lookup_iff, hkeys]
      by_cases hs : s = curr
      · subst hs
        simpa using fun heq => hname heq.symm
      · simp [hs]
    have hcurr : symbolTableLookup st other ≠ some curr := by
      rw [Ne, h.lookup_iff]
      intro hkey
      rcases Probe.find_stops hslot with hfree | hold
      · simp [hkey] at hfree
      · exact hname (Option.some.inj (hkey.symm.trans hold))
    have hlookup : symbolTableLookup st' other = symbolTableLookup st other := by
      apply Option.ext
      intro s
      rw [hsame]
      constructor
      · exact fun hs => hs.1
      · intro hs
        refine ⟨hs, ?_⟩
        rintro rfl
        exact hcurr hs
    unfold bindingOf
    rw [hlookup]
    cases hres : symbolTableLookup st other with
    | none => rfl
    | some s =>
      have hne : s ≠ curr := by
        rintro rfl
        exact hcurr hres
      simp [bindingAt, hst', Function.update_of_ne hne]

/-! ## The undo log -/

/-- `st` came from `st₀` by logged changes: undoing them gives `st₀` back. -/
def Since (st₀ st : SymbolTable) : Prop :=
  ∃ newer, st.changes = newer ++ st₀.changes ∧
    undoChanges st.entries st.changes newer.length = st₀

theorem Since.refl (st : SymbolTable) : st.Since st := by
  refine ⟨[], rfl, ?_⟩
  cases st with
  | mk entries changes => cases changes <;> rfl

/-- A logged store can be undone. -/
theorem Since.store {st₀ st : SymbolTable} (h : st₀.Since st) (curr : Nat) (sym : Symbol) :
    st₀.Since ⟨Function.update st.entries curr sym, ⟨curr, st.entries curr⟩ :: st.changes⟩ := by
  obtain ⟨newer, hchanges, hundo⟩ := h
  refine ⟨⟨curr, st.entries curr⟩ :: newer, by simp [hchanges], ?_⟩
  simp only [List.length_cons, undoChanges, Function.update_idem, Function.update_eq_self]
  exact hundo

theorem Since.bind {st₀ st st' : SymbolTable} {name : StringView} {b : Binding}
    (h : st₀.Since st) (hcons : st.Consistent) (hbind : st.bind name b = some st') :
    st₀.Since st' := by
  obtain ⟨curr, -, rfl⟩ := bind_eq_some hcons hbind
  exact h.store curr _

/-- Restoring to the mark of an earlier table gives that table. -/
theorem Since.restore {st₀ st : SymbolTable} (h : st₀.Since st) :
    symbolTableRestore st st₀.changes.length = st₀ := by
  obtain ⟨newer, hchanges, hundo⟩ := h
  have hcount : st.changes.length - st₀.changes.length = newer.length := by
    rw [hchanges, List.length_append]
    omega
  rw [symbolTableRestore, hcount, hundo]

end SymbolTable

end TinyCompile.Ir
