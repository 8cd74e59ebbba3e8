import TinyCompile.Semantic.Global

set_option autoImplicit false

/-!
# Semantic: what a sequence of declarations leaves in the global scope

Whether all declarations are accepted depends on their signatures only, and on these as a
multiset: `Acceptable`.  `TableOf` is the invariant that relates the table to the
declarations so far.
-/

namespace TinyCompile.Semantic

open TinyCompile.Source

/-! ## Signatures -/

/-- What the checks of a declaration look at. -/
structure Signature where
  name : StringView
  returnType : DataType
  paramCount : Nat
  isPrototype : Bool
  deriving DecidableEq, Repr

/-- The signature of a function. -/
def FunctionInfo.signature (f : FunctionInfo) : Signature :=
  ⟨f.name, f.returnType, f.params.length, f.isPrototype⟩

/-- The calls of `semantic_global_declare_function` one after the other: the table, and
whether all of them succeed. -/
def declareAll : List FunctionInfo → GlobalScope → GlobalScope × Bool
  | [], global => (global, true)
  | f :: rest, global =>
      match declareFunction global f with
      | .ok global => declareAll rest global
      | .error _ => ((declareAll rest global).1, false)

/-- The names of some signatures. -/
def namesOf (sigs : List Signature) : List StringView := sigs.map (·.name)

/-- The names that are defined, once for each definition. -/
def definedNames (sigs : List Signature) : List StringView :=
  (sigs.filter fun s => !s.isPrototype).map (·.name)

/-- The declarations a global scope accepts, in whatever order. -/
structure Acceptable (sigs : List Signature) : Prop where
  params : ∀ s ∈ sigs, s.paramCount ≤ maxParamsPerFunction
  agree : ∀ s ∈ sigs, ∀ s' ∈ sigs, s.name = s'.name →
    s.returnType = s'.returnType ∧ s.paramCount = s'.paramCount
  once : (definedNames sigs).Nodup
  room : (namesOf sigs).toFinset.card ≤ maxFunctionCount

theorem acceptable_nil : Acceptable [] where
  params := nofun
  agree := nofun
  once := List.nodup_nil
  room := Nat.zero_le _

/-- The order of declarations does not matter. -/
theorem Acceptable.perm {sigs sigs' : List Signature} (h : Acceptable sigs)
    (hperm : sigs.Perm sigs') : Acceptable sigs' where
  params := fun s hs => h.params s (hperm.mem_iff.mpr hs)
  agree := fun s hs s' hs' => h.agree s (hperm.mem_iff.mpr hs) s' (hperm.mem_iff.mpr hs')
  once := ((hperm.filter _).map _).nodup_iff.mp h.once
  room := by
    have hnames : (namesOf sigs).toFinset = (namesOf sigs').toFinset :=
      List.toFinset_eq_of_perm _ _ (hperm.map _)
    rw [← hnames]
    exact h.room

/-- What is accepted is accepted up to every point. -/
theorem Acceptable.left {sigs sigs' : List Signature} (h : Acceptable (sigs ++ sigs')) :
    Acceptable sigs where
  params := fun s hs => h.params s (List.mem_append_left _ hs)
  agree := fun s hs s' hs' =>
    h.agree s (List.mem_append_left _ hs) s' (List.mem_append_left _ hs')
  once := by
    have honce := h.once
    unfold definedNames at honce ⊢
    rw [List.filter_append, List.map_append] at honce
    exact (List.nodup_append.mp honce).1
  room := by
    refine Nat.le_trans (Finset.card_le_card ?_) h.room
    intro name hname
    rw [List.mem_toFinset, namesOf] at hname ⊢
    rw [List.map_append]
    exact List.mem_append_left _ hname

/-! ## The table of some declarations -/

/-- The table after some declarations. -/
structure TableOf (declared : List FunctionInfo) (fs : List FunctionInfo) : Prop where
  /-- Each name is there once. -/
  nodup : (fs.map (·.name)).Nodup
  /-- The names are those that are declared. -/
  names : ∀ name, name ∈ fs.map (·.name) ↔ name ∈ declared.map (·.name)
  /-- An entry repeats one of the declarations of its name. -/
  repeats : ∀ f ∈ fs, ∃ d ∈ declared, d.name = f.name ∧ d.returnType = f.returnType ∧
    d.params = f.params ∧ d.isPrototype = f.isPrototype
  /-- An entry is a prototype only while there is no definition. -/
  prototype : ∀ f ∈ fs, f.isPrototype = true → ∀ d ∈ declared, d.name = f.name →
    d.isPrototype = true

theorem tableOf_nil : TableOf [] [] where
  nodup := List.nodup_nil
  names := fun _ => Iff.rfl
  repeats := nofun
  prototype := nofun

/-- The number of entries is the number of names. -/
theorem TableOf.length {declared fs : List FunctionInfo} (h : TableOf declared fs) :
    fs.length = (namesOf (declared.map (·.signature))).toFinset.card := by
  have hsame : (fs.map (·.name)).toFinset =
      (namesOf (declared.map (·.signature))).toFinset := by
    ext name
    rw [List.mem_toFinset, List.mem_toFinset, h.names, namesOf, List.map_map]
    rfl
  rw [← hsame, List.toFinset_card_of_nodup h.nodup, List.length_map]

/-- `semantic_global_lookup_function` finds the entry of a name that is declared. -/
theorem TableOf.lookup {declared fs : List FunctionInfo} (h : TableOf declared fs)
    {name : StringView} (hname : name ∈ declared.map (·.name)) :
    ∃ f ∈ fs, f.name = name ∧ semanticGlobalLookupFunction ⟨fs⟩ name = some f := by
  have hmem := (h.names name).mpr hname
  obtain ⟨f, hf, rfl⟩ := List.mem_map.mp hmem
  obtain ⟨g, hg⟩ : ∃ g, semanticGlobalLookupFunction ⟨fs⟩ f.name = some g := by
    apply Option.isSome_iff_exists.mp
    rw [semanticGlobalLookupFunction, List.find?_isSome]
    exact ⟨f, hf, by simp⟩
  have hgname : g.name = f.name := by
    have := List.find?_some hg
    simpa using this
  exact ⟨g, List.mem_of_find?_eq_some hg, hgname, hg⟩

/-- A lookup that finds nothing says that nothing of the name is declared. -/
theorem TableOf.lookup_none {declared fs : List FunctionInfo} (h : TableOf declared fs)
    {name : StringView} (hlookup : semanticGlobalLookupFunction ⟨fs⟩ name = none) :
    name ∉ declared.map (·.name) := by
  intro hname
  obtain ⟨f, -, -, hfound⟩ := h.lookup hname
  rw [hlookup] at hfound
  cases hfound

/-! ## One declaration -/

section

variable {declared fs : List FunctionInfo} {f e : FunctionInfo}

theorem define_names (f : FunctionInfo) (fs : List FunctionInfo) :
    (define f fs).map (·.name) = fs.map (·.name) := by
  induction fs with
  | nil => rfl
  | cons g fs ih =>
    unfold define
    split
    · rfl
    · rw [List.map_cons, List.map_cons, ih]

/-- The entry of a name that gets its definition. -/
def definedBy (f e : FunctionInfo) : FunctionInfo :=
  { e with isPrototype := false, line := f.line, filename := f.filename, params := f.params }

theorem mem_define {g : FunctionInfo} (hnodup : (fs.map (·.name)).Nodup)
    (h : g ∈ define f fs) :
    (g ∈ fs ∧ g.name ≠ f.name) ∨ ∃ e ∈ fs, e.name = f.name ∧ g = definedBy f e := by
  induction fs with
  | nil => cases h
  | cons e fs ih =>
    obtain ⟨hnot, hnodup⟩ := List.nodup_cons.mp hnodup
    unfold define at h
    split at h
    · rename_i hname
      have hname : e.name = f.name := by simpa using hname
      rcases List.mem_cons.mp h with rfl | hmem
      · exact .inr ⟨e, by simp, hname, rfl⟩
      · -- the names behind the entry are others
        refine .inl ⟨List.mem_cons_of_mem _ hmem, fun heq => hnot ?_⟩
        show e.name ∈ _
        rw [hname, ← heq]
        exact List.mem_map_of_mem hmem
    · rename_i hname
      rcases List.mem_cons.mp h with rfl | hmem
      · exact .inl ⟨by simp, by simpa using hname⟩
      · rcases ih hnodup hmem with ⟨hg, hne⟩ | ⟨e', he', hrest⟩
        · exact .inl ⟨List.mem_cons_of_mem _ hg, hne⟩
        · exact .inr ⟨e', List.mem_cons_of_mem _ he', hrest⟩

theorem names_snoc (declared : List FunctionInfo) (f : FunctionInfo) (name : StringView) :
    name ∈ (declared ++ [f]).map (·.name) ↔ name ∈ declared.map (·.name) ∨ name = f.name := by
  simp

theorem TableOf.names_known (h : TableOf declared fs) (he : e ∈ fs) (hname : e.name = f.name)
    (name : StringView) : name ∈ fs.map (·.name) ↔ name ∈ (declared ++ [f]).map (·.name) := by
  rw [names_snoc, h.names]
  constructor
  · exact .inl
  · rintro (hmem | rfl)
    · exact hmem
    · rw [← h.names, ← hname]
      exact List.mem_map_of_mem he

/-- A declaration of a known name that the table keeps as it is. -/
theorem TableOf.keep (h : TableOf declared fs) (he : e ∈ fs) (hname : e.name = f.name)
    (hproto : e.isPrototype = true → f.isPrototype = true) :
    TableOf (declared ++ [f]) fs where
  nodup := h.nodup
  names := h.names_known he hname
  repeats := by
    intro g hg
    obtain ⟨d, hd, hrest⟩ := h.repeats g hg
    exact ⟨d, List.mem_append_left _ hd, hrest⟩
  prototype := by
    intro g hg hgproto d hd hdname
    rcases List.mem_append.mp hd with hd | hd
    · exact h.prototype g hg hgproto d hd hdname
    · obtain rfl := List.mem_singleton.mp hd
      have hge : g = e := List.inj_on_of_nodup_map h.nodup hg he (hdname.symm.trans hname.symm)
      subst hge
      exact hproto hgproto

/-- A definition of a name that has a prototype. -/
theorem TableOf.define (h : TableOf declared fs) (he : e ∈ fs) (hname : e.name = f.name)
    (htype : e.returnType = f.returnType) (hdef : f.isPrototype = false) :
    TableOf (declared ++ [f]) (define f fs) where
  nodup := by
    rw [define_names]
    exact h.nodup
  names := by
    intro name
    rw [define_names]
    exact h.names_known he hname name
  repeats := by
    intro g hg
    rcases mem_define h.nodup hg with ⟨hg, -⟩ | ⟨e', he', hname', rfl⟩
    · obtain ⟨d, hd, hrest⟩ := h.repeats g hg
      exact ⟨d, List.mem_append_left _ hd, hrest⟩
    · have hee : e' = e := List.inj_on_of_nodup_map h.nodup he' he (hname'.trans hname.symm)
      subst hee
      exact ⟨f, by simp, hname'.symm, htype.symm, rfl, hdef⟩
  prototype := by
    intro g hg hgproto d hd hdname
    rcases mem_define h.nodup hg with ⟨hg, hne⟩ | ⟨e', -, -, rfl⟩
    · rcases List.mem_append.mp hd with hd | hd
      · exact h.prototype g hg hgproto d hd hdname
      · obtain rfl := List.mem_singleton.mp hd
        exact absurd hdname.symm hne
    · cases hgproto

/-- The first declaration of a name. -/
theorem TableOf.append (h : TableOf declared fs) (hnew : f.name ∉ declared.map (·.name)) :
    TableOf (declared ++ [f]) (fs ++ [f]) where
  nodup := by
    rw [List.map_append, List.map_singleton, List.nodup_append]
    refine ⟨h.nodup, List.nodup_singleton _, ?_⟩
    intro name hname name' hname' heq
    rw [List.mem_singleton.mp hname'] at heq
    subst heq
    exact hnew ((h.names _).mp hname)
  names := by
    intro name
    rw [names_snoc, names_snoc, h.names]
  repeats := by
    intro g hg
    rcases List.mem_append.mp hg with hg | hg
    · obtain ⟨d, hd, hrest⟩ := h.repeats g hg
      exact ⟨d, List.mem_append_left _ hd, hrest⟩
    · obtain rfl := List.mem_singleton.mp hg
      exact ⟨g, by simp, rfl, rfl, rfl, rfl⟩
  prototype := by
    intro g hg hgproto d hd hdname
    rcases List.mem_append.mp hg with hg' | hg' <;> rcases List.mem_append.mp hd with hd' | hd'
    · exact h.prototype g hg' hgproto d hd' hdname
    · obtain rfl := List.mem_singleton.mp hd'
      refine absurd ?_ hnew
      rw [hdname, ← h.names]
      exact List.mem_map_of_mem hg'
    · obtain rfl := List.mem_singleton.mp hg'
      refine absurd ?_ hnew
      rw [← hdname]
      exact List.mem_map_of_mem hd'
    · rw [List.mem_singleton.mp hd', ← List.mem_singleton.mp hg']
      exact hgproto

/-! ## Which declarations are accepted -/

variable {sigs : List Signature} {s d : Signature}

theorem definedNames_snoc (sigs : List Signature) (s : Signature) :
    definedNames (sigs ++ [s]) =
      definedNames sigs ++ if s.isPrototype then [] else [s.name] := by
  unfold definedNames
  rw [List.filter_append, List.map_append]
  cases hproto : s.isPrototype <;> simp [hproto]

theorem mem_definedNames {name : StringView} :
    name ∈ definedNames sigs ↔ ∃ d ∈ sigs, d.isPrototype = false ∧ d.name = name := by
  simp [definedNames, and_assoc]

theorem namesOf_snoc (sigs : List Signature) (s : Signature) :
    (namesOf (sigs ++ [s])).toFinset = insert s.name (namesOf sigs).toFinset := by
  ext name
  simp [namesOf]

theorem agree_snoc (h : Acceptable sigs)
    (hs : ∀ d ∈ sigs, d.name = s.name →
      d.returnType = s.returnType ∧ d.paramCount = s.paramCount) :
    ∀ d ∈ sigs ++ [s], ∀ d' ∈ sigs ++ [s], d.name = d'.name →
      d.returnType = d'.returnType ∧ d.paramCount = d'.paramCount := by
  intro d hd d' hd' hname
  rcases List.mem_append.mp hd with hold | hnew <;>
    rcases List.mem_append.mp hd' with hold' | hnew'
  · exact h.agree d hold d' hold' hname
  · obtain rfl := List.mem_singleton.mp hnew'
    exact hs d hold hname
  · obtain rfl := List.mem_singleton.mp hnew
    obtain ⟨htype, hcount⟩ := hs d' hold' hname.symm
    exact ⟨htype.symm, hcount.symm⟩
  · rw [List.mem_singleton.mp hnew, List.mem_singleton.mp hnew']
    exact ⟨rfl, rfl⟩

/-- One more declaration of a name that is declared. -/
theorem Acceptable.known (h : Acceptable sigs) (hd : d ∈ sigs) (hname : d.name = s.name)
    (htype : d.returnType = s.returnType) (hcount : d.paramCount = s.paramCount)
    (honce : s.isPrototype = false → s.name ∉ definedNames sigs) : Acceptable (sigs ++ [s]) where
  params := by
    intro s' hs'
    rcases List.mem_append.mp hs' with hs' | hs'
    · exact h.params s' hs'
    · rw [List.mem_singleton.mp hs', ← hcount]
      exact h.params d hd
  agree := by
    refine agree_snoc h fun d' hd' hname' => ?_
    obtain ⟨htype', hcount'⟩ := h.agree d' hd' d hd (hname'.trans hname.symm)
    exact ⟨htype'.trans htype, hcount'.trans hcount⟩
  once := by
    rw [definedNames_snoc]
    cases hproto : s.isPrototype with
    | true => simpa using h.once
    | false =>
      rw [if_neg (by simp), List.nodup_append]
      refine ⟨h.once, List.nodup_singleton _, ?_⟩
      intro name hmem name' hmem' heq
      rw [List.mem_singleton.mp hmem'] at heq
      subst heq
      exact honce hproto hmem
  room := by
    have hmem : s.name ∈ (namesOf sigs).toFinset := by
      rw [List.mem_toFinset, ← hname]
      exact List.mem_map_of_mem hd
    rw [namesOf_snoc, Finset.insert_eq_of_mem hmem]
    exact h.room

/-- The first declaration of a name. -/
theorem Acceptable.fresh (h : Acceptable sigs) (hnew : s.name ∉ namesOf sigs)
    (hparams : s.paramCount ≤ maxParamsPerFunction)
    (hroom : (namesOf sigs).toFinset.card < maxFunctionCount) : Acceptable (sigs ++ [s]) where
  params := by
    intro s' hs'
    rcases List.mem_append.mp hs' with hs' | hs'
    · exact h.params s' hs'
    · rw [List.mem_singleton.mp hs']
      exact hparams
  agree := by
    refine agree_snoc h fun d hd hname => absurd ?_ hnew
    rw [← hname]
    exact List.mem_map_of_mem hd
  once := by
    rw [definedNames_snoc]
    split
    · simpa using h.once
    · rw [List.nodup_append]
      refine ⟨h.once, List.nodup_singleton _, ?_⟩
      intro name hmem name' hmem' heq
      rw [List.mem_singleton.mp hmem'] at heq
      subst heq
      obtain ⟨d, hd, -, hname⟩ := mem_definedNames.mp hmem
      refine hnew ?_
      rw [← hname]
      exact List.mem_map_of_mem hd
  room := by
    rw [namesOf_snoc]
    exact Nat.le_trans (Finset.card_insert_le _ _) hroom

/-- The signatures of some functions. -/
def signaturesOf (declared : List FunctionInfo) : List Signature := declared.map (·.signature)

theorem signaturesOf_snoc (declared : List FunctionInfo) (f : FunctionInfo) :
    signaturesOf (declared ++ [f]) = signaturesOf declared ++ [f.signature] := by
  simp [signaturesOf]

theorem mem_namesOf_signatures {name : StringView} :
    name ∈ namesOf (signaturesOf declared) ↔ name ∈ declared.map (·.name) := by
  rw [namesOf, signaturesOf, List.map_map]
  exact Iff.rfl

/-- A call of `semantic_global_declare_function` succeeds if and only if the declarations
so far and the new one are acceptable. -/
theorem TableOf.declareFunction (h : TableOf declared fs)
    (hok : Acceptable (signaturesOf declared)) (f : FunctionInfo) :
    match declareFunction ⟨fs⟩ f with
    | .ok global => Acceptable (signaturesOf (declared ++ [f])) ∧
        TableOf (declared ++ [f]) global.functions
    | .error _ => ¬ Acceptable (signaturesOf (declared ++ [f])) := by
  have hlast : f.signature ∈ signaturesOf (declared ++ [f]) := by simp [signaturesOf]
  unfold Semantic.declareFunction
  by_cases hparams : f.params.length > maxParamsPerFunction
  · simp only [hparams, if_true]
    intro hall
    have := hall.params _ hlast
    exact absurd this (Nat.not_le.mpr hparams)
  simp only [hparams, if_false]
  cases hlookup : semanticGlobalLookupFunction ⟨fs⟩ f.name with
  | none =>
    have hnew := h.lookup_none hlookup
    have hnames : f.signature.name ∉ namesOf (signaturesOf declared) := by
      rw [mem_namesOf_signatures]
      exact hnew
    have hlength : fs.length = (namesOf (signaturesOf declared)).toFinset.card := h.length
    by_cases hfull : fs.length ≥ maxFunctionCount
    · simp only [hfull, if_true]
      intro hall
      have hroom := hall.room
      rw [signaturesOf_snoc, namesOf_snoc, Finset.card_insert_of_notMem (by simpa using hnames),
        ← hlength] at hroom
      omega
    · simp only [hfull, if_false]
      refine ⟨?_, h.append hnew⟩
      rw [signaturesOf_snoc]
      exact hok.fresh hnames (Nat.not_lt.mp hparams) (by omega)
  | some e =>
    have he : e ∈ fs := List.mem_of_find?_eq_some hlookup
    have hname : e.name = f.name := by
      have := List.find?_some hlookup
      simpa using this
    obtain ⟨d, hd, hdname, hdtype, hdparams, hdproto⟩ := h.repeats e he
    have hdsig : d.signature ∈ signaturesOf declared := List.mem_map_of_mem hd
    have hdsig' : d.signature ∈ signaturesOf (declared ++ [f]) := by
      rw [signaturesOf_snoc]
      exact List.mem_append_left _ hdsig
    have hdname' : d.signature.name = f.signature.name := hdname.trans hname
    -- the new declaration agrees with the entry, or it is rejected
    by_cases htype : e.returnType = f.returnType
    swap
    · simp only [ne_eq, htype, not_false_eq_true, if_true]
      intro hall
      exact htype (hdtype.symm.trans (hall.agree _ hdsig' _ hlast hdname').1)
    by_cases hcount : e.params.length = f.params.length
    swap
    · simp only [ne_eq, htype, hcount, not_true_eq_false, not_false_eq_true, if_true, if_false]
      intro hall
      have hsame : d.params.length = f.params.length :=
        (hall.agree _ hdsig' _ hlast hdname').2
      rw [hdparams] at hsame
      exact hcount hsame
    have hdcount : d.signature.paramCount = f.signature.paramCount := by
      show d.params.length = f.params.length
      rw [hdparams, hcount]
    have hknown := hok.known hdsig hdname' (hdtype.trans htype) hdcount
    rw [← signaturesOf_snoc] at hknown
    simp only [ne_eq, htype, hcount, not_true_eq_false, if_false]
    cases hproto : e.isPrototype <;> cases hf : f.isPrototype <;>
      simp only [if_true, Bool.false_eq_true, if_false]
    · -- a second definition
      intro hall
      have honce := hall.once
      rw [signaturesOf_snoc, definedNames_snoc] at honce
      have hdef : f.signature.isPrototype = false := hf
      rw [hdef, if_neg (by simp), List.nodup_append] at honce
      have hmem : f.signature.name ∈ definedNames (signaturesOf declared) :=
        mem_definedNames.mpr ⟨d.signature, hdsig, hdproto.trans hproto, hdname'⟩
      exact honce.2.2 _ hmem _ (by simp) rfl
    · exact ⟨hknown fun hdef => absurd (hf.symm.trans hdef) (by simp),
        h.keep he hname fun _ => hf⟩
    · refine ⟨hknown fun _ hmem => ?_, h.define he hname htype hf⟩
      obtain ⟨d', hd', hd'proto, hd'name⟩ := mem_definedNames.mp hmem
      obtain ⟨g, hg, rfl⟩ := List.mem_map.mp hd'
      have hgproto := h.prototype e he hproto g hg (hd'name.trans hname.symm)
      exact absurd (hgproto.symm.trans hd'proto) (by simp)
    · exact ⟨hknown fun hdef => absurd (hf.symm.trans hdef) (by simp),
        h.keep he hname fun _ => hf⟩

/-! ## All declarations -/

/-- All calls succeed if and only if the declarations are acceptable, and then they leave
the table of the declarations. -/
theorem TableOf.declareAll (h : TableOf declared fs) (rest : List FunctionInfo)
    (hok : Acceptable (signaturesOf declared)) :
    ((declareAll rest ⟨fs⟩).2 = true ↔ Acceptable (signaturesOf (declared ++ rest))) ∧
      ((declareAll rest ⟨fs⟩).2 = true →
        TableOf (declared ++ rest) (declareAll rest ⟨fs⟩).1.functions) := by
  induction rest generalizing declared fs with
  | nil =>
    rw [List.append_nil]
    exact ⟨⟨fun _ => hok, fun _ => rfl⟩, fun _ => h⟩
  | cons f rest ih =>
    have hsplit : declared ++ f :: rest = (declared ++ [f]) ++ rest := by simp
    have hstep := h.declareFunction hok f
    unfold Semantic.declareAll
    cases hcall : Semantic.declareFunction ⟨fs⟩ f with
    | ok global =>
      rw [hcall] at hstep
      rw [hsplit]
      exact ih hstep.2 hstep.1
    | error message =>
      rw [hcall] at hstep
      refine ⟨⟨nofun, fun hall => absurd ?_ hstep⟩, nofun⟩
      rw [hsplit] at hall
      unfold signaturesOf at hall ⊢
      rw [List.map_append] at hall
      exact hall.left

/-- Tables of the same declarations, in whatever order, have the same entries. -/
theorem TableOf.signatures_perm {declared' fs' : List FunctionInfo} (h : TableOf declared fs)
    (h' : TableOf declared' fs') (hok : Acceptable (signaturesOf declared))
    (hperm : (signaturesOf declared).Perm (signaturesOf declared')) :
    (signaturesOf fs).Perm (signaturesOf fs') := by
  have hnodup : ∀ {ds gs : List FunctionInfo}, TableOf ds gs → (signaturesOf gs).Nodup := by
    intro ds gs hds
    have hnames := hds.nodup
    refine List.Nodup.of_map (·.name) ?_
    rw [signaturesOf, List.map_map]
    exact hnames
  have hsub : ∀ {ds gs ds' gs' : List FunctionInfo}, TableOf ds gs → TableOf ds' gs' →
      Acceptable (signaturesOf ds) → (signaturesOf ds).Perm (signaturesOf ds') →
      ∀ s ∈ signaturesOf gs, s ∈ signaturesOf gs' := by
    intro ds gs ds' gs' hds hds' hacc hp s hs
    obtain ⟨f, hf, rfl⟩ := List.mem_map.mp hs
    obtain ⟨d, hd, hdname, hdtype, hdparams, hdproto⟩ := hds.repeats f hf
    have hmem : d.signature ∈ signaturesOf ds := List.mem_map_of_mem hd
    -- the name is declared in the other order too, so it has an entry there
    obtain ⟨c, hc, hcd⟩ := List.mem_map.mp (hp.mem_iff.mp hmem)
    have hcname : c.name = f.name := (congrArg Signature.name hcd).trans hdname
    have hin : c.name ∈ gs'.map (·.name) := (hds'.names _).mpr (List.mem_map_of_mem hc)
    obtain ⟨f', hf', hfname⟩ := List.mem_map.mp hin
    obtain ⟨d', hd', hd'name, hd'type, hd'params, hd'proto⟩ := hds'.repeats f' hf'
    have hmem' : d'.signature ∈ signaturesOf ds := hp.mem_iff.mpr (List.mem_map_of_mem hd')
    have hname : d.name = d'.name := by
      rw [hdname, ← hcname, ← hfname, hd'name]
    obtain ⟨htype, hcount⟩ := hacc.agree _ hmem _ hmem' hname
    have hproto : f.isPrototype = f'.isPrototype := by
      cases hpf : f.isPrototype with
      | true =>
        obtain ⟨e, he, hed⟩ := List.mem_map.mp hmem'
        have hename : e.name = f.name :=
          (congrArg Signature.name hed).trans (hname.symm.trans hdname)
        have heproto := hds.prototype f hf hpf e he hename
        have hd'true : d'.isPrototype = true :=
          (congrArg Signature.isPrototype hed).symm.trans heproto
        rw [← hd'proto, hd'true]
      | false =>
        cases hpf' : f'.isPrototype with
        | false => rfl
        | true =>
          have hcproto := hds'.prototype f' hf' hpf' c hc hfname.symm
          have hdtrue : d.isPrototype = true :=
            (congrArg Signature.isPrototype hcd).symm.trans hcproto
          rw [hdproto, hpf] at hdtrue
          cases hdtrue
    refine List.mem_map.mpr ⟨f', hf', ?_⟩
    unfold FunctionInfo.signature
    rw [hproto, ← hd'type, ← hd'params, ← hdtype, ← hdparams, hfname, hcname]
    congr 1
    · exact htype.symm
    · exact hcount.symm
  refine (List.perm_ext_iff_of_nodup (hnodup h) (hnodup h')).mpr fun s => ⟨?_, ?_⟩
  · exact hsub h h' hok hperm s
  · exact hsub h' h (hok.perm hperm) hperm.symm s

end

end TinyCompile.Semantic
