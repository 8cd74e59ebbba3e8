import TinyCompile.Jit.Emitted

set_option autoImplicit false

/-!
# Jit: the bytes of a function

With every label defined, the bytes of the items are determined by the items alone:
displacements are differences of offsets.  So a function has the same bytes in every
context and at every address.
-/

namespace TinyCompile.Jit

open TinyCompile.Machine TinyCompile.X86 TinyCompile.Source TinyCompile.Ir

/-! ## Displacements -/

/-- A displacement does not depend on where the code is. -/
theorem relTo_at (code : Ptr) (a b : Nat) :
    relTo (at' code a) (at' code b) = BitVec.ofNat 32 b - BitVec.ofNat 32 (a + 4) := by
  have hdiff : code + BitVec.ofNat 64 b - (code + BitVec.ofNat 64 a + 4) =
      BitVec.ofNat 64 b - BitVec.ofNat 64 (a + 4) := by
    bv_omega
  unfold relTo at'
  rw [hdiff]
  apply BitVec.eq_of_toNat_eq
  simp only [BitVec.toNat_setWidth, BitVec.toNat_sub, BitVec.toNat_ofNat]
  omega

/-- The offset of a label. -/
def offsetOf (items : List Item) (l : Nat) : Nat :=
  ((layout 0 items).findSome? fun e =>
    match e.2 with
    | .label l' => if l' = l then some e.1 else none
    | _ => none).getD 0

theorem offsetOf_mem {items : List Item} {l : Nat} (h : Item.label l ∈ items) :
    (offsetOf items l, Item.label l) ∈ layout 0 items := by
  obtain ⟨o, ho⟩ := @mem_layout_of_mem 0 _ _ h
  unfold offsetOf
  cases hfind : (layout 0 items).findSome? fun e =>
      match e.2 with
      | .label l' => if l' = l then some e.1 else none
      | _ => none with
  | none =>
    have := List.findSome?_eq_none_iff.mp hfind _ ho
    simp at this
  | some o' =>
    obtain ⟨⟨o'', item⟩, hmem, hsome⟩ := List.exists_of_findSome?_eq_some hfind
    cases item with
    | label l' =>
      by_cases hl : l' = l
      · simp only [hl, if_true, Option.some.injEq] at hsome
        rw [← hsome]
        rwa [hl] at hmem
      · simp [hl] at hsome
    | _ => simp at hsome

/-- The bytes of an item at an offset. -/
def itemBytes (items : List Item) (o : Nat) : Item → List Byte
  | .jump c l =>
      jumpOpcode c ++ leBytes 4
        (BitVec.ofNat 32 (offsetOf items l) - BitVec.ofNat 32 (dispOffset o c + 4)).toNat
  | item => item.fixed

/-- The bytes of some items, all labels of which are known. -/
def codeBytes (items : List Item) : List Byte :=
  (layout 0 items).flatMap fun e => itemBytes items e.1 e.2

theorem itemBytes_length (items : List Item) (o : Nat) (item : Item) :
    (itemBytes items o item).length = item.size := by
  cases item <;> simp [itemBytes, Item.fixed, Item.size]

theorem layoutBytes_length (items : List Item) (off : Nat) (rest : List Item) :
    ((layout off rest).flatMap fun e => itemBytes items e.1 e.2).length = itemsSize rest := by
  induction rest generalizing off with
  | nil => rfl
  | cons item rest ih => simp [layout, itemBytes_length, ih]

theorem codeBytes_length (items : List Item) : (codeBytes items).length = itemsSize items :=
  layoutBytes_length items 0 items

section

variable {code : Ptr} {items : List Item} {ctx : JITContext} {mem : Mem}

/-- One item in memory. -/
theorem Written.item (h : Written code items ctx mem)
    (hclosed : ∀ c l, Item.jump c l ∈ items → Item.label l ∈ items) {o : Nat} {item : Item}
    (hitem : (o, item) ∈ layout 0 items) :
    readBytes mem (at' code o) item.size = itemBytes items o item := by
  have hfixed := h.fixed o item hitem
  cases item with
  | jump c l =>
    have hlabel := offsetOf_mem (hclosed c l (mem_of_mem_layout hitem))
    have hdisp := h.resolved o c l _ hitem hlabel
    rw [relTo_at] at hdisp
    simp only [Item.size, itemBytes]
    rw [readBytes_add, add_ofNat_add]
    exact congr (congrArg HAppend.hAppend hfixed) hdisp
  | label l => rfl
  | code e => exact hfixed
  | callSite name =>
    have hlen : (Item.callSite name).fixed.length = (Item.callSite name).size := by
      simp [Item.fixed, Item.size]
    rwa [hlen] at hfixed

/-- All items in memory. -/
theorem Written.bytes (h : Written code items ctx mem)
    (hclosed : ∀ c l, Item.jump c l ∈ items → Item.label l ∈ items) :
    readBytes mem code (itemsSize items) = codeBytes items := by
  have hrest : ∀ rest off, (∀ e ∈ layout off rest, e ∈ layout 0 items) →
      readBytes mem (at' code off) (itemsSize rest) =
        (layout off rest).flatMap fun e => itemBytes items e.1 e.2 := by
    intro rest
    induction rest with
    | nil => exact fun _ _ => rfl
    | cons item rest ih =>
      intro off hsub
      have hitem := h.item hclosed (hsub (off, item) (by simp [layout]))
      have hmore := ih (off + item.size) fun e he => hsub e (List.mem_cons_of_mem _ he)
      rw [itemsSize_cons, readBytes_add, add_ofNat_add, hitem, hmore]
      rfl
  have := hrest items 0 fun e he => he
  rwa [show at' code 0 = code by simp [at']] at this

end

/-! ## Functions -/

theorem mem_planItems_jump {ctx : JITContext} {insts : List IRInstruction} {c : Option Cond}
    {l : Nat} (h : Item.jump c l ∈ ctx.planItems insts) : l ∈ targetsOf insts := by
  induction insts generalizing ctx with
  | nil => cases h
  | cons inst insts ih =>
    have hcons : targetsOf (inst :: insts) = targetsOf [inst] ++ targetsOf insts := by
      rw [← targetsOf_append, List.singleton_append]
    have hcode : ∀ es : List Encoded, Item.jump c l ∉ es.map Item.code := by simp
    rw [hcons]
    rcases List.mem_append.mp h with h | h
    · refine List.mem_append_left _ ?_
      cases hop : inst.opcode with
      | jmp =>
        simp only [itemsOf, hop, List.mem_singleton, Item.jump.injEq] at h
        simp [targetsOf, IRInstruction.target, hop, h.2]
      | jz | jnz =>
        simp only [itemsOf, hop, List.mem_append, List.mem_singleton, Item.jump.injEq] at h
        have hl := (h.resolve_left (hcode _)).2
        simp [targetsOf, IRInstruction.target, hop, hl]
      | call =>
        simp only [itemsOf, hop, List.mem_append, List.mem_cons] at h
        simp at h
      | label | arg => simp [itemsOf, hop] at h
      | _ =>
        simp only [itemsOf, hop] at h
        exact absurd h (hcode _)
    · exact List.mem_append_right _ (ih h)

/-- Every jump of a function has its label. -/
theorem functionItems_closed {f : IRFunction} (h : LabelsFit 0 f.labelCount f.instructions)
    (ctx : JITContext) (p : Nat) {c : Option Cond} {l : Nat}
    (hj : Item.jump c l ∈ functionItems ctx f p) : Item.label l ∈ functionItems ctx f p := by
  rcases List.mem_append.mp hj with hj | hj
  · simp at hj
  · exact List.mem_append_right _
      (mem_planItems_label.mpr (h.targets l (mem_planItems_jump hj)))

theorem registeredState_mem (code : Ptr) (f : IRFunction) (name : StringView) (p : Nat)
    (s : JITState) : (registeredState code f name p s).2.mem = (compiledState code f p s).mem := by
  unfold registeredState
  split <;> rfl

/-- The bytes of a compiled function. -/
theorem compiled_bytes {f : IRFunction} {p : Nat} {code : Ptr} {s : JITState}
    (h : Compilable p f) (hlabels : LabelsFit 0 f.labelCount f.instructions)
    (hbuf : Buffer code (functionSize s.ctx f p)) :
    readBytes (compiledState code f p s).mem code (functionSize s.ctx f p) =
      codeBytes (functionItems s.ctx f p) := by
  rw [← functionItems_size]
  exact (compiledState_written h hlabels hbuf).bytes fun c l => functionItems_closed hlabels _ _

/-- With too many parameters the prologue leaves the map of the virtual registers. -/
theorem jitCompileFunction_params {f : IRFunction} {name : StringView} {p : Nat} {code : Ptr}
    {s : JITState} (hlabels : f.labelCount < maxLabels) (hp : maxVregsPerFunction ≤ p) :
    jitCompileFunction f name p code s = none := by
  have hstart : resetState s = some (⟨⟩, ⟨s.ctx.fresh s.ctx.stackBase, s.mem⟩) := rfl
  cases hrun : jitCompileFunction f name p code s with
  | none => rfl
  | some r =>
    unfold jitCompileFunction at hrun
    rw [bind_of_some hstart, if_neg (by omega), modify_bind] at hrun
    obtain ⟨prologue, s₁, hprologue, -⟩ := bind_eq_some hrun
    have := encodePrologue_params (Option.isSome_of_eq_some hprologue)
    omega

/-- Compilations do not interfere: for every number of parameters a function has one
sequence of bytes, which every context and every buffer gets; only with more parameters than
there are virtual registers is nothing compiled. -/
theorem compile_independent {fresh : IRFunction} {root : ASTNode} {errors : ErrorContext}
    {filename : Option String} {g : GenState}
    (hgen : irGen fresh root errors filename = .ok (true, g)) (herrors : g.f.errors = errors)
    (hlabels : g.f.labelCount < maxLabels) (p : Nat) :
    (maxVregsPerFunction ≤ p ∧ ∀ name code s, jitCompileFunction g.f name p code s = none) ∨
      ∃ bytes, ∀ name code s, Buffer code bytes.length →
        ∃ result s', jitCompileFunction g.f name p code s = some (.returned result, s') ∧
          readBytes s'.mem code bytes.length = bytes ∧
          (s.ctx.registry.length < maxFunctionCount → result = ⟨code, bytes.length⟩) := by
  obtain ⟨hf, -, -, -⟩ := irGen_wellFormed hgen herrors
  by_cases hp : p < maxVregsPerFunction
  · refine .inr ⟨codeBytes (functionItems jitCtxInit g.f p), fun name code s hbuf => ?_⟩
    have h : Compilable p g.f := ⟨hlabels, hp, hf.total, wellFormed_encodable hf⟩
    have hitems := functionItems_congr jitCtxInit s.ctx g.f p
    have hsize : (codeBytes (functionItems jitCtxInit g.f p)).length =
        functionSize s.ctx g.f p := by
      rw [codeBytes_length, hitems, functionItems_size]
    rw [hsize] at hbuf ⊢
    refine ⟨_, _, jitCompileFunction_returns h hf.limit name code s, ?_, ?_⟩
    · rw [registeredState_mem, compiled_bytes h hf.labels hbuf, hitems]
    · intro hroom
      unfold registeredState
      rw [if_neg (by omega)]
  · have hp' := Nat.le_of_not_lt hp
    exact .inl ⟨hp', fun name code s => jitCompileFunction_params hlabels hp'⟩

theorem compile_independent_callLoop :
    ∃ g, irGen .zeroed callLoop .init none = .ok (true, g) ∧
      ((maxVregsPerFunction ≤ 1 ∧ ∀ name code s, jitCompileFunction g.f name 1 code s = none) ∨
        ∃ bytes, ∀ name code s, Buffer code bytes.length →
          ∃ result s', jitCompileFunction g.f name 1 code s = some (.returned result, s') ∧
            readBytes s'.mem code bytes.length = bytes ∧
            (s.ctx.registry.length < maxFunctionCount → result = ⟨code, bytes.length⟩)) := by
  obtain ⟨g, hgen, herrors, hlabels⟩ := callLoop_generated
  exact ⟨g, hgen, compile_independent hgen herrors (by rw [hlabels]; decide) 1⟩

end TinyCompile.Jit
