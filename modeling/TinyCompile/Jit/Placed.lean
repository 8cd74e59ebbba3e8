import TinyCompile.Jit.Calls
import TinyCompile.Jit.Decoded

set_option autoImplicit false

/-!
# Jit: control flow on the machine

The bytes of a function in code memory, every call of which is linked.  A step of control
between two instructions is a number of machine steps between the places of their code.
-/

namespace TinyCompile.Jit

open TinyCompile.Machine TinyCompile.X86 TinyCompile.Source TinyCompile.Ir

/-! ## Linked code -/

/-- The instruction of an item at an offset, with the address of the function a call names. -/
def linkedEncoded (target : StringView → Word) (items : List Item) (o : Nat) :
    Item → Option Encoded
  | .callSite name => some (movImm .rax (target name))
  | item => itemEncoded items o item

/-- The linked code of some items stands in code memory. -/
def Placed (code : Mem) (base : Ptr) (target : StringView → Word) (items : List Item) : Prop :=
  ∀ o item, (o, item) ∈ layout 0 items → ∀ e, linkedEncoded target items o item = some e →
    CodeAt code (at' base o) e.bytes

section

variable {code : Mem} {base : Ptr} {target : StringView → Word} {items before after : List Item}
  {s s' : State}

/-- Items without jumps and labels in between are executed one after the other. -/
theorem Placed.steps (h : Placed code base target items) {es : List Encoded}
    (hsplit : items = before ++ es.map .code ++ after) (hfits : Fits es)
    (hexec : execCode es s = some s') : Steps code ⟨at' base (itemsSize before), s⟩
      ⟨at' base (itemsSize (before ++ es.map .code)), s'⟩ := by
  induction es generalizing before s with
  | nil =>
    obtain rfl := Option.some.inj hexec
    rw [List.map_nil, List.append_nil]
    exact .refl _
  | cons e es ih =>
    rw [execCode_cons] at hexec
    obtain ⟨s₁, hs₁, hrest⟩ := Option.bind_eq_some_iff.mp hexec
    have hmem : (itemsSize before, Item.code e) ∈ layout 0 items := by
      rw [hsplit, List.map_cons, List.append_assoc, List.cons_append, ← Nat.zero_add (itemsSize _)]
      exact mem_layout_split 0 before _ _
    have hstep := (step_at (s := s) e (h _ _ hmem e rfl) (hfits e (by simp))).trans
      (stepInstr_of_exec hs₁)
    have hsize : itemsSize (before ++ [.code e]) = itemsSize before + e.bytes.length := by
      rw [itemsSize_append, itemsSize_cons, itemsSize_nil]
      rfl
    rw [add_ofNat_add, ← hsize] at hstep
    have hsplit' : items = (before ++ [.code e]) ++ es.map .code ++ after := by
      rw [hsplit]
      simp
    have hmore := ih hsplit' (fun e' he' => hfits e' (List.mem_cons_of_mem _ he')) hrest
    rw [List.append_assoc, List.singleton_append] at hmore
    exact .cons hstep hmore

/-- The displacement of a jump leads to its label. -/
theorem Placed.jump (h : Placed code base target items) {c : Option Cond} {l : Nat}
    (hsplit : items = before ++ .jump c l :: after) (hsize : itemsSize items < 2 ^ 28)
    (hl : Item.label l ∈ items) :
    (c = none → step code ⟨at' base (itemsSize before), s⟩ =
      some ⟨at' base (offsetOf items l), s⟩) ∧
    ∀ c' fl, c = some c' → s.flags = some fl → step code ⟨at' base (itemsSize before), s⟩ =
      some ⟨at' base (if c'.holds fl then offsetOf items l
        else itemsSize (before ++ [.jump c l])), s⟩ := by
  have hmem : (itemsSize before, Item.jump c l) ∈ layout 0 items := by
    rw [hsplit, ← Nat.zero_add (itemsSize _)]
    exact mem_layout_split 0 before _ _
  have hlabel := (layout_bounds (offsetOf_mem hl)).2
  have hjump := (layout_bounds hmem).2
  have hend : itemsSize (before ++ [.jump c l]) = dispOffset (itemsSize before) c + 4 := by
    rw [itemsSize_append, itemsSize_cons, itemsSize_nil]
    simp only [Item.size, dispOffset]
    omega
  have hlt : offsetOf items l < 2 ^ 28 := by omega
  have hlt' : dispOffset (itemsSize before) c + 4 < 2 ^ 28 := by
    simp only [Item.size] at hjump
    unfold dispOffset
    omega
  have hland : at' base (dispOffset (itemsSize before) c + 4) +
      (BitVec.ofNat 32 (offsetOf items l) -
        BitVec.ofNat 32 (dispOffset (itemsSize before) c + 4)).signExtend 64 =
      at' base (offsetOf items l) := by
    rw [signExtend_sub (by omega) (by omega)]
    unfold at'
    clear hmem hl h
    bv_omega
  refine ⟨?_, ?_⟩
  · rintro rfl
    have hcode := h _ _ hmem _ rfl
    have hnext : at' base (itemsSize before) + BitVec.ofNat 64 (jmpRel (BitVec.ofNat 32
        (offsetOf items l) -
          BitVec.ofNat 32 (dispOffset (itemsSize before) none + 4))).bytes.length =
          at' base (dispOffset (itemsSize before) none + 4) := by
      rw [add_ofNat_add]
      simp [jmpRel, dispOffset, jumpOpcode, Nat.add_assoc]
    rw [step_at _ hcode (by simp [jmpRel, maxInstrLength]), hnext]
    exact (stepInstr_jmp _ _ s).trans (by rw [hland])
  · rintro c' fl rfl hfl
    have hcode := h _ _ hmem _ rfl
    have hnext : at' base (itemsSize before) + BitVec.ofNat 64 (jccRel c' (BitVec.ofNat 32
        (offsetOf items l) -
          BitVec.ofNat 32 (dispOffset (itemsSize before) (some c') + 4))).bytes.length =
          at' base (dispOffset (itemsSize before) (some c') + 4) := by
      rw [add_ofNat_add]
      simp [jccRel, dispOffset, jumpOpcode, Nat.add_assoc]
    rw [step_at _ hcode (by simp [jccRel, maxInstrLength]), hnext, hend]
    refine (stepInstr_jcc hfl).trans ?_
    rw [hland]
    split <;> rfl

/-- The two instructions of a call. -/
theorem Placed.call (h : Placed code base target items) {name : StringView}
    (hsplit : items = before ++ .callSite name :: .code callRax :: after) :
    Steps code ⟨at' base (itemsSize before), s⟩
      ⟨target name, callEntry s (target name)
        (at' base (itemsSize (before ++ [.callSite name, .code callRax])))⟩ := by
  have hmem : (itemsSize before, Item.callSite name) ∈ layout 0 items := by
    rw [hsplit, ← Nat.zero_add (itemsSize _)]
    exact mem_layout_split 0 before _ _
  have hmem' : (itemsSize (before ++ [.callSite name]), Item.code callRax) ∈ layout 0 items := by
    rw [hsplit, ← Nat.zero_add (itemsSize (before ++ _)),
      show before ++ .callSite name :: .code callRax :: after =
        (before ++ [.callSite name]) ++ .code callRax :: after by simp]
    exact mem_layout_split 0 _ _ _
  have himm : exec (movImm .rax (target name)).instr s = some (s.setReg .rax (target name)) := rfl
  have hfirst := (step_at (s := s) _ (h _ _ hmem _ rfl) (by simp [movImm, maxInstrLength])).trans
    (stepInstr_of_exec himm)
  have hsize : itemsSize (before ++ [.callSite name]) =
      itemsSize before + (movImm .rax (target name)).bytes.length := by
    rw [itemsSize_append, itemsSize_cons, itemsSize_nil]
    simp [Item.size, callSiteOpcode, movImm]
  have hsize' : itemsSize (before ++ [.callSite name, .code callRax]) =
      itemsSize (before ++ [.callSite name]) + callRax.bytes.length := by
    rw [itemsSize_append, itemsSize_append, itemsSize_cons, itemsSize_cons, itemsSize_cons,
      itemsSize_nil]
    simp only [Item.size]
    omega
  rw [add_ofNat_add, ← hsize] at hfirst
  have hsecond := (step_at (s := s.setReg .rax (target name)) _ (h _ _ hmem' _ rfl)
    (by simp [callRax, maxInstrLength])).trans (stepInstr_call _ (.reg .rax) _)
  rw [add_ofNat_add, ← hsize'] at hsecond
  have hread : (s.setReg .rax (target name)).read (.reg .rax) = target name := s.setReg_same _ _
  rw [hread] at hsecond
  exact .cons hfirst (.one hsecond)

/-- Code that ends in a return. -/
theorem Placed.returns (h : Placed code base target items) {es : List Encoded}
    (hsplit : items = before ++ (es ++ [ret]).map .code ++ after) (hfits : Fits es)
    (hexec : execCode es s = some s') : Steps code ⟨at' base (itemsSize before), s⟩
      ⟨read64 s'.mem (s'.regs .rsp), s'.setReg .rsp (s'.regs .rsp + 8)⟩ := by
  have hsplit' : items = before ++ es.map .code ++ (.code ret :: after) := by
    rw [hsplit]
    simp
  refine (h.steps hsplit' hfits hexec).trans (.one ?_)
  have hmem : (itemsSize (before ++ es.map .code), Item.code ret) ∈ layout 0 items := by
    rw [hsplit', ← Nat.zero_add (itemsSize _)]
    exact mem_layout_split 0 _ _ _
  exact (step_at (s := s') _ (h _ _ hmem _ rfl) (by simp [ret, maxInstrLength])).trans
    (stepInstr_ret _ s')

end

/-! ## Labels -/

theorem itemLabels_planItems (ctx : JITContext) (insts : List IRInstruction) :
    itemLabels (ctx.planItems insts) = labelsOf insts := by
  induction insts generalizing ctx with
  | nil => rfl
  | cons inst insts ih =>
    have hcons : labelsOf (inst :: insts) = labelsOf [inst] ++ labelsOf insts := by
      rw [← labelsOf_append, List.singleton_append]
    rw [JITContext.planItems, itemLabels_append, ih, hcons]
    congr 1
    rcases itemsOf_labels (ctx.after inst).vregMap ctx.pendingCall inst with
      ⟨hop, hitems⟩ | ⟨hop, hno⟩
    · rw [hitems]
      simp [itemLabels, labelsOf, IRInstruction.labelDef, hop]
    · have hnone : inst.labelDef = none := by
        unfold IRInstruction.labelDef
        split
        · exact absurd ‹_› hop
        · rfl
      have hempty : labelsOf [inst] = [] := by simp [labelsOf, hnone]
      rw [hempty]
      refine List.eq_nil_iff_forall_not_mem.mpr fun l hl => ?_
      exact hno _ (mem_itemLabels.mp hl) l rfl

theorem itemLabels_code (es : List Encoded) : itemLabels (es.map .code) = [] := by
  refine List.eq_nil_iff_forall_not_mem.mpr fun l hl => ?_
  have hmem := mem_itemLabels.mp hl
  simp at hmem

/-- A label stands at one place only. -/
theorem layout_label_unique {off o o' l : Nat} {items : List Item}
    (hnodup : (itemLabels items).Nodup) (h : (o, Item.label l) ∈ layout off items)
    (h' : (o', Item.label l) ∈ layout off items) : o = o' := by
  induction items generalizing off with
  | nil => cases h
  | cons item items ih =>
    have htail : (itemLabels items).Nodup := by
      rw [← List.singleton_append, itemLabels_append] at hnodup
      exact (List.nodup_append.mp hnodup).2.1
    have hhead : item = .label l → ∀ x, (x, Item.label l) ∈ layout (off + item.size) items →
        False := by
      rintro rfl x hx
      have hmem := mem_itemLabels.mpr (mem_of_mem_layout hx)
      exact (List.nodup_cons.mp (show (l :: itemLabels items).Nodup from hnodup)).1 hmem
    rcases List.mem_cons.mp h with heq | h
    · rcases List.mem_cons.mp h' with heq' | h'
      · rw [(Prod.mk.inj heq).1, (Prod.mk.inj heq').1]
      · exact (hhead (Prod.mk.inj heq).2.symm _ h').elim
    · rcases List.mem_cons.mp h' with heq' | h'
      · exact (hhead (Prod.mk.inj heq').2.symm _ h).elim
      · exact ih htail h h'

section

variable {ctx : JITContext} {f : IRFunction} {p : Nat} {pre post : List IRInstruction}
  {inst label : IRInstruction}

/-- A jump to a label goes where the instruction of the label starts. -/
theorem offsetOf_label (hlabels : LabelsFit 0 f.labelCount f.instructions) {l : Nat}
    (hsplit : f.instructions = pre ++ label :: post) (hlabel : label.labelDef = some l) :
    Item.label l ∈ functionItems ctx f p ∧
      offsetOf (functionItems ctx f p) l = endOffset ctx f p pre := by
  obtain ⟨hop, rfl⟩ : label.opcode = .label ∧ label.labelId = l := by
    unfold IRInstruction.labelDef at hlabel
    split at hlabel
    · exact ⟨‹_›, by simpa using hlabel⟩
    · cases hlabel
  have hmem := mem_layout_label ctx p hsplit hop
  have hitem := mem_of_mem_layout hmem
  have hnodup : (itemLabels (functionItems ctx f p)).Nodup := by
    unfold functionItems
    rw [itemLabels_append, itemLabels_code, List.nil_append, itemLabels_planItems]
    exact hlabels.nodup
  have hzero : ((ctx.entered f p).afterAll pre).sizeOf label = 0 := by
    simp [JITContext.sizeOf, itemsOf, hop, Item.size]
  rw [endOffset_snoc, hzero, Nat.add_zero] at hmem
  exact ⟨hitem, layout_label_unique hnodup (offsetOf_mem hitem) hmem⟩

/-! ## Steps of control -/

/-- Where the code behind some instructions starts. -/
def placeOf (base : Ptr) (ctx : JITContext) (f : IRFunction) (p : Nat)
    (pre : List IRInstruction) : Ptr :=
  at' base (endOffset ctx f p pre)

/-- The items of an instruction among those of its function. -/
theorem items_split (ctx : JITContext) (p : Nat) (hsplit : f.instructions = pre ++ inst :: post) :
    ∃ before after,
    functionItems ctx f p = before ++ itemsAt ctx f p pre inst ++ after ∧
      itemsSize before = endOffset ctx f p pre ∧
      itemsSize (before ++ itemsAt ctx f p pre inst) = endOffset ctx f p (pre ++ [inst]) := by
  obtain ⟨before, after, hitems, hsize⟩ := functionItems_split ctx p hsplit
  rw [entered_pendingCall] at hitems
  refine ⟨before, after, hitems, hsize, ?_⟩
  rw [itemsSize_append, hsize, endOffset_snoc]
  unfold itemsAt locationsAt JITContext.sizeOf
  rw [entered_pendingCall]

theorem itemsAt_fits (hf : Runnable p f) (hsplit : f.instructions = pre ++ inst :: post)
    {es : List Encoded} (hes : ∀ e ∈ es, Item.code e ∈ itemsAt ctx f p pre inst) : Fits es := by
  obtain ⟨m, -, -, hpending⟩ := callDepth_bounds hf.stack hf.vregs hf.encodable hsplit
  intro e he
  exact (itemsOf_short _ inst hpending).fits _ (hes e he)

variable {code : Mem} {base : Ptr} {target : StringView → Word}

/-- A step of control that is not a call, on the machine. -/
theorem Placed.flow (h : Placed code base target (functionItems ctx f p)) (hf : Runnable p f)
    (hlabels : LabelsFit 0 f.labelCount f.instructions) (hsize : functionSize ctx f p < 2 ^ 28)
    {s : State} {pt : Point} (hsplit : f.instructions = pre ++ inst :: post)
    (hcall : inst.opcode ≠ .call) (hflow : Flow ctx f p ⟨pre, inst :: post, s⟩ pt) :
    Steps code ⟨placeOf base ctx f p pre, s⟩ ⟨placeOf base ctx f p pt.before, pt.state⟩ := by
  obtain ⟨before, after, hitems, hstart, hend⟩ := items_split ctx p hsplit
  rw [← functionItems_size] at hsize
  have hfits : ∀ es : List Encoded, (∀ e ∈ es, Item.code e ∈ itemsAt ctx f p pre inst) → Fits es :=
    fun _ => itemsAt_fits hf hsplit
  unfold placeOf
  rw [← hstart]
  cases hflow with
  | @straight _ _ _ es _ s' hes hexec =>
    rw [hes] at hitems hend
    rw [← hend]
    exact h.steps hitems (hfits es fun e he => hes ▸ List.mem_map_of_mem he) hexec
  | label hes =>
    rw [hes] at hend
    have hzero : itemsSize before = endOffset ctx f p (pre ++ [inst]) := by
      rw [← hend, itemsSize_append, itemsSize_cons, itemsSize_nil]
      rfl
    rw [hzero]
    exact .refl _
  | @jump _ _ pre' post' _ label es c l _ s' hes hexec htaken hsplit' hlabel =>
    obtain ⟨hmem, hoffset⟩ : Item.label l ∈ functionItems ctx f p ∧
      offsetOf (functionItems ctx f p) l = endOffset ctx f p pre' :=
        offsetOf_label hlabels hsplit' hlabel
    have hitems' : functionItems ctx f p =
        before ++ es.map .code ++ (.jump c l :: after) := by
      rw [hitems, hes]
      simp
    have hcode := h.steps hitems'
      (hfits es fun e he => hes ▸ List.mem_append_left _ (List.mem_map_of_mem he)) hexec
    obtain ⟨hjmp, hjcc⟩ := h.jump (s := s') hitems' hsize hmem
    refine hcode.trans (.one ?_)
    show _ = some (⟨at' base (endOffset ctx f p pre'), s'⟩ : X86.Machine)
    rw [← hoffset]
    cases c with
    | none => exact hjmp rfl
    | some c =>
      obtain ⟨fl, hfl, hholds⟩ := htaken c rfl
      rw [hjcc c fl rfl hfl, if_pos hholds]
  | @past _ _ _ es c l _ s' fl hes hexec hfl hc =>
    rw [hes] at hend
    have hitems' : functionItems ctx f p =
        before ++ es.map .code ++ (.jump (some c) l :: after) := by
      rw [hitems, hes]
      simp
    have hjump : Item.jump (some c) l ∈ functionItems ctx f p := by
      rw [hitems']
      simp
    have hmem := functionItems_closed hlabels ctx p hjump
    have hcode := h.steps hitems'
      (hfits es fun e he => hes ▸ List.mem_append_left _ (List.mem_map_of_mem he)) hexec
    obtain ⟨-, hjcc⟩ := h.jump (s := s') hitems' hsize hmem
    refine hcode.trans (.one ?_)
    rw [hjcc c fl rfl hfl, hc, List.append_assoc, hend]
    rfl
  | call target' hes hbefore hcallee hafter => exact absurd (itemsOf_call hes).1 hcall

end

end TinyCompile.Jit
