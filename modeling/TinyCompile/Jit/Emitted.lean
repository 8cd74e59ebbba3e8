import TinyCompile.Jit.Inversion
import TinyCompile.Jit.Written

set_option autoImplicit false

/-!
# Jit: a whole function in its buffer

The items of a function depend on its instructions and its number of parameters
only.  After `jit_compile_function` they are what the buffer holds.
-/

namespace TinyCompile.Jit

open TinyCompile.Machine TinyCompile.X86 TinyCompile.Source TinyCompile.Ir

/-! ## The items of a function -/

/-- The items of consecutive instructions, as the passes plan them. -/
def JITContext.planItems : JITContext → List IRInstruction → List Item
  | _, [] => []
  | ctx, inst :: rest =>
      itemsOf (ctx.after inst).vregMap ctx.pendingCall inst ++ (ctx.after inst).planItems rest

theorem JITContext.planItems_append (ctx : JITContext) (insts insts' : List IRInstruction) :
    ctx.planItems (insts ++ insts') =
      ctx.planItems insts ++ (ctx.afterAll insts).planItems insts' := by
  induction insts generalizing ctx with
  | nil => rfl
  | cons inst insts ih => simp [JITContext.planItems, ih]

theorem JITContext.planItems_size (ctx : JITContext) (insts : List IRInstruction) :
    itemsSize (ctx.planItems insts) = ctx.sizeOfAll insts := by
  induction insts generalizing ctx with
  | nil => rfl
  | cons inst insts ih =>
    rw [JITContext.planItems, itemsSize_append, ih]
    rfl

theorem JITContext.SamePlan.planItems {ctx ctx' : JITContext} (h : ctx.SamePlan ctx')
    (insts : List IRInstruction) : ctx.planItems insts = ctx'.planItems insts := by
  induction insts generalizing ctx ctx' with
  | nil => rfl
  | cons inst insts ih =>
    simp only [JITContext.planItems]
    rw [ih (h.after inst), (h.after inst).vregMap, h.pendingCall]

/-- The items of a function. -/
def functionItems (ctx : JITContext) (f : IRFunction) (paramCount : Nat) : List Item :=
  (prologueOf ctx f paramCount).map .code ++ (ctx.entered f paramCount).planItems f.instructions

theorem itemsSize_code (es : List Encoded) :
    itemsSize (es.map .code) = (bytesOf es).length := by
  induction es with
  | nil => rfl
  | cons e es ih => simp [Item.size, ih]

theorem functionItems_size (ctx : JITContext) (f : IRFunction) (paramCount : Nat) :
    itemsSize (functionItems ctx f paramCount) = functionSize ctx f paramCount := by
  rw [functionItems, itemsSize_append, itemsSize_code, JITContext.planItems_size]
  rfl

/-- After the prologue two contexts have the same plan, whatever they were before. -/
theorem entered_samePlan (ctx ctx' : JITContext) (f : IRFunction) (paramCount : Nat) :
    (ctx.entered f paramCount).SamePlan (ctx'.entered f paramCount) := by
  have hfresh : (ctx.fresh f.stackCount).SamePlan (ctx'.fresh f.stackCount) :=
    ⟨rfl, rfl, rfl, rfl⟩
  exact hfresh.touchAll _

/-- The items of a function do not depend on the context it is compiled in. -/
theorem functionItems_congr (ctx ctx' : JITContext) (f : IRFunction) (paramCount : Nat) :
    functionItems ctx f paramCount = functionItems ctx' f paramCount := by
  have hplan := entered_samePlan ctx ctx' f paramCount
  unfold functionItems prologueOf
  rw [hplan.planItems, hplan.vregMap]

/-! ## Labels and jumps -/

/-- An instruction becomes a label, or items without labels. -/
theorem itemsOf_labels (loc : Nat → Location) (pending : List Nat) (inst : IRInstruction) :
    (inst.opcode = .label ∧ itemsOf loc pending inst = [.label inst.labelId]) ∨
      (inst.opcode ≠ .label ∧ ∀ item ∈ itemsOf loc pending inst, ∀ l, item ≠ .label l) := by
  have hcode : ∀ es : List Encoded, ∀ item ∈ es.map Item.code, ∀ l, item ≠ .label l := by
    intro es item hitem l heq
    obtain ⟨e, -, rfl⟩ := List.mem_map.mp hitem
    cases heq
  cases hop : inst.opcode with
  | label => exact .inl ⟨rfl, by simp [itemsOf, hop]⟩
  | arg => exact .inr ⟨by simp, by simp [itemsOf, hop]⟩
  | jmp => exact .inr ⟨by simp, by simp [itemsOf, hop]⟩
  | jz | jnz =>
    refine .inr ⟨by simp, ?_⟩
    intro item hitem l
    simp only [itemsOf, hop] at hitem
    rcases List.mem_append.mp hitem with hitem | hitem
    · exact hcode _ item hitem l
    · rw [List.mem_singleton.mp hitem]
      simp
  | call =>
    refine .inr ⟨by simp, ?_⟩
    intro item hitem l
    simp only [itemsOf, hop] at hitem
    rcases List.mem_append.mp hitem with hitem | hitem
    · exact hcode _ item hitem l
    · rcases List.mem_cons.mp hitem with rfl | hitem
      · simp
      · exact hcode _ item hitem l
  | _ =>
    refine .inr ⟨by simp, ?_⟩
    simp only [itemsOf, hop]
    exact hcode _

theorem mem_planItems_label {ctx : JITContext} {insts : List IRInstruction} {l : Nat} :
    Item.label l ∈ ctx.planItems insts ↔ l ∈ labelsOf insts := by
  induction insts generalizing ctx with
  | nil => simp [JITContext.planItems]
  | cons inst insts ih =>
    rw [JITContext.planItems, List.mem_append, ih]
    have hcons : l ∈ labelsOf (inst :: insts) ↔
        inst.labelDef = some l ∨ l ∈ labelsOf insts := by
      simp only [labelsOf, List.filterMap_cons]
      cases hdef : inst.labelDef with
      | none => simp
      | some l' => simp [eq_comm]
    rw [hcons]
    refine or_congr ?_ Iff.rfl
    rcases itemsOf_labels (ctx.after inst).vregMap ctx.pendingCall inst with
      ⟨hop, hitems⟩ | ⟨hop, hno⟩
    · rw [hitems]
      simp [IRInstruction.labelDef, hop, eq_comm]
    · refine ⟨fun hm => absurd rfl (hno _ hm l), fun hdef => ?_⟩
      have hnone : inst.labelDef = none := by
        unfold IRInstruction.labelDef
        split
        · exact absurd ‹_› hop
        · rfl
      rw [hnone] at hdef
      cases hdef

/-! ## One item -/

section

variable {code : Ptr} {items : List Item}

theorem at'_ne_zero {o : Nat} (hcode : code ≠ 0) (hfits : code.toNat + o < 2 ^ 64) :
    at' code o ≠ 0 := by
  unfold at'
  bv_omega

theorem at'_toNat {o : Nat} (hfits : code.toNat + o < 2 ^ 64) :
    (at' code o).toNat = code.toNat + o := by
  unfold at'
  rw [BitVec.toNat_add, BitVec.toNat_ofNat]
  omega

/-- Bytes that are emitted behind the items. -/
theorem emitBytes_at {bs : List Byte} {o : Nat} {size : Nat} {mem : Mem} (hcode : code ≠ 0)
    (hfits : code.toNat + (o + bs.length) < 2 ^ 64) :
    emitBytes bs ⟨at' code o, size, mem⟩ =
      ⟨at' code (o + bs.length), size + bs.length, writeBytes mem (at' code o) bs⟩ := by
  rw [emitBytes_write _ _ _ _ (at'_ne_zero hcode (by omega))
    (by rw [at'_toNat (by omega)]; omega), add_ofNat_add]

/-- Every item but a label is written behind the others. -/
theorem emitItem_written {ctx : JITContext} {mem : Mem} {item : Item} (buf : Ptr) (size : Nat)
    (h : Written code items ctx mem) (hcode : code ≠ 0)
    (hfits : code.toNat + (itemsSize items + item.size) < 2 ^ 64)
    (hlabel : ∀ l, item ≠ .label l) :
    Written code (items ++ [item])
        (emitItem buf item ⟨ctx, ⟨at' code (itemsSize items), size, mem⟩⟩).ctx
        (emitItem buf item ⟨ctx, ⟨at' code (itemsSize items), size, mem⟩⟩).out.mem ∧
      (emitItem buf item ⟨ctx, ⟨at' code (itemsSize items), size, mem⟩⟩).out.curr =
        at' code (itemsSize (items ++ [item])) := by
  have hsize : itemsSize (items ++ [item]) = itemsSize items + item.size := by simp
  rw [hsize]
  cases item with
  | code e =>
    have hbytes := @emitBytes_at code e.bytes (itemsSize items) size mem hcode hfits
    simp only [emitItem, hbytes]
    refine ⟨h.plain (.code e) (by simp) (by simp) ?_, rfl⟩
    simp only [Item.fixed, Item.size] at *
    omega
  | label l => exact absurd rfl (hlabel l)
  | callSite name =>
    have hbytes := @emitBytes_at code (callSiteOpcode ++ leBytes 8 callPlaceholder.toNat)
      (itemsSize items) size mem hcode (by simpa [Item.size] using hfits)
    rw [emitBytes_append] at hbytes
    simp only [emitItem, hbytes]
    refine ⟨?_, by simp [Item.size]⟩
    have hplain := h.plain (.callSite name) (by simp) (by simp)
      (by simp only [Item.fixed, Item.size, List.length_append, leBytes_length] at *; omega)
    exact hplain.frame (fun _ _ _ => rfl) rfl rfl rfl
  | jump c l =>
    have hcurr : at' code (itemsSize items) ≠ 0 := at'_ne_zero hcode (by omega)
    simp only [Item.size] at hfits
    -- the displacement, whatever it is
    have hdisp : ∀ bs : List Byte, bs.length = 4 →
        emitBytes bs (emitBytes (jumpOpcode c) ⟨at' code (itemsSize items), size, mem⟩) =
          ⟨at' code (itemsSize items + ((jumpOpcode c).length + 4)),
            size + ((jumpOpcode c).length + 4),
            writeBytes mem (at' code (itemsSize items)) (jumpOpcode c ++ bs)⟩ := by
      intro bs hbs
      rw [← emitBytes_append, emitBytes_at hcode (by simp only [List.length_append, hbs]; omega)]
      simp [hbs]
    have hafter : (emitBytes (jumpOpcode c) ⟨at' code (itemsSize items), size, mem⟩).curr =
        at' code (dispOffset (itemsSize items) c) := by
      rw [emitBytes_at hcode (by omega)]
    simp only [emitItem, hcurr, if_false, hafter, hdisp _ (leBytes_length _ _)]
    by_cases hdef : (decide (l < maxLabels) && ctx.labelDefined l) = true
    · simp only [hdef, if_true]
      rw [Bool.and_eq_true] at hdef
      refine ⟨h.jump (leBytes_length _ _) (by simp only [dispOffset]; omega) rfl rfl ?_ ?_
        (fun p hp => hp) (fun p hp => .inl hp), by simp [Item.size]⟩
      · intro o' ho'
        rw [h.offsets o' l ho']
      · intro hno
        exact absurd ((h.defined l).mp hdef.2) hno
    · simp only [hdef]
      have hno : Item.label l ∉ items := by
        intro hm
        refine hdef ?_
        rw [Bool.and_eq_true, decide_eq_true_eq]
        exact ⟨h.small l hm, (h.defined l).mpr hm⟩
      refine ⟨h.jump (leBytes_length _ _) (by simp only [dispOffset]; omega) rfl rfl ?_ ?_
        (fun p hp => by simp [hp]) ?_, by simp [Item.size]⟩
      · intro o' ho'
        exact absurd (mem_of_mem_layout ho') hno
      · intro _
        simp
      · intro p hp
        rcases List.mem_cons.mp hp with rfl | hp
        · exact .inr ⟨hno, rfl⟩
        · exact .inl hp

/-- Items without labels are written behind the others. -/
theorem emitItems_written {ctx : JITContext} {mem : Mem} (more : List Item)
    (buf : Ptr) (size : Nat) (h : Written code items ctx mem) (hcode : code ≠ 0)
    (hfits : code.toNat + (itemsSize items + itemsSize more) < 2 ^ 64)
    (hlabel : ∀ item ∈ more, ∀ l, item ≠ .label l) :
    Written code (items ++ more)
      (emitItems buf more ⟨ctx, ⟨at' code (itemsSize items), size, mem⟩⟩).ctx
      (emitItems buf more ⟨ctx, ⟨at' code (itemsSize items), size, mem⟩⟩).out.mem := by
  induction more generalizing items ctx mem size with
  | nil => simpa using h
  | cons item more ih =>
    rw [itemsSize_cons] at hfits
    obtain ⟨hitem, hcurr⟩ := emitItem_written buf size h hcode (by omega)
      (hlabel item (by simp))
    rw [emitItems_cons]
    generalize emitItem buf item ⟨ctx, ⟨at' code (itemsSize items), size, mem⟩⟩ = a at hitem hcurr
    obtain ⟨ctx', curr, size', mem'⟩ := a
    obtain rfl : curr = at' code (itemsSize (items ++ [item])) := hcurr
    have hrest := ih size' hitem (by simp; omega) fun i hi => hlabel i (by simp [hi])
    simpa using hrest

/-! ## Instructions -/

/-- An instruction is written behind the others. -/
theorem planned_written {s : JITState} (inst : IRInstruction) (h : Written code items s.ctx s.mem)
    (hcode : code ≠ 0) (hfits : code.toNat + (itemsSize items + s.ctx.sizeOf inst) < 2 ^ 64)
    (hlabel : inst.opcode = .label →
      inst.labelId < maxLabels ∧ Item.label inst.labelId ∉ items) :
    Written code (items ++ itemsOf (s.ctx.after inst).vregMap s.ctx.pendingCall inst)
      (planned (at' code (itemsSize items)) inst s).2.ctx
      (planned (at' code (itemsSize items)) inst s).2.mem := by
  have hrest := s.ctx.touchAll_rest (touched s.ctx.pendingCall inst)
  have hstart : Written code items (s.ctx.touchAll (touched s.ctx.pendingCall inst)) s.mem :=
    h.frame (fun _ _ _ => rfl) hrest.labelDefined hrest.labelOffset hrest.patches
  have hitems : Written code (items ++ itemsOf (s.ctx.after inst).vregMap s.ctx.pendingCall inst)
      (emitItems (at' code (itemsSize items))
        (itemsOf (s.ctx.after inst).vregMap s.ctx.pendingCall inst)
        ⟨s.ctx.touchAll (touched s.ctx.pendingCall inst),
          ⟨at' code (itemsSize items), 0, s.mem⟩⟩).ctx
      (emitItems (at' code (itemsSize items))
        (itemsOf (s.ctx.after inst).vregMap s.ctx.pendingCall inst)
        ⟨s.ctx.touchAll (touched s.ctx.pendingCall inst),
          ⟨at' code (itemsSize items), 0, s.mem⟩⟩).out.mem := by
    rcases itemsOf_labels (s.ctx.after inst).vregMap s.ctx.pendingCall inst with
      ⟨hop, heq⟩ | ⟨-, hno⟩
    · obtain ⟨hl, hnew⟩ := hlabel hop
      have hlabel' := hstart.label hl hnew (by omega)
      have hnot : ¬ (inst.labelId ≥ maxLabels ∨ at' code (itemsSize items) = 0) := by
        rintro (hge | hzero)
        · omega
        · exact at'_ne_zero hcode (by omega) hzero
      rw [heq]
      simp only [emitItems_cons, emitItems_nil, emitItem, hnot, if_false]
      exact hlabel'
    · exact emitItems_written _ _ 0 hstart hcode hfits hno
  exact hitems.frame (fun _ _ _ => rfl) rfl rfl rfl

/-- The instructions of a run of the second pass are written behind the others. -/
theorem writeState_written (insts : List IRInstruction) {s : JITState}
    (h : Written code items s.ctx s.mem) (hcode : code ≠ 0)
    (hfits : code.toNat + (itemsSize items + s.ctx.sizeOfAll insts) < 2 ^ 64)
    (hsmall : ∀ l ∈ labelsOf insts, l < maxLabels) (hnodup : (labelsOf insts).Nodup)
    (hnew : ∀ l ∈ labelsOf insts, Item.label l ∉ items) :
    Written code (items ++ s.ctx.planItems insts)
      (writeState (at' code (itemsSize items)) insts s).ctx
      (writeState (at' code (itemsSize items)) insts s).mem := by
  induction insts generalizing items s with
  | nil => simpa [JITContext.planItems, writeState] using h
  | cons inst insts ih =>
    simp only [JITContext.sizeOfAll] at hfits
    have hcons : labelsOf (inst :: insts) = labelsOf [inst] ++ labelsOf insts := by
      rw [← labelsOf_append, List.singleton_append]
    rw [hcons] at hsmall hnodup hnew
    have hown : inst.opcode = .label → inst.labelId ∈ labelsOf [inst] := by
      intro hop
      simp [labelsOf, IRInstruction.labelDef, hop]
    have hplan := planned_samePlan (at' code (itemsSize items)) inst s
    have hinst := planned_written inst h hcode (by omega) fun hop =>
      ⟨hsmall _ (List.mem_append_left _ (hown hop)),
        hnew _ (List.mem_append_left _ (hown hop))⟩
    have hsize : itemsSize (itemsOf (s.ctx.after inst).vregMap s.ctx.pendingCall inst) =
        s.ctx.sizeOf inst := rfl
    have hsizes := JITContext.sizeOfAll_congr hplan insts
    have hrest := ih hinst (by rw [itemsSize_append, hsize, hsizes]; omega)
      (fun l hl => hsmall l (List.mem_append_right _ hl)) (List.nodup_append.mp hnodup).2.1 ?_
    · rw [hplan.planItems, itemsSize_append, hsize] at hrest
      rw [JITContext.planItems, writeState, planned_size, add_ofNat_add, ← List.append_assoc]
      exact hrest
    · intro l hl hm
      rcases List.mem_append.mp hm with hm | hm
      · exact hnew l (List.mem_append_right _ hl) hm
      · -- the label of this instruction does not come again
        rcases itemsOf_labels (s.ctx.after inst).vregMap s.ctx.pendingCall inst with
          ⟨hop, heq⟩ | ⟨-, hno⟩
        · rw [heq] at hm
          obtain rfl : l = inst.labelId := by simpa using hm
          exact (List.nodup_append.mp hnodup).2.2 _ (hown hop) _ hl rfl
        · exact hno _ hm l rfl

end

/-! ## Functions -/

/-- The buffer of a function: a piece of memory that does not reach the last address. -/
structure Buffer (code : Ptr) (size : Nat) : Prop where
  nonNull : code ≠ 0
  fits : code.toNat + size < 2 ^ 64

/-- After both passes the items of the function are in the buffer. -/
theorem compiledState_written {f : IRFunction} {p : Nat} {code : Ptr} {s : JITState}
    (h : Compilable p f) (hlabels : LabelsFit 0 f.labelCount f.instructions)
    (hbuf : Buffer code (functionSize s.ctx f p)) :
    Written code (functionItems s.ctx f p) (compiledState code f p s).ctx
      (compiledState code f p s).mem := by
  obtain ⟨hcode, hfits⟩ := hbuf
  have hsize : functionSize s.ctx f p = (bytesOf (prologueOf s.ctx f p)).length +
    (s.ctx.entered f p).sizeOfAll f.instructions := rfl
  have hrest := (s.ctx.fresh f.stackCount).touchAll_rest (List.range' 1 p)
  -- the prologue
  have hfresh : Written code [] (s.ctx.entered f p) s.mem :=
    written_start (by simp) (fun l => congrFun hrest.labelDefined l) hrest.patches
      (by simp [layout])
  have hprologue := emitItems_written ((prologueOf s.ctx f p).map .code) code 0
    hfresh hcode (by rw [itemsSize_code, itemsSize_nil]; omega) (by simp)
  rw [emitItems_code, List.nil_append] at hprologue
  have hstart : at' code (itemsSize []) = code := by simp [at']
  rw [hstart] at hprologue
  have hbody := writeState_written f.instructions (s := enteredState code f p s) hprologue hcode
    (by rw [itemsSize_code]; exact hfits)
    (fun l hl => Nat.lt_trans (hlabels.range l hl).2 h.labels) hlabels.nodup (by simp)
  rw [itemsSize_code] at hbody
  exact hbody

end TinyCompile.Jit
