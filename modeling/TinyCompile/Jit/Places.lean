import TinyCompile.Ir.Live
import TinyCompile.Jit.Operations
import TinyCompile.Jit.Params

set_option autoImplicit false

/-!
# Jit: where virtual registers are

A virtual register keeps the location it gets first, so one map says where all of them are,
at every place of a function and on every way to it.  Different ones are apart, and a call
leaves all of them alone but perhaps the last.
-/

namespace TinyCompile.Jit

open TinyCompile.Machine TinyCompile.X86 TinyCompile.Source TinyCompile.Ir

/-- What the later theorems take for granted of a function: `ir_gen` returned it without an
error, and its locals fit into a frame. -/
structure Runnable (p : Nat) (f : IRFunction) : Prop where
  wellFormed : f.WellFormed p
  argument : ∀ arg ∈ f.instructions, arg.opcode = .arg → arg.src1 ≠ f.lastVreg
  stack : f.stackCount ≤ maxIrInstructionsPerFunction

namespace Runnable

variable {p : Nat} {f : IRFunction}

theorem of_irGen {fresh : IRFunction} {root : ASTNode} {errors : ErrorContext}
    {filename : Option String} {g : GenState}
    (hgen : irGen fresh root errors filename = .ok (true, g)) (herrors : g.f.errors = errors)
    (hstack : g.f.stackCount ≤ maxIrInstructionsPerFunction) : Runnable root.params.length g.f :=
  ⟨(irGen_wellFormed hgen herrors).1, (irGen_lastVregSafe hgen herrors).argument, hstack⟩

theorem encodable (h : Runnable p f) : CodeEncodable [] f.instructions :=
  wellFormed_encodable h.wellFormed

theorem vregs (h : Runnable p f) : f.vregCount ≤ maxIrInstructionsPerFunction := h.wellFormed.vregs

theorem params_lt (h : Runnable p f) : p < f.vregCount := by
  have hle := h.wellFormed.piece.le
  omega

theorem locals (h : Runnable p f) : ∀ inst ∈ f.instructions, LocalsBelow f.stackCount inst :=
  fun inst hinst =>
    ⟨fun hop => h.wellFormed.piece.slots inst hinst _ (by simp [IRInstruction.slot, hop]),
      fun hop => h.wellFormed.piece.slots inst hinst _ (by simp [IRInstruction.slot, hop])⟩

end Runnable

/-! ## One map of locations -/

/-- Where the virtual registers of a function are. -/
def locationOf (ctx : JITContext) (f : IRFunction) (p : Nat) : Nat → Location :=
  ((ctx.entered f p).afterAll f.instructions).vregMap

section

variable {ctx : JITContext} {f : IRFunction} {p v w : Nat} {pre post : List IRInstruction}
  {inst : IRInstruction}

theorem final_allocated (ctx : JITContext) (f : IRFunction) (p : Nat) :
    ((ctx.entered f p).afterAll f.instructions).Allocated :=
  ((fresh_allocated ctx f.stackCount).touchAll _).afterAll _

theorem final_stackBase :
    ((ctx.entered f p).afterAll f.instructions).stackBase = f.stackCount :=
  (JITContext.afterAll_stackBase _).trans (JITContext.touchAll_stackBase _ _)

/-- The encoder of an instruction finds its virtual registers in their locations. -/
theorem locationsAt_eq (hsplit : f.instructions = pre ++ inst :: post)
    (hv : v ∈ touched (pendingAt [] pre) inst) :
    locationsAt ctx f p pre inst v = locationOf ctx f p v ∧ locationOf ctx f p v ≠ .none := by
  have hne : (((ctx.entered f p).afterAll pre).after inst).vregMap v ≠ .none := by
    refine JITContext.touchAll_ne_none _ _ ?_
    rwa [entered_pendingCall]
  have heq : locationOf ctx f p v = locationsAt ctx f p pre inst v := by
    unfold locationOf locationsAt
    rw [hsplit, JITContext.afterAll_append, JITContext.afterAll_cons,
      JITContext.afterAll_assigned _ _ hne]
  exact ⟨heq.symm, heq ▸ hne⟩

theorem locationOf_param (hv : 1 ≤ v ∧ v ≤ p) :
    (ctx.entered f p).vregMap v = locationOf ctx f p v ∧ locationOf ctx f p v ≠ .none := by
  have hmem : v ∈ List.range' 1 p := by
    rw [List.mem_range'_1]
    omega
  have hne : (ctx.entered f p).vregMap v ≠ .none := JITContext.touchAll_ne_none _ _ hmem
  have heq : locationOf ctx f p v = (ctx.entered f p).vregMap v :=
    JITContext.afterAll_assigned _ _ hne
  exact ⟨heq.symm, heq ▸ hne⟩

theorem defines_touched {pending : List Nat} (h : inst.defines = some v) :
    v ∈ touched pending inst := by
  unfold IRInstruction.defines at h
  unfold touched
  cases hop : inst.opcode <;> rw [hop] at h <;> simp_all

theorem uses_touched {pending : List Nat} (hop : inst.opcode ≠ .arg) (h : v ∈ inst.uses) :
    v ∈ touched pending inst := by
  unfold IRInstruction.uses at h
  unfold touched
  cases hopcode : inst.opcode <;> rw [hopcode] at h <;>
    simp only [List.mem_cons, List.not_mem_nil, or_false] at h
  case arg => exact absurd hopcode hop
  all_goals simp [h]

/-- What is written somewhere has a location. -/
theorem locationOf_defined (hinst : inst ∈ f.instructions) (hv : inst.defines = some v) :
    locationOf ctx f p v ≠ .none := by
  obtain ⟨pre, post, hsplit⟩ := List.append_of_mem hinst
  exact (locationsAt_eq hsplit (defines_touched hv)).2

/-- What is read somewhere has a location. -/
theorem locationOf_used (h : f.WellFormed p) (hinst : inst ∈ f.instructions)
    (hv : v ∈ inst.uses) : locationOf ctx f p v ≠ .none := by
  by_cases hp : p < v
  · obtain ⟨pre, post, hsplit⟩ := List.append_of_mem hinst
    obtain ⟨init, d, mid, hpre, hd, -⟩ := h.piece.before pre inst post hsplit v hv hp
    exact locationOf_defined (by rw [hsplit, hpre]; simp) hd
  · have hrange := h.piece.uses inst hinst v hv
    exact (locationOf_param (by omega)).2

theorem locationOf_usable (h : locationOf ctx f p v ≠ .none) :
    (locationOf ctx f p v).Usable :=
  (final_allocated ctx f p).usable h

section

variable (hf : Runnable p f)
include hf

theorem locationOf_inj (hv : v < f.vregCount) (hw : w < f.vregCount)
    (hne : locationOf ctx f p v ≠ .none) (heq : locationOf ctx f p v = locationOf ctx f p w) :
    v = w := by
  have hvregs := hf.wellFormed.vregs
  refine (final_allocated ctx f p).inj ?_ (by omega) (by omega) hne heq
  exact final_stackBase.trans_le hf.stack

theorem locationOf_ne_local (hv : v < f.vregCount) {i : Nat} (hi : i < f.stackCount) :
    locationOf ctx f p v ≠ .stack (getLocalOffset i) := by
  have hvregs := hf.wellFormed.vregs
  refine (final_allocated ctx f p).ne_local ?_ (by omega) ?_
  · exact final_stackBase.trans_le hf.stack
  · rwa [final_stackBase]

theorem locationOf_wellPlaced (hv : v < f.vregCount) (hne : locationOf ctx f p v ≠ .none) :
    WellPlaced f.stackCount (locationOf ctx f p v) := by
  have hvregs := hf.wellFormed.vregs
  have hplaced := (final_allocated ctx f p).wellPlaced
    (final_stackBase.trans_le hf.stack) (v := v) (by omega) hne
  rwa [final_stackBase] at hplaced

/-- The slots of a frame but the lowest are at or above `rsp`. -/
theorem slot_kept {s : State} (hdepth : Depth (calculateAlignedStackSize f) s) {i : Nat}
    (hi : i + 1 < f.stackCount + f.vregCount) {room : Nat} (hroom : 2 ^ 32 ≤ room) :
    (Location.stack (getLocalOffset i)).Kept room s := by
  have hstack := hf.stack
  have hvregs := hf.vregs
  have hmax : maxIrInstructionsPerFunction = 65536 := rfl
  have hsaved : calleeSavedSize = 40 := rfl
  have hsize := calculateAlignedStackSize_eq f
  have hlt := stackSize_lt hstack hvregs
  refine ⟨getLocalOffset_aligned i, ?_⟩
  have hsext : (getLocalOffset i).signExtend 64 = BitVec.ofInt 64 (getLocalOffset i).toInt := rfl
  have hneg : (getLocalOffset i).signExtend 64 = -(BitVec.ofNat 64 (48 + (i + 1) * 8)) := by
    rw [hsext, getLocalOffset_toInt (by omega), BitVec.ofInt_neg]
    rfl
  have hle : 48 + (i + 1) * 8 ≤ 40 + calculateAlignedStackSize f := by
    split at hsize <;> omega
  unfold Depth at hdepth
  unfold slotAddress
  rw [hneg, hdepth, hsaved]
  generalize calculateAlignedStackSize f = size at hlt hle
  generalize s.regs .rbp = bp
  clear hsize hdepth
  bv_omega

/-- A call leaves every virtual register alone but the last one. -/
theorem locationOf_kept {s : State} (hdepth : Depth (calculateAlignedStackSize f) s)
    (hv : v < f.vregCount) (hlast : v ≠ f.lastVreg) (hne : locationOf ctx f p v ≠ .none)
    {room : Nat} (hroom : 2 ^ 32 ≤ room) : (locationOf ctx f p v).Kept room s := by
  have hlastVreg : f.lastVreg = f.vregCount - 1 := rfl
  have husable := locationOf_usable hne
  cases hloc : locationOf ctx f p v with
  | reg r =>
    rw [hloc] at husable
    exact husable
  | stack off =>
    have hspill := (final_allocated ctx f p).spill v off hloc
    rw [final_stackBase, spillOffset_eq] at hspill
    rw [hspill]
    exact slot_kept hf hdepth (by omega) hroom
  | const imm =>
    rw [hloc] at husable
    exact husable
  | none => exact absurd hloc hne

end

end

/-! ## Pending arguments -/

section

variable {pre post : List IRInstruction} {inst : IRInstruction}

theorem pendingAt_length (pending : List Nat) {k : Nat} (h : argScan pending.length pre = some k) :
    (pendingAt pending pre).length = k := by
  induction pre generalizing pending with
  | nil => exact Option.some.inj h
  | cons inst pre ih =>
    rw [pendingAt_cons]
    simp only [argScan] at h
    split at h
    · rename_i hop
      split at h
      · refine ih _ ?_
        simpa [pendingAfter, hop] using h
      · cases h
    · rename_i hop
      refine ih _ ?_
      simpa [pendingAfter, hop] using h
    · rename_i hnarg hncall
      split at h
      · rename_i hzero
        refine ih _ ?_
        have hsame : pendingAfter pending inst = pending := by
          unfold pendingAfter
          split
          · exact absurd ‹_› hnarg
          · exact absurd ‹_› hncall
          · rfl
        rwa [hsame, hzero]
      · cases h

/-- Only in front of an argument or a call arguments are pending. -/
theorem pendingAt_eq_nil (hscan : argScan 0 (pre ++ inst :: post) = some 0)
    (harg : inst.opcode ≠ .arg) (hcall : inst.opcode ≠ .call) : pendingAt [] pre = [] := by
  rw [argScan_append] at hscan
  obtain ⟨k, hpre, hrest⟩ := Option.bind_eq_some_iff.mp hscan
  have hlen := pendingAt_length [] hpre
  simp only [argScan] at hrest
  split at hrest
  · rename_i hzero
    exact List.length_eq_zero_iff.mp (hlen.trans hzero)
  · cases hrest

/-- A pending argument is the source of an argument instruction. -/
theorem mem_pendingAt {pending : List Nat} {v : Nat} (h : v ∈ pendingAt pending pre) :
    v ∈ pending ∨ ∃ arg ∈ pre, arg.opcode = .arg ∧ arg.src1 = v := by
  induction pre generalizing pending with
  | nil => exact .inl h
  | cons inst pre ih =>
    rcases ih h with h | ⟨arg, harg, hop⟩
    · unfold pendingAfter at h
      split at h
      · rename_i hop
        rcases List.mem_append.mp h with h | h
        · exact .inl h
        · exact .inr ⟨inst, by simp, hop, (List.mem_singleton.mp h).symm⟩
      · cases h
      · exact .inl h
    · exact .inr ⟨arg, List.mem_cons_of_mem _ harg, hop⟩

end

end TinyCompile.Jit
