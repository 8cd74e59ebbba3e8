import TinyCompile.Jit.Agree

set_option autoImplicit false

/-!
# Jit: functions that were compiled

`jit_compile_function` leaves the bounds of its arrays only where the model stops.
So whatever it did compile stayed inside them, with or without errors recorded
before.
-/

namespace TinyCompile.Jit

open TinyCompile.Machine TinyCompile.X86 TinyCompile.Source TinyCompile.Ir

/-! ## Computations that do not stop -/

theorem bind_eq_some {α β : Type} {m : JitM α} {k : α → JitM β} {s : JITState}
    {r : β × JITState} (h : (m >>= k) s = some r) :
    ∃ a s', m s = some (a, s') ∧ k a s' = some r := by
  obtain ⟨p, hm, hk⟩ := Option.bind_eq_some_iff.mp h
  exact ⟨p.1, p.2, hm, hk⟩

theorem bind_isSome {α β : Type} {m : JitM α} {k : α → JitM β} {s : JITState}
    (h : ((m >>= k) s).isSome) : ∃ a s', m s = some (a, s') ∧ (k a s').isSome := by
  obtain ⟨r, hr⟩ := Option.isSome_iff_exists.mp h
  obtain ⟨a, s', hm, hk⟩ := bind_eq_some hr
  exact ⟨a, s', hm, Option.isSome_of_eq_some hk⟩

theorem getLocation_isSome {α : Type} {v : Nat} {k : Location → JitM α} {s : JITState}
    (h : ((getLocation v >>= k) s).isSome) :
    v < maxVregsPerFunction ∧
      (k ((s.ctx.touch v).vregMap v) { s with ctx := s.ctx.touch v }).isSome := by
  by_cases hv : v < maxVregsPerFunction
  · rw [getLocation_bind hv] at h
    exact ⟨hv, h⟩
  · obtain ⟨a, s', hget, -⟩ := bind_isSome h
    have hfail : getLocation v s = none := by
      unfold getLocation
      rw [if_pos (by omega)]
      rfl
    rw [hfail] at hget
    cases hget

theorem inRange_cons {v : Nat} {vs : List Nat} :
    InRange (v :: vs) ↔ v < maxVregsPerFunction ∧ InRange vs := by
  simp [InRange]

theorem inRange_append {vs ws : List Nat} :
    InRange (vs ++ ws) ↔ InRange vs ∧ InRange ws := by
  simp only [InRange, List.mem_append]
  exact ⟨fun h => ⟨fun v hv => h v (.inl hv), fun v hv => h v (.inr hv)⟩,
    fun h v hv => hv.elim (h.1 v) (h.2 v)⟩

theorem inRange_nil : InRange [] := by simp [InRange]

section

variable {buf : Ptr} {inst : IRInstruction} {s : JITState}

theorem inRange_one {α : Type} {v : Nat} {k : Location → JitM α}
    (h : ((getLocation v >>= k) s).isSome) : InRange [v] :=
  inRange_cons.mpr ⟨(getLocation_isSome h).1, inRange_nil⟩

theorem inRange_two {α : Type} {v w : Nat} {k : Location → Location → JitM α}
    (h : ((getLocation v >>= fun a => getLocation w >>= fun b => k a b) s).isSome) :
    InRange [v, w] := by
  obtain ⟨hv, hrest⟩ := getLocation_isSome h
  exact inRange_cons.mpr ⟨hv, inRange_one hrest⟩

theorem inRange_three {α : Type} {v w x : Nat} {k : Location → Location → Location → JitM α}
    (h : ((getLocation v >>= fun a => getLocation w >>= fun b =>
      getLocation x >>= fun c => k a b c) s).isSome) : InRange [v, w, x] := by
  obtain ⟨hv, hrest⟩ := getLocation_isSome h
  exact inRange_cons.mpr ⟨hv, inRange_two hrest⟩

theorem pushStackArgs_inRange {vs : List Nat} {o : Out}
    (h : (pushStackArgs vs o s).isSome) : InRange vs := by
  induction vs generalizing o s with
  | nil => exact inRange_nil
  | cons v vs ih =>
    obtain ⟨hv, hrest⟩ := getLocation_isSome h
    exact inRange_cons.mpr ⟨hv, ih hrest⟩

theorem pushRegArgs_inRange {vs : List Nat} {o : Out}
    (h : (pushRegArgs vs o s).isSome) : InRange vs := by
  induction vs generalizing o s with
  | nil => exact inRange_nil
  | cons v vs ih =>
    obtain ⟨hv, hrest⟩ := getLocation_isSome h
    refine inRange_cons.mpr ⟨hv, ?_⟩
    cases hloc : (s.ctx.touch v).vregMap v <;> simp only [hloc] at hrest <;> exact ih hrest

theorem encodeCall_inRange (hop : inst.opcode = .call) (h : (encodeCall buf inst s).isSome) :
    InRange (touched s.ctx.pendingCall inst) := by
  have hregs : (if s.ctx.pendingCall.length > sysVMaxRegArgs then sysVMaxRegArgs
      else s.ctx.pendingCall.length) = min 6 s.ctx.pendingCall.length := by
    unfold sysVMaxRegArgs
    split <;> omega
  have htake : s.ctx.pendingCall.take (min 6 s.ctx.pendingCall.length) =
      s.ctx.pendingCall.take 6 := by
    simp [List.take_eq_take_iff]
  unfold encodeCall at h
  obtain ⟨hdest, h⟩ := getLocation_isSome h
  rw [get_bind] at h
  obtain ⟨o, s₁, hstack, h⟩ := bind_isSome h
  obtain ⟨o', s₂, hreg, -⟩ := bind_isSome h
  have hstack' := pushStackArgs_inRange (by rw [hstack]; rfl)
  have hreg' := pushRegArgs_inRange (by rw [hreg]; rfl)
  simp only [show (s.ctx.touch inst.dest).pendingCall = s.ctx.pendingCall from rfl] at hstack' hreg'
  rw [hregs, htake] at hreg'
  simp only [touched, hop]
  exact inRange_cons.mpr ⟨hdest, inRange_append.mpr ⟨hstack', hreg'⟩⟩

theorem encodeArg_room (h : (encodeArg inst s).isSome) :
    s.ctx.pendingCall.length < maxParamsPerFunction := by
  by_cases hroom : s.ctx.pendingCall.length < maxParamsPerFunction
  · exact hroom
  · unfold encodeArg at h
    rw [get_bind, if_pos (by omega)] at h
    cases h

/-- The virtual registers of an instruction that was encoded are in range. -/
theorem encodeInst_inRange (h : (encodeInst buf inst s).isSome) :
    InRange (touched s.ctx.pendingCall inst) := by
  unfold encodeInst at h
  cases hop : inst.opcode with
  | call =>
    simp only [hop] at h
    exact encodeCall_inRange hop h
  | arg | label | jmp =>
    simp only [touched, hop]
    exact inRange_nil
  | jz | jnz | ret | store | load | const =>
    simp only [hop] at h
    simp only [touched, hop]
    exact inRange_one h
  | bnot | neg | not | mov =>
    simp only [hop] at h
    simp only [touched, hop]
    exact inRange_two h
  | _ =>
    simp only [hop] at h
    simp only [touched, hop]
    exact inRange_three h

/-- An instruction that was encoded stayed inside the arrays. -/
theorem encodeInst_encodable (h : (encodeInst buf inst s).isSome) :
    Encodable s.ctx.pendingCall inst := by
  refine ⟨encodeInst_inRange h, fun hop => ?_⟩
  simp only [encodeInst, hop] at h
  exact encodeArg_room h

end

/-! ## The passes -/

theorem sizeInsts_encodable {insts : List IRInstruction} {acc : Nat × Nat} {s : JITState}
    (h : (sizeInsts insts acc s).isSome) : CodeEncodable s.ctx.pendingCall insts := by
  induction insts generalizing acc s with
  | nil => trivial
  | cons inst rest ih =>
    obtain ⟨size, s', hinst, hrest⟩ := bind_isSome h
    have hinst' := encodeInst_encodable (by rw [hinst]; rfl)
    refine ⟨hinst', ?_⟩
    rw [encodeInst_eq hinst', planned_null] at hinst
    obtain ⟨-, rfl⟩ := Prod.mk.inj (Option.some.inj hinst)
    exact ih hrest

theorem storeParams_inRange {n i : Nat} {o : Out} {s : JITState}
    (h : (storeParams n i o s).isSome) : InRange (List.range' (i + 1) n) := by
  induction n generalizing i o s with
  | zero => exact inRange_nil
  | succ n ih =>
    obtain ⟨hv, hrest⟩ := getLocation_isSome h
    rw [List.range'_succ]
    refine inRange_cons.mpr ⟨hv, ?_⟩
    split at hrest
    · split at hrest <;> exact ih hrest
    · split at hrest <;> exact ih hrest

theorem encodePrologue_params {buf : Ptr} {stackSize paramCount : Nat} {s : JITState}
    (h : (encodePrologue buf stackSize paramCount s).isSome) :
    paramCount < maxVregsPerFunction := by
  unfold encodePrologue at h
  rw [get_bind] at h
  obtain ⟨o, s', hparams, -⟩ := bind_isSome h
  have hrange := storeParams_inRange (by rw [hparams]; rfl)
  cases paramCount with
  | zero => decide
  | succ n => exact hrange (n + 1) (List.mem_range'_1.mpr ⟨by omega, by omega⟩)

/-- A function that `jit_compile_function` compiled kept to the arrays. -/
theorem compilable_of_compiled {f : IRFunction} {name : StringView} {p : Nat} {code : Ptr}
    {s s' : JITState} {result : JITResult}
    (h : jitCompileFunction f name p code s = some (.returned result, s'))
    (hresult : result.code ≠ 0) : Compilable p f := by
  have hstart : resetState s = some (⟨⟩, ⟨s.ctx.fresh s.ctx.stackBase, s.mem⟩) := rfl
  unfold jitCompileFunction at h
  rw [bind_of_some hstart] at h
  by_cases hlabels : f.labelCount ≥ maxLabels
  · rw [if_pos hlabels] at h
    obtain ⟨heq, -⟩ := Prod.mk.inj (Option.some.inj h)
    obtain rfl := Outcome.returned.inj heq
    exact absurd rfl hresult
  · rw [if_neg hlabels, modify_bind] at h
    obtain ⟨prologue, s₁, hprologue, h⟩ := bind_eq_some h
    have hparams := encodePrologue_params (Option.isSome_of_eq_some hprologue)
    rw [encodePrologue_eq _ _ _ _ hparams] at hprologue
    have hpending : s₁.ctx.pendingCall = [] := by
      obtain ⟨-, rfl⟩ := Prod.mk.inj (Option.some.inj hprologue)
      exact JITContext.touchAll_pendingCall _ _
    rw [sizeChunks_eq] at h
    obtain ⟨acc, s₂, hsizes, h⟩ := bind_eq_some h
    have hcode := sizeInsts_encodable (Option.isSome_of_eq_some hsizes)
    rw [sizeInsts_eq hcode] at hsizes
    rw [hpending] at hcode
    obtain ⟨rfl, -⟩ := Prod.mk.inj (Option.some.inj hsizes)
    refine ⟨by omega, hparams, ?_, hcode⟩
    by_cases hcount : 0 + (chunkInstructions f.chunks).length ≠ f.totalCount
    · simp only [hcount, if_true, ne_eq, not_false_eq_true] at h
      obtain ⟨heq, -⟩ := Prod.mk.inj (Option.some.inj h)
      cases heq
    · show f.totalCount = (chunkInstructions f.chunks).length
      omega

end TinyCompile.Jit
