import TinyCompile.Jit.Convention

set_option autoImplicit false

/-!
# Jit: the parameters

Symbolic execution of the whole prologue: every parameter is moved from where the calling
convention puts it to its location, the slots of the locals keep what was in memory, and
nothing from `rsp` up is written.
-/

namespace TinyCompile.Jit

open TinyCompile.Machine TinyCompile.X86 TinyCompile.Source TinyCompile.Ir

/-! ## One parameter -/

/-- Where a function finds its parameter `i`, once `rbp` is set. -/
def paramSource (i : Nat) : Location :=
  if i < 6 then .reg (argRegisters.getD i .rax) else .stack (paramOffset i)

section

variable {s : State} {l : Location} {i : Nat}

theorem exec_paramCode (hl : l.Usable) : ∃ s₁,
    execCode (paramCode i l) s = some (put s₁ l (contents s (paramSource i))) ∧
      (s₁ = s ∨ s₁ = s.setReg .rax (contents s (paramSource i))) := by
  unfold paramCode paramSource
  by_cases hi : i < 6
  · rw [if_pos hi, if_pos hi]
    refine ⟨s, ?_, .inl rfl⟩
    cases l with
    | reg r =>
      show execCode (if r ≠ argRegisters.getD i .rax then _ else []) s = _
      split
      · rfl
      · rename_i heq
        rw [← not_not.mp heq, contents_reg]
        exact congrArg some (setReg_self s r).symm
    | stack offset => rfl
    | const imm => exact hl.elim
    | none => exact hl.elim
  · rw [if_neg hi, if_neg hi]
    cases l with
    | reg r => exact ⟨s, rfl, .inl rfl⟩
    | stack offset =>
      refine ⟨_, ?_, .inr rfl⟩
      have hstore := exec_storeCode (show IsScratch .rax from .inl rfl) hl
        (s := s.setReg .rax (contents s (.stack (paramOffset i))))
      rw [State.setReg_same] at hstore
      have hload : execCode [loadParam .rax (paramOffset i)] s =
          some (s.setReg .rax (contents s (.stack (paramOffset i)))) := rfl
      exact execCode_seq hload hstore
    | const imm => exact hl.elim
    | none => exact hl.elim

theorem paramOffset_toInt {i : Nat} (hi : i < 2 ^ 16) :
    (paramOffset i).toInt = (16 + (i - 6) * 8 : Nat) := by
  have hoff : paramOffset i = BitVec.ofNat 32 (16 + (i - 6) * 8) := rfl
  rw [hoff, toInt_ofNat_small (by omega)]

/-- A stack argument is not where a location of a virtual register is. -/
theorem paramOffset_ne {n i : Nat} {l : Location} (hi : i < 2 ^ 16) (hl : WellPlaced n l) :
    l ≠ .stack (paramOffset i) := by
  rintro rfl
  have hbelow : BelowSaved (paramOffset i) := hl.1
  have hsaved : calleeSavedSize = 40 := rfl
  unfold BelowSaved at hbelow
  rw [paramOffset_toInt hi] at hbelow
  omega

theorem paramSource_put {n j : Nat} {v : Word} (hj : j < 2 ^ 16) (hl : l.Usable)
    (hplaced : WellPlaced n l) :
    contents (put s l v) (paramSource j) = contents s (paramSource j) := by
  unfold paramSource
  split
  · rename_i hlt
    cases l with
    | reg r =>
      refine s.setReg_of_ne v ?_
      rintro rfl
      have hnot : ∀ j < 6, ¬ isAllocatableRegister (argRegisters.getD j .rax) = true := by decide
      exact hnot j hlt hl
    | stack offset => rfl
    | const imm => rfl
    | none => rfl
  · refine contents_put_other hl ?_ (paramOffset_ne hj hplaced).symm
    have hoff : paramOffset j = BitVec.ofNat 32 (16 + (j - 6) * 8) := rfl
    show (paramOffset j).toNat % 8 = 0
    rw [hoff, BitVec.toNat_ofNat]
    omega

theorem paramSource_setRax {j : Nat} {v : Word} :
    contents (s.setReg .rax v) (paramSource j) = contents s (paramSource j) := by
  unfold paramSource
  split
  · rename_i hlt
    refine s.setReg_of_ne v ?_
    have hnot : ∀ j < 6, argRegisters.getD j .rax ≠ .rax := by decide
    exact hnot j hlt
  · rw [contents_stack, contents_stack, slotAddress, slotAddress,
      State.setReg_of_ne _ _ (by decide)]
    rfl

end

/-! ## All parameters -/

/-- A write to a slot leaves memory from the saved registers up. -/
theorem sameBytes_slot (room : Nat) {n : Nat} {s : State} {off : BitVec 32} {v : Word}
    (hbelow : BelowSaved off) (hn : n ≤ 8) (hpos : 0 < room) (hroom : room < 2 ^ 63) :
    SameBytes (s.regs .rbp - 40) room s.mem (writeLow s.mem (slotAddress s off) n v) := by
  refine sameBytes_writeLow ?_ hn
  have hlow := BitVec.le_toInt off
  have hsaved : calleeSavedSize = 40 := rfl
  unfold BelowSaved at hbelow
  have hslot : slotAddress s off = s.regs .rbp + BitVec.ofInt 64 off.toInt := rfl
  have hbase : s.regs .rbp - 40 = s.regs .rbp + BitVec.ofInt 64 (-40) :=
    BitVec.sub_eq_add_neg _ _
  rw [hslot, hbase]
  have hapart : Apart (s.regs .rbp + BitVec.ofInt 64 off.toInt) 8
      (s.regs .rbp + BitVec.ofInt 64 (-40)) room :=
    apart_of_offsets _ (.inl ⟨by omega, by omega⟩) (by omega) hpos
  exact hapart.mono hn (Nat.le_refl room)

theorem sameBytes_put (room : Nat) {n : Nat} {s : State} {l : Location} {v : Word}
    (hl : WellPlaced n l) (hpos : 0 < room) (hroom : room < 2 ^ 63) :
    SameBytes (s.regs .rbp - 40) room s.mem (put s l v).mem := by
  cases l with
  | stack offset =>
    have hbelow : BelowSaved offset := hl.1
    rw [put_stack]
    exact sameBytes_slot room hbelow (Nat.le_refl 8) hpos hroom
  | _ => exact .refl _ _ _

/-- The first `k` of the arguments have been moved to their locations since `S`. -/
structure Moved (room : Nat) (loc : Nat → Location) (args : List Word) (S : State) (k : Nat)
    (s : State) : Prop where
  done : ∀ j (hj : j < args.length), j < k → contents s (loc (j + 1)) = args[j]
  todo : ∀ j (hj : j < args.length), k ≤ j → contents s (paramSource j) = args[j]
  rbp : s.regs .rbp = S.regs .rbp
  slots : ∀ off : BitVec 32, off.toNat % 8 = 0 → (∀ j < args.length, loc (j + 1) ≠ .stack off) →
    contents s (.stack off) = contents S (.stack off)
  above : SameBytes (S.regs .rbp - 40) room S.mem s.mem

section

variable {n room k : Nat} {loc : Nat → Location} {args : List Word} {S s : State}

/-- One more parameter. -/
theorem Moved.step (h : Moved room loc args S k s) (hk : k < args.length)
    (hlen : args.length < 2 ^ 16) (hpos : 0 < room) (hroom : room < 2 ^ 63)
    (husable : ∀ j < args.length, (loc (j + 1)).Usable)
    (hplaced : ∀ j < args.length, WellPlaced n (loc (j + 1)))
    (hinj : ∀ i < args.length, ∀ j < args.length, loc (i + 1) = loc (j + 1) → i = j) :
    ∃ s', execCode (paramCode k (loc (k + 1))) s = some s' ∧ Moved room loc args S (k + 1) s' := by
  have hl := husable k hk
  obtain ⟨s₁, hexec, hs₁⟩ := exec_paramCode (s := s) (i := k) hl
  rw [h.todo k hk (Nat.le_refl k)] at hexec hs₁
  refine ⟨_, hexec, ?_⟩
  -- loading into `rax` changes nothing that matters
  have hscratch : Scratched s s₁ := by
    rcases hs₁ with rfl | rfl
    · exact .refl _
    · exact (Scratched.refl s).setReg (.inl rfl) _
  have hsource : ∀ j, contents s₁ (paramSource j) = contents s (paramSource j) := by
    intro j
    rcases hs₁ with rfl | rfl
    · rfl
    · exact paramSource_setRax
  refine ⟨fun j hj hlt => ?_, fun j hj hle => ?_, ?_, fun off hoff hne => ?_, ?_⟩
  · by_cases hjk : j = k
    · subst hjk
      exact contents_put_same hl
    · have hother : loc (j + 1) ≠ loc (k + 1) := fun heq => hjk (hinj j hj k hk heq)
      rw [contents_put_other hl (husable j hj) hother, hscratch.contents (husable j hj)]
      exact h.done j hj (by omega)
  · rw [paramSource_put (by omega) hl (hplaced k hk), hsource]
    exact h.todo j hj (by omega)
  · rw [put_rbp hl, hscratch.rbp, h.rbp]
  · have hslot : (Location.stack off).Usable := hoff
    rw [contents_put_other hl hslot (hne k hk).symm, hscratch.contents hslot]
    exact h.slots off hoff hne
  · have hput := sameBytes_put room (s := s₁) (v := args[k]) (hplaced k hk) hpos hroom
    rw [hscratch.rbp, h.rbp, hscratch.mem] at hput
    exact h.above.trans hput

theorem exec_paramsCode (h : Moved room loc args S k s) (hlen : args.length < 2 ^ 16)
    (hpos : 0 < room) (hroom : room < 2 ^ 63)
    (husable : ∀ j < args.length, (loc (j + 1)).Usable)
    (hplaced : ∀ j < args.length, WellPlaced n (loc (j + 1)))
    (hinj : ∀ i < args.length, ∀ j < args.length, loc (i + 1) = loc (j + 1) → i = j)
    {m : Nat} (hm : k + m = args.length) :
    ∃ s', execCode (paramsCode loc k m) s = some s' ∧ Moved room loc args S args.length s' := by
  induction m generalizing k s with
  | zero =>
    obtain rfl : k = args.length := by omega
    exact ⟨s, rfl, h⟩
  | succ m ih =>
    obtain ⟨s₁, hexec, hs₁⟩ := h.step (by omega) hlen hpos hroom husable hplaced hinj
    obtain ⟨s', hrest, hs'⟩ := ih hs₁ (by omega)
    rw [paramsCode_succ]
    exact ⟨s', execCode_seq hexec hrest, hs'⟩

end

/-! ## The frame -/

theorem execCode_regs {r : Reg} {es : List Encoded} (hes : ∀ e ∈ es, r ∉ e.instr.destRegs)
    {s s' : State} (h : execCode es s = some s') : s'.regs r = s.regs r := by
  induction es generalizing s with
  | nil =>
    obtain rfl := Option.some.inj h
    rfl
  | cons e es ih =>
    rw [execCode_cons] at h
    obtain ⟨s₁, hs₁, hrest⟩ := Option.bind_eq_some_iff.mp h
    exact (ih (fun e' he' => hes e' (List.mem_cons_of_mem _ he')) hrest).trans
      ((exec_framed hs₁).regs r (hes e (by simp)))

/-- Pushes write nothing but the words they push. -/
theorem exec_pushes_mem {rs : List Reg} (hrs : Reg.rsp ∉ rs) {s s' : State}
    (h : execCode (rs.map push) s = some s') {x : Word}
    (hx : (x - s.regs .rsp).toNat + 8 * rs.length < 2 ^ 64) : s'.mem x = s.mem x := by
  induction rs generalizing s with
  | nil =>
    obtain rfl := Option.some.inj h
    rfl
  | cons r rs ih =>
    rw [List.length_cons] at hx
    have hrest : execCode (rs.map push) (s.pushWord (s.regs r)) = some s' := h
    have hrsp := pushWord_rsp s (s.regs r)
    rw [ih (fun hmem => hrs (List.mem_cons_of_mem _ hmem)) hrest (by rw [hrsp]; bv_omega)]
    refine writeBytes_outside _ _ _ _ ?_
    rw [leBytes_length]
    bv_omega

/-- The code before the parameters changes `rsp`, `rbp` and the words it pushes. -/
theorem exec_frameCode_frame {size : Nat} {s₀ s : State}
    (h : execCode (frameCode size) s₀ = some s) :
    (∀ r, r ≠ .rsp → r ≠ .rbp → s.regs r = s₀.regs r) ∧
      ∀ x, (x - s₀.regs .rsp).toNat + 48 < 2 ^ 64 → s.mem x = s₀.mem x := by
  refine ⟨fun r hsp hbp => execCode_regs (fun e he => ?_) h, fun x hx => ?_⟩
  · unfold frameCode at he
    have hdest : ∀ r', r ∉ (push r').instr.destRegs := fun r' => by
      show r ∉ [Reg.rsp]
      simp [hsp]
    have hmov : r ∉ (movRegReg .rbp .rsp).instr.destRegs := by
      show r ∉ [Reg.rbp]
      simp [hbp]
    have hsub : r ∉ (subRsp (BitVec.ofNat 32 size)).instr.destRegs := by
      show r ∉ [Reg.rsp]
      simp [hsp]
    rcases List.mem_append.mp he with he | he
    · simp only [List.mem_cons, List.not_mem_nil, or_false] at he
      rcases he with rfl | rfl | he
      · exact hdest _
      · exact hmov
      · rcases he with rfl | rfl | rfl | rfl | rfl <;> exact hdest _
    · split at he
      · rw [List.mem_singleton.mp he]
        exact hsub
      · cases he
  · have hsplit : frameCode size = [Reg.rbp].map push ++ ([movRegReg .rbp .rsp] ++
        ([Reg.rbx, .r12, .r13, .r14, .r15].map push ++
          if size > 0 then [subRsp (BitVec.ofNat 32 size)] else [])) := rfl
    rw [hsplit, execCode_append] at h
    obtain ⟨s₁, hs₁, h₁⟩ := Option.bind_eq_some_iff.mp h
    rw [execCode_append] at h₁
    obtain ⟨s₂, hs₂, h₂⟩ := Option.bind_eq_some_iff.mp h₁
    rw [execCode_append] at h₂
    obtain ⟨s₃, hs₃, h₃⟩ := Option.bind_eq_some_iff.mp h₂
    obtain ⟨hrsp₁, -, -⟩ := exec_pushes (by decide) 1 (by decide) hs₁
    rw [execCode_one] at hs₂
    obtain rfl : s₁.setReg .rbp (s₁.regs .rsp) = s₂ := Option.some.inj hs₂
    have hrsp₂ : (s₁.setReg .rbp (s₁.regs .rsp)).regs .rsp = s₁.regs .rsp :=
      s₁.setReg_of_ne _ (by decide)
    have hmem : s.mem = s₃.mem := by
      refine execCode_mem (fun e he => ?_) h₃
      split at he
      · rw [List.mem_singleton.mp he]
        rfl
      · cases he
    have hlen : [Reg.rbp].length = 1 := rfl
    have hlen₃ : [Reg.rbx, .r12, .r13, .r14, .r15].length = 5 := rfl
    rw [hmem, exec_pushes_mem (by decide) hs₃ (by rw [hrsp₂, hrsp₁, hlen, hlen₃]; bv_omega)]
    exact exec_pushes_mem (by decide) hs₁ (by rw [hlen]; bv_omega)

/-! ## The whole prologue -/

/-- The address of the slot of a local, seen from the entry of its function. -/
def entrySlot (s₀ : State) (i : Nat) : Word :=
  s₀.regs .rsp - 8 + (getLocalOffset i).signExtend 64

/-- What the prologue leaves of the parameters and of memory. -/
structure ParamsPlaced (room : Nat) (ctx : JITContext) (f : IRFunction) (args : List Word)
    (s₀ s : State) : Prop where
  params : ∀ k (hk : k < args.length),
    contents s ((ctx.entered f args.length).vregMap (k + 1)) = args[k]
  slots : ∀ i < f.stackCount,
    contents s (.stack (getLocalOffset i)) = read64 s₀.mem (entrySlot s₀ i)
  above : SameBytes (s₀.regs .rsp) room s₀.mem s.mem

/-- The word in the place of an argument. -/
def argWord (s : State) (k : Nat) : Word :=
  if k < 6 then s.regs (argRegisters.getD k .rax)
  else read64 s.mem (s.regs .rsp + 8 + BitVec.ofNat 64 (8 * (k - 6)))

section

variable {args : List Word} {s₀ s₁ : State}

theorem getElem_argRegisters {k : Nat} (hk : k < argRegisters.length) :
    argRegisters[k] = argRegisters.getD k .rax := by
  rw [List.getD_eq_getElem?_getD, List.getElem?_eq_getElem hk, Option.getD_some]

/-- Every argument is in its place. -/
theorem Entry.word (h : Entry args s₀) {k : Nat} (hk : k < args.length) :
    argWord s₀ k = args[k] := by
  have hregsLen : argRegisters.length = 10 := rfl
  unfold argWord
  split
  · rename_i hlt
    have htake : k < (args.take 6).length := by
      rw [List.length_take]
      omega
    have hmap : k < ((argRegisters.take (args.take 6).length).map s₀.regs).length := by
      rw [h.regs]
      exact htake
    have hget := List.getElem_of_eq h.regs hmap
    rw [List.getElem_map, List.getElem_take, List.getElem_take,
      getElem_argRegisters (by omega)] at hget
    exact hget
  · rename_i hge
    have hwords : k - 6 < (wordsAt s₀.mem (s₀.regs .rsp + 8) (args.length - 6)).length := by
      rw [wordsAt_length]
      omega
    have hget := List.getElem_of_eq h.stack hwords
    rw [getElem_wordsAt, List.getElem_drop] at hget
    rw [hget]
    congr 1
    omega

/-- Behind the code of the frame the arguments are still where the caller put them. -/
theorem Entry.source (h : Entry args s₀) (hlen : args.length < 2 ^ 16)
    (hregs : ∀ r, r ≠ .rsp → r ≠ .rbp → s₁.regs r = s₀.regs r)
    (hmem : ∀ x, (x - s₀.regs .rsp).toNat + 48 < 2 ^ 64 → s₁.mem x = s₀.mem x)
    (hrbp : s₁.regs .rbp = s₀.regs .rsp - 8) (j : Nat) (hj : j < args.length) :
    contents s₁ (paramSource j) = args[j] := by
  rw [← h.word hj]
  unfold paramSource argWord
  split
  · rename_i hlt
    have hregsLen : argRegisters.length = 10 := rfl
    have hne : argRegisters[j] ≠ .rsp ∧ argRegisters[j] ≠ .rbp :=
      argRegisters_free _ (List.getElem_mem _)
    rw [← getElem_argRegisters (by omega), contents_reg, hregs _ hne.1 hne.2]
  · rename_i hge
    have hsmall : 16 + (j - 6) * 8 < 2 ^ 31 := by omega
    have hoff : (paramOffset j).signExtend 64 = BitVec.ofNat 64 (16 + (j - 6) * 8) :=
      signExtend_ofNat hsmall
    have haddr : slotAddress s₁ (paramOffset j) =
        s₀.regs .rsp + 8 + BitVec.ofNat 64 (8 * (j - 6)) := by
      unfold slotAddress
      rw [hrbp, hoff]
      bv_omega
    rw [contents_stack, haddr]
    refine read64_congr fun i hi => hmem _ ?_
    bv_omega

end

/-- The slots are below what the prologue pushes. -/
theorem entrySlot_below (s₀ : State) {i : Nat} (hi : i < 2 ^ 16) {k : Nat} (hk : k < 8) :
    (entrySlot s₀ i + BitVec.ofNat 64 k - s₀.regs .rsp).toNat + 48 < 2 ^ 64 := by
  have hsext : (getLocalOffset i).signExtend 64 = BitVec.ofInt 64 (getLocalOffset i).toInt := rfl
  have hneg : (getLocalOffset i).signExtend 64 = -(BitVec.ofNat 64 (48 + (i + 1) * 8)) := by
    rw [hsext, getLocalOffset_toInt (by omega), BitVec.ofInt_neg]
    rfl
  unfold entrySlot
  rw [hneg]
  bv_omega

/-- The prologue moves every argument to the location of its parameter. -/
theorem prologue_placed {room : Nat} (ctx : JITContext) {f : IRFunction} {args : List Word}
    (hstack : f.stackCount ≤ maxIrInstructionsPerFunction)
    (hvreg : f.vregCount ≤ maxIrInstructionsPerFunction) (hlen : args.length < 2 ^ 16)
    (hroom : room < 2 ^ 62) {s₀ s : State} (hentry : Entry args s₀)
    (hexec : execCode (prologueOf ctx f args.length) s₀ = some s) :
    ParamsPlaced room ctx f args s₀ s := by
  have hmax : maxIrInstructionsPerFunction = 65536 := rfl
  have hmax' : maxVregsPerFunction = 65536 := rfl
  obtain ⟨s₁, hs₁, hs⟩ := Option.bind_eq_some_iff.mp ((execCode_append _ _ _).symm.trans hexec)
  obtain ⟨hregs, hmem⟩ := exec_frameCode_frame hs₁
  obtain ⟨hrbp, -, -⟩ := exec_frameCode (stackSize_lt hstack hvreg) hs₁
  have halloc : (ctx.entered f args.length).Allocated :=
    (fresh_allocated ctx f.stackCount).touchAll _
  have hbase : (ctx.entered f args.length).stackBase = f.stackCount :=
    JITContext.touchAll_stackBase _ _
  have hne : ∀ j < args.length, (ctx.entered f args.length).vregMap (j + 1) ≠ .none := by
    intro j hj
    refine JITContext.touchAll_ne_none _ _ ?_
    rw [List.mem_range'_1]
    omega
  have hplaced : ∀ j < args.length, WellPlaced f.stackCount
      ((ctx.entered f args.length).vregMap (j + 1)) :=
    fun j hj => entered_wellPlaced ctx hstack (by omega) hj
  have hstart : Moved (room + 48) (ctx.entered f args.length).vregMap args s₁ 0 s₁ :=
    ⟨fun _ _ hlt => absurd hlt (Nat.not_lt_zero _),
      fun j hj _ => hentry.source hlen hregs hmem hrbp j hj, rfl, fun _ _ _ => rfl, .refl _ _ _⟩
  obtain ⟨s', hrun, hmoved⟩ := exec_paramsCode hstart hlen (by omega) (by omega)
    (fun j hj => halloc.usable (hne j hj)) hplaced
    (fun i hi j hj heq => by
      have := halloc.inj (by omega) (by omega) (by omega) (hne i hi) heq
      omega) (Nat.zero_add _)
  obtain rfl : s = s' := Option.some.inj (hs.symm.trans hrun)
  refine ⟨fun k hk => hmoved.done k hk hk, fun i hi => ?_, ?_⟩
  · rw [hmoved.slots _ (getLocalOffset_aligned i) fun j hj =>
      halloc.ne_local (by omega) (by omega) (by omega)]
    rw [contents_stack, slotAddress, hrbp]
    exact read64_congr fun k hk => hmem _ (entrySlot_below s₀ (by omega) hk)
  · have hframe : SameBytes (s₀.regs .rsp) room s₀.mem s₁.mem := fun x hx => hmem x (by omega)
    refine hframe.trans (hmoved.above.mono ?_)
    rw [hrbp]
    bv_omega

end TinyCompile.Jit
