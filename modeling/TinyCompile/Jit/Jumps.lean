import TinyCompile.Jit.Bytes

set_option autoImplicit false

/-!
# Jit: jumps land on their labels
-/

namespace TinyCompile.Jit

open TinyCompile.Machine TinyCompile.X86 TinyCompile.Source TinyCompile.Ir

/-! ## Displacements of 32 bits -/

theorem toInt_ofNat_small {w b : Nat} (h : 2 * b < 2 ^ w) : (BitVec.ofNat w b).toInt = b := by
  have hb : (BitVec.ofNat w b).toNat = b := by
    rw [BitVec.toNat_ofNat, Nat.mod_eq_of_lt (by omega)]
  rw [BitVec.toInt_eq_toNat_of_lt (by rwa [hb]), hb]

/-- A displacement within a function fits into 32 bits. -/
theorem signExtend_sub {a b : Nat} (ha : a < 2 ^ 30) (hb : b < 2 ^ 30) :
    (BitVec.ofNat 32 b - BitVec.ofNat 32 a).signExtend 64 =
      BitVec.ofNat 64 b - BitVec.ofNat 64 a := by
  apply BitVec.eq_of_toInt_eq
  rw [BitVec.toInt_signExtend_of_le (by omega), BitVec.toInt_sub, BitVec.toInt_sub,
    toInt_ofNat_small (by omega), toInt_ofNat_small (by omega), toInt_ofNat_small (by omega),
    toInt_ofNat_small (by omega), Int.bmod_eq_of_le (by omega) (by omega),
    Int.bmod_eq_of_le (by omega) (by omega)]

/-- The 32-bit number in the four bytes before an address. -/
def dispBefore (mem : Mem) (ptr : Ptr) : BitVec 32 :=
  BitVec.ofNat 32 (leNat (readBytes mem (ptr - 4) 4))

/-! ## Where instructions start -/

/-- The conditional or unconditional jump of an instruction. -/
def jumpCond (inst : IRInstruction) : Option Cond :=
  match inst.opcode with
  | .jz => some .e
  | .jnz => some .ne
  | _ => none

/-- A jump instruction ends in its jump item. -/
theorem itemsOf_jump {inst : IRInstruction} {l : Nat} (h : inst.target = some l)
    (loc : Nat → Location) (pending : List Nat) :
    ∃ init, itemsOf loc pending inst = init ++ [.jump (jumpCond inst) l] := by
  unfold IRInstruction.target at h
  split at h
  · rename_i hop
    obtain rfl : inst.labelId = l := by simpa using h
    exact ⟨[], by simp [itemsOf, hop, jumpCond]⟩
  · rename_i hop
    obtain rfl : inst.labelId = l := by simpa using h
    exact ⟨(testCode (loc inst.src1)).map .code, by simp [itemsOf, hop, jumpCond]⟩
  · rename_i hop
    obtain rfl : inst.labelId = l := by simpa using h
    exact ⟨(testCode (loc inst.src1)).map .code, by simp [itemsOf, hop, jumpCond]⟩
  · cases h

/-- The offset behind some instructions of a function. -/
def endOffset (ctx : JITContext) (f : IRFunction) (p : Nat) (pre : List IRInstruction) : Nat :=
  (bytesOf (prologueOf ctx f p)).length + (ctx.entered f p).sizeOfAll pre

section

variable (ctx : JITContext) {f : IRFunction} (p : Nat) {pre post : List IRInstruction}
  {inst : IRInstruction}

theorem functionItems_split (h : f.instructions = pre ++ inst :: post) :
    ∃ before after, functionItems ctx f p = before ++
        itemsOf (((ctx.entered f p).afterAll pre).after inst).vregMap
          ((ctx.entered f p).afterAll pre).pendingCall inst ++ after ∧
      itemsSize before = endOffset ctx f p pre := by
  refine ⟨(prologueOf ctx f p).map .code ++ (ctx.entered f p).planItems pre,
    (((ctx.entered f p).afterAll pre).after inst).planItems post, ?_, ?_⟩
  · unfold functionItems
    rw [h, JITContext.planItems_append, JITContext.planItems]
    simp only [List.append_assoc]
  · rw [itemsSize_append, itemsSize_code, JITContext.planItems_size]
    rfl

theorem endOffset_snoc :
    endOffset ctx f p (pre ++ [inst]) =
      endOffset ctx f p pre + ((ctx.entered f p).afterAll pre).sizeOf inst := by
  unfold endOffset
  rw [JITContext.sizeOfAll_append]
  simp [JITContext.sizeOfAll, Nat.add_assoc]

/-- The jump of an instruction ends where the instruction ends. -/
theorem mem_layout_jump {l : Nat} (h : f.instructions = pre ++ inst :: post)
    (htarget : inst.target = some l) :
    ∃ o, (o, Item.jump (jumpCond inst) l) ∈ layout 0 (functionItems ctx f p) ∧
      dispOffset o (jumpCond inst) + 4 = endOffset ctx f p (pre ++ [inst]) := by
  obtain ⟨before, after, hitems, hsize⟩ := functionItems_split ctx p h
  obtain ⟨init, hinst⟩ := itemsOf_jump htarget
    (((ctx.entered f p).afterAll pre).after inst).vregMap
    ((ctx.entered f p).afterAll pre).pendingCall
  have hown : ((ctx.entered f p).afterAll pre).sizeOf inst =
      itemsSize init + (Item.jump (jumpCond inst) l).size := by
    unfold JITContext.sizeOf
    rw [hinst]
    simp
  refine ⟨itemsSize (before ++ init), ?_, ?_⟩
  · refine mem_layout_iff.mpr ⟨before ++ init, after, ?_, by simp⟩
    rw [hitems, hinst]
    simp
  · rw [endOffset_snoc, hown, itemsSize_append, hsize]
    simp only [dispOffset, Item.size]
    omega

/-- A label is where the instruction behind it starts. -/
theorem mem_layout_label (h : f.instructions = pre ++ inst :: post) (hop : inst.opcode = .label) :
    (endOffset ctx f p (pre ++ [inst]), Item.label inst.labelId) ∈
      layout 0 (functionItems ctx f p) := by
  obtain ⟨before, after, hitems, hsize⟩ := functionItems_split ctx p h
  have hown : ((ctx.entered f p).afterAll pre).sizeOf inst = 0 := by
    simp [JITContext.sizeOf, itemsOf, hop, Item.size]
  rw [endOffset_snoc, hown, ← hsize]
  refine mem_layout_iff.mpr ⟨before, after, ?_, by simp⟩
  rw [hitems]
  simp [itemsOf, hop]

theorem endOffset_le (h : f.instructions = pre ++ post) :
    endOffset ctx f p pre ≤ functionSize ctx f p := by
  unfold endOffset functionSize
  rw [h, JITContext.sizeOfAll_append]
  omega

end

/-! ## Jumps land -/

/-- What `jit_compile_function` leaves when it compiled a function. -/
theorem compiled_registered {f : IRFunction} {name : StringView} {p : Nat} {code : Ptr}
    {s s' : JITState} {result : JITResult}
    (hcompiled : jitCompileFunction f name p code s = some (.returned result, s'))
    (hresult : result.code ≠ 0) (hlimit : f.instructions.length < maxIrInstructionsPerFunction) :
    Compilable p f ∧ result = ⟨code, functionSize s.ctx f p⟩ ∧
      s' = { compiledState code f p s with ctx := { (compiledState code f p s).ctx with
        registry := s.ctx.registry ++ [⟨name, code, functionSize s.ctx f p⟩] } } := by
  have h := compilable_of_compiled hcompiled hresult
  rw [jitCompileFunction_returns h hlimit] at hcompiled
  obtain ⟨heq, rfl⟩ := Prod.mk.inj (Option.some.inj hcompiled)
  obtain rfl := Outcome.returned.inj heq
  refine ⟨h, ?_⟩
  unfold registeredState at hresult ⊢
  split
  · rename_i hfull
    rw [if_pos hfull] at hresult
    exact absurd rfl hresult
  · exact ⟨rfl, rfl⟩

/-- After a compilation no jump waits for a label, and the displacement in front of the
place a jump instruction ends at leads to the place its label instruction ends at. -/
theorem jumps_land {fresh : IRFunction} {root : ASTNode} {errors : ErrorContext}
    {filename : Option String} {g : GenState} {name : StringView} {p : Nat} {code : Ptr}
    {s s' : JITState} {result : JITResult}
    (hgen : irGen fresh root errors filename = .ok (true, g))
    (hcompiled : jitCompileFunction g.f name p code s = some (.returned result, s'))
    (hresult : result.code ≠ 0) (hfits : code.toNat + result.size < 2 ^ 64) :
    s'.ctx.patches = [] ∧
      ∀ pre inst post l, g.f.instructions = pre ++ inst :: post → inst.target = some l →
        (∃ pre' label post', g.f.instructions = pre' ++ label :: post' ∧
          label.labelDef = some l) ∧
        ∀ pre' label post', g.f.instructions = pre' ++ label :: post' →
          label.labelDef = some l →
          ∃ ptr dest st st', passTwo g.f p code result.size (pre ++ [inst]) s =
              some (some ptr, st) ∧
            passTwo g.f p code result.size (pre' ++ [label]) s = some (some dest, st') ∧
            ptr + (dispBefore s'.mem ptr).signExtend 64 = dest := by
  obtain ⟨hlabels, hlimit⟩ := irGen_labels hgen
  obtain ⟨h, rfl, rfl⟩ := compiled_registered hcompiled hresult hlimit
  have hbuf : Buffer code (functionSize s.ctx g.f p) := ⟨hresult, hfits⟩
  have hwritten := compiledState_written h hlabels hbuf
  have hclosed : ∀ c l, Item.jump c l ∈ functionItems s.ctx g.f p →
      Item.label l ∈ functionItems s.ctx g.f p := fun c l => functionItems_closed hlabels _ _
  have hsize := functionSize_le h hlimit s.ctx
  refine ⟨?_, ?_⟩
  · -- every jump has its label by now, so none is waiting
    refine List.eq_nil_iff_forall_not_mem.mpr fun q hq => ?_
    obtain ⟨hno, o, c, hj, -⟩ := hwritten.patches q hq
    exact hno (hclosed c _ (mem_of_mem_layout hj))
  · intro pre inst post l hsplit htarget
    refine ⟨?_, ?_⟩
    · have hmem : l ∈ labelsOf g.f.instructions := by
        refine hlabels.targets l (List.mem_filterMap.mpr ⟨inst, ?_, htarget⟩)
        rw [hsplit]
        simp
      obtain ⟨label, hlabel, hdef⟩ := List.mem_filterMap.mp hmem
      obtain ⟨pre', post', heq⟩ := List.append_of_mem hlabel
      exact ⟨pre', label, post', heq, hdef⟩
    · intro pre' label post' hsplit' hdef
      obtain ⟨hop, rfl⟩ : label.opcode = .label ∧ label.labelId = l := by
        unfold IRInstruction.labelDef at hdef
        split at hdef
        · exact ⟨‹_›, by simpa using hdef⟩
        · cases hdef
      obtain ⟨o, hj, hend⟩ := mem_layout_jump s.ctx p hsplit htarget
      have hl := mem_layout_label s.ctx p hsplit' hop
      have hsplit₁ : g.f.instructions = (pre ++ [inst]) ++ post := by simp [hsplit]
      have hsplit₂ : g.f.instructions = (pre' ++ [label]) ++ post' := by simp [hsplit']
      refine ⟨_, _, _, _, passTwo_eq h hsplit₁ code s, passTwo_eq h hsplit₂ code s, ?_⟩
      have hdisp := hwritten.resolved o _ _ _ hj hl
      have hle₁ := endOffset_le s.ctx p hsplit₁
      have hle₂ := endOffset_le s.ctx p hsplit₂
      have hbefore : at' code (endOffset s.ctx g.f p (pre ++ [inst])) - 4 =
          at' code (dispOffset o (jumpCond inst)) := by
        rw [← hend]
        unfold at'
        bv_omega
      have hread : dispBefore (compiledState code g.f p s).mem
          (at' code (endOffset s.ctx g.f p (pre ++ [inst]))) =
          BitVec.ofNat 32 (endOffset s.ctx g.f p (pre' ++ [label])) -
            BitVec.ofNat 32 (endOffset s.ctx g.f p (pre ++ [inst])) := by
        unfold dispBefore
        rw [hbefore, hdisp, ofNat_leNat_leBytes_four, relTo_at, hend]
      show at' code (endOffset s.ctx g.f p (pre ++ [inst])) +
        (dispBefore _ (at' code (endOffset s.ctx g.f p (pre ++ [inst])))).signExtend 64 =
          at' code (endOffset s.ctx g.f p (pre' ++ [label]))
      rw [hread, signExtend_sub (by omega) (by omega)]
      unfold at'
      bv_omega

theorem jumps_land_countDown :
    ∃ g result s', irGen .zeroed countDown .init none = .ok (true, g) ∧
      jitCompileFunction g.f (svOf "main") 1 0x1000#64 ⟨jitCtxInit, fun _ => 0⟩ =
        some (.returned result, s') ∧ s'.ctx.patches = [] := by
  obtain ⟨g, hgen, herrors, hlabels⟩ :=
    exists_of_generates (show generates .zeroed countDown .init none = true by decide +kernel)
  obtain ⟨hf, -, -, -⟩ := irGen_wellFormed hgen herrors
  have h := wellFormed_compilable hf hlabels
  obtain ⟨s', hcompiled⟩ := jitCompileFunction_registers h hf.limit (svOf "main") 0x1000#64
    (s := ⟨jitCtxInit, fun _ => 0⟩) (by decide)
  have hsize := functionSize_le h hf.limit jitCtxInit
  generalize functionSize jitCtxInit g.f countDown.params.length = size at hcompiled hsize
  have hfits : (0x1000#64 : Ptr).toNat + size < 2 ^ 64 := by
    simp only [BitVec.toNat_ofNat]
    omega
  have hcode : (0x1000#64 : Ptr) ≠ 0 := by decide
  exact ⟨g, ⟨_, size⟩, s', hgen, hcompiled, (jumps_land hgen hcompiled hcode hfits).1⟩

end TinyCompile.Jit
