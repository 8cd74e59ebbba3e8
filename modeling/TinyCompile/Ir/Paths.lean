import TinyCompile.Ir.Generated

set_option autoImplicit false

/-!
# Ir: control paths and well-formed code

What every later stage takes for granted: a register is written before it is read
on every way control can take, once only, labels are unique and jumps have one, and
the arguments of a call stand in a row before it.
-/

namespace TinyCompile.Ir

open TinyCompile.Source

/-! ## Control paths -/

/-- Control passes from instruction `i` to instruction `j`: to the next one, or to
the label a jump names. -/
inductive Flows (code : List IRInstruction) : Nat → Nat → Prop
  | next {i : Nat} {inst : IRInstruction} (hi : code[i]? = some inst)
      (hjmp : inst.opcode ≠ .jmp) (hret : inst.opcode ≠ .ret) : Flows code i (i + 1)
  | jump {i j l : Nat} {inst dest : IRInstruction} (hi : code[i]? = some inst)
      (htarget : inst.target = some l) (hj : code[j]? = some dest)
      (hlabel : dest.labelDef = some l) : Flows code i j

/-- A way from the entry to instruction `i`, and the instructions visited before it. -/
inductive ControlPath (code : List IRInstruction) : List Nat → Nat → Prop
  | entry : ControlPath code [] 0
  | step {visited : List Nat} {i j : Nat} (hpath : ControlPath code visited i)
      (hflow : Flows code i j) : ControlPath code (visited ++ [i]) j

/-- Behind the last label control has come straight down. -/
theorem ControlPath.passes {code : List IRInstruction} {visited : List Nat} {j k : Nat}
    (h : ControlPath code visited k) (hjk : j < k)
    (hlabels : ∀ i inst, j < i → i ≤ k → code[i]? = some inst → inst.labelDef = none) :
    j ∈ visited := by
  induction h with
  | entry => omega
  | step hpath hflow ih =>
    rename_i visited i k
    cases hflow with
    | next hi hjmp hret =>
      by_cases heq : j = i
      · simp [heq]
      · have hji : j < i := by omega
        have := ih hji fun i' inst h1 h2 => hlabels i' inst h1 (by omega)
        exact List.mem_append_left _ this
    | jump hi htarget hk hlabel =>
      have := hlabels k _ hjk (Nat.le_refl _) hk
      rw [hlabel] at this
      cases this

theorem split_of_getElem? {α : Type} {xs : List α} {i : Nat} {x : α} (h : xs[i]? = some x) :
    ∃ pre post, xs = pre ++ x :: post ∧ pre.length = i := by
  obtain ⟨hlt, rfl⟩ := List.getElem?_eq_some_iff.mp h
  refine ⟨xs.take i, xs.drop (i + 1), ?_, by rw [List.length_take]; omega⟩
  rw [List.getElem_cons_drop, List.take_append_drop]

/-- A register that is written before it is read is written on every way to the reader. -/
theorem WrittenBefore.onPath {p : Nat} {code : List IRInstruction} {visited : List Nat}
    {i v : Nat} {inst : IRInstruction} (h : WrittenBefore p code)
    (hpath : ControlPath code visited i) (hi : code[i]? = some inst) (hv : v ∈ inst.uses)
    (hp : p < v) : ∃ j ∈ visited, ∃ d, code[j]? = some d ∧ d.defines = some v := by
  obtain ⟨pre, post, hcode, rfl⟩ := split_of_getElem? hi
  obtain ⟨init, d, mid, rfl, hd, hlabels⟩ := h pre inst post hcode v hv hp
  have hj : code[init.length]? = some d := by simp [hcode]
  refine ⟨init.length, hpath.passes (by simp) ?_, d, hj, hd⟩
  intro k inst' hlow hhigh hk
  rw [List.length_append, List.length_cons] at hhigh
  rw [hcode, List.append_assoc, List.getElem?_append_right (by omega)] at hk
  obtain ⟨m, hm⟩ : ∃ m, k - init.length = m + 1 := ⟨k - init.length - 1, by omega⟩
  rw [hm, List.cons_append, List.getElem?_cons_succ] at hk
  by_cases hmid : m < mid.length
  · rw [List.getElem?_append_left hmid] at hk
    exact hlabels inst' (List.mem_of_getElem? hk)
  · -- the reader itself is no label, since a label reads nothing
    have hm' : m = mid.length := by omega
    obtain rfl : inst = inst' := by simpa [hm'] using hk
    cases hop : inst.opcode with
    | label => simp [IRInstruction.uses, hop] at hv
    | _ => simp [IRInstruction.labelDef, hop]

/-! ## Rows of arguments -/

/-- Consecutive arguments, numbered from zero. -/
def ArgRow (row : List IRInstruction) : Prop :=
  ∀ k arg, row[k]? = some arg → arg.opcode = .arg ∧ arg.imm = BitVec.ofNat 64 k

theorem ArgRow.snoc {row : List IRInstruction} {arg : IRInstruction} (h : ArgRow row)
    (hop : arg.opcode = .arg) (himm : arg.imm = BitVec.ofNat 64 row.length) :
    ArgRow (row ++ [arg]) := by
  intro k arg' hk
  by_cases hlt : k < row.length
  · rw [List.getElem?_append_left hlt] at hk
    exact h k arg' hk
  · obtain ⟨hbound, hk⟩ := List.getElem?_eq_some_iff.mp hk
    have hk' : k = row.length := by
      rw [List.length_append, List.length_singleton] at hbound
      omega
    subst hk'
    obtain rfl : arg = arg' := by simpa using hk
    exact ⟨hop, himm⟩

/-- The arguments of every call stand in a row right before it, with nothing else of
the kind before them, and every argument stands in such a row. -/
structure ArgumentRows (code : List IRInstruction) : Prop where
  call : ∀ pre call post, code = pre ++ call :: post → call.opcode = .call →
    ∃ init row, pre = init ++ row ∧ ArgRow row ∧
      ∀ init' inst, init = init' ++ [inst] → inst.opcode ≠ .arg
  arg : ∀ pre arg post, code = pre ++ arg :: post → arg.opcode = .arg →
    ∃ init before after call rest, pre = init ++ before ∧ post = after ++ call :: rest ∧
      ArgRow (before ++ arg :: after) ∧ call.opcode = .call

/-- The arguments that are pending behind scanned code. -/
theorem argScan_row {pre : List IRInstruction} {k : Nat} (h : argScan 0 pre = some k) :
    ∃ init row, pre = init ++ row ∧ row.length = k ∧ ArgRow row ∧
      ∀ init' inst, init = init' ++ [inst] → inst.opcode ≠ .arg := by
  induction pre using List.reverseRecOn generalizing k with
  | nil =>
    obtain rfl : 0 = k := by simpa [argScan] using h
    exact ⟨[], [], rfl, rfl, by simp [ArgRow], by simp⟩
  | append_singleton pre inst ih =>
    rw [argScan_append] at h
    obtain ⟨k₀, hpre, hlast⟩ := Option.bind_eq_some_iff.mp h
    -- behind anything but an argument no argument is pending
    have hother : inst.opcode ≠ .arg → k = 0 →
        ∃ init row, pre ++ [inst] = init ++ row ∧ row.length = k ∧ ArgRow row ∧
          ∀ init' inst', init = init' ++ [inst'] → inst'.opcode ≠ .arg := by
      rintro hop rfl
      refine ⟨pre ++ [inst], [], (List.append_nil _).symm, rfl, by simp [ArgRow], ?_⟩
      intro init' inst' heq
      obtain ⟨-, rfl⟩ := List.append_singleton_inj.mp heq
      exact hop
    simp only [argScan] at hlast
    split at hlast
    · rename_i hop
      split at hlast
      · rename_i himm
        obtain rfl : k₀ + 1 = k := by simpa using hlast
        obtain ⟨init, row, rfl, hlen, hrow, hinit⟩ := ih hpre
        refine ⟨init, row ++ [inst], by rw [List.append_assoc], by simp [hlen], ?_, hinit⟩
        exact hrow.snoc hop (by rw [himm, hlen])
      · cases hlast
    · rename_i hop
      exact hother (by simp [hop]) (by simpa using hlast.symm)
    · rename_i hop _
      split at hlast
      · exact hother hop (by simpa using hlast.symm)
      · cases hlast

/-- Pending arguments are followed by further ones and a call. -/
theorem argScan_rest {post row : List IRInstruction} (hrow : ArgRow row) (hne : row ≠ [])
    (h : argScan row.length post = some 0) :
    ∃ after call rest, post = after ++ call :: rest ∧ ArgRow (row ++ after) ∧
      call.opcode = .call := by
  have hpos : row.length ≠ 0 := fun h0 => hne (List.length_eq_zero_iff.mp h0)
  induction post generalizing row with
  | nil => exact absurd (by simpa [argScan] using h) hpos
  | cons inst post ih =>
    simp only [argScan] at h
    split at h
    · rename_i hop
      split at h
      · rename_i himm
        obtain ⟨after, call, rest, rfl, hrow', hcall⟩ :=
          ih (hrow.snoc hop himm) (by simp) (by simpa using h) (by simp)
        refine ⟨inst :: after, call, rest, rfl, ?_, hcall⟩
        simpa using hrow'
      · cases h
    · rename_i hop
      exact ⟨[], inst, post, rfl, by simpa using hrow, hop⟩
    · rw [if_neg hpos] at h
      cases h

theorem argumentRows_of_scan {code : List IRInstruction} (h : argScan 0 code = some 0) :
    ArgumentRows code := by
  refine ⟨?_, ?_⟩
  · rintro pre call post rfl -
    rw [argScan_append] at h
    obtain ⟨k, hpre, -⟩ := Option.bind_eq_some_iff.mp h
    obtain ⟨init, row, rfl, -, hrow, hinit⟩ := argScan_row hpre
    exact ⟨init, row, rfl, hrow, hinit⟩
  · rintro pre arg post rfl hop
    rw [argScan_append] at h
    obtain ⟨k, hpre, hrest⟩ := Option.bind_eq_some_iff.mp h
    obtain ⟨init, row, rfl, hlen, hrow, -⟩ := argScan_row hpre
    simp only [argScan, hop] at hrest
    split at hrest
    · rename_i himm
      rw [← hlen] at himm hrest
      obtain ⟨after, call, rest, rfl, hrow', hcall⟩ :=
        argScan_rest (hrow.snoc hop himm) (by simp) (by simpa using hrest)
      exact ⟨init, row, after, call, rest, rfl, rfl, by simpa using hrow', hcall⟩
    · cases hrest

/-! ## Well-formed code -/

/-- The code of a function with `p` parameters is well formed. -/
structure CodeWellFormed (p : Nat) (f : IRFunction) : Prop where
  /-- A register is a parameter or was written on every way to where it is read. -/
  assigned : ∀ visited i inst v, ControlPath f.instructions visited i →
    f.instructions[i]? = some inst → v ∈ inst.uses →
    (1 ≤ v ∧ v ≤ p) ∨ ∃ j ∈ visited, ∃ d, f.instructions[j]? = some d ∧ d.defines = some v
  /-- A register that is not a parameter is written by one instruction. -/
  once : ∀ v, p < v → v < f.vregCount →
    f.instructions.countP (fun inst => inst.defines = some v) = 1
  /-- A jump names a label that stands in the code once. -/
  jumps : ∀ inst ∈ f.instructions, ∀ l, inst.target = some l →
    f.instructions.countP (fun inst' => inst'.labelDef = some l) = 1
  labels : ∀ inst ∈ f.instructions, ∀ l, inst.labelDef = some l ∨ inst.target = some l →
    l < f.labelCount
  slots : ∀ inst ∈ f.instructions, ∀ i, inst.slot = some i → i < f.stackCount
  vregs : ∀ inst ∈ f.instructions, ∀ v, v ∈ inst.uses ∨ inst.defines = some v →
    1 ≤ v ∧ v < f.vregCount
  arguments : ArgumentRows f.instructions

theorem count_filterMap {α β : Type} [DecidableEq β] (f : α → Option β) (xs : List α) (b : β) :
    (xs.filterMap f).count b = xs.countP fun x => decide (f x = some b) := by
  induction xs with
  | nil => rfl
  | cons x xs ih =>
    cases hx : f x with
    | none => simp [hx, ih]
    | some b' => by_cases hb : b' = b <;> simp [hx, ih, hb]

/-- Every function that `ir_gen` returns without an error has well-formed code. -/
theorem irGen_codeWellFormed {fresh : IRFunction} {root : ASTNode} {errors : ErrorContext}
    {filename : Option String} {g : GenState}
    (hgen : irGen fresh root errors filename = .ok (true, g)) (herrors : g.f.errors = errors) :
    CodeWellFormed root.params.length g.f := by
  obtain ⟨h, -, -, -⟩ := irGen_wellFormed hgen herrors
  have hle := h.piece.le
  refine ⟨?_, ?_, ?_, ?_, h.piece.slots, ?_, argumentRows_of_scan h.piece.args⟩
  · intro visited i inst v hpath hi hv
    by_cases hp : root.params.length < v
    · exact .inr (h.piece.before.onPath hpath hi hv hp)
    · have := h.piece.uses inst (List.mem_of_getElem? hi) v hv
      exact .inl (by omega)
  · intro v hp hv
    have hcount : (ownWrites root.params.length g.f.instructions).count v = 1 := by
      rw [h.piece.once]
      exact List.count_eq_one_of_mem List.nodup_range' (mem_range'_sub (by omega) hv)
    rw [ownWrites, List.count_filter (by simpa using hp), writtenBy, count_filterMap] at hcount
    exact hcount
  · intro inst hi l hl
    have hmem : l ∈ labelsOf g.f.instructions :=
      h.labels.targets l (List.mem_filterMap.mpr ⟨inst, hi, hl⟩)
    have hcount := List.count_eq_one_of_mem h.labels.nodup hmem
    rwa [labelsOf, count_filterMap] at hcount
  · rintro inst hi l (hl | hl)
    · exact (h.labels.range l (List.mem_filterMap.mpr ⟨inst, hi, hl⟩)).2
    · have hmem := h.labels.targets l (List.mem_filterMap.mpr ⟨inst, hi, hl⟩)
      exact (h.labels.range l hmem).2
  · rintro inst hi v (hv | hv)
    · have := h.piece.uses inst hi v hv
      omega
    · have := h.piece.defines inst hi v hv
      omega

theorem irGen_codeWellFormed_callLoop :
    ∃ g, irGen .zeroed callLoop .init none = .ok (true, g) ∧
      CodeWellFormed callLoop.params.length g.f := by
  obtain ⟨g, hgen, herrors, -⟩ := callLoop_generated
  exact ⟨g, hgen, irGen_codeWellFormed hgen herrors⟩

end TinyCompile.Ir
