import TinyCompile.Arena.Disjoint
import TinyCompile.Parser.RoundTrip

set_option autoImplicit false

/-!
# Parser: the array of the parameters

`parse_function` takes memory for 16 parameters from the arena, stores each parameter behind
the one before it, and does not compare their number with the room.
-/

namespace TinyCompile.Parser

open TinyCompile.Source TinyCompile.Logic TinyCompile.Arena

/-! ## Where the parameters are stored -/

/-- `sizeof(Parameter)`. -/
def sizeofParameter : Nat := 24

/-- The size of the allocation of `parse_function`. -/
def paramArraySize : Nat := sizeofParameter * paramCapacity

/-- `params[i]`, where the array is at `base`. -/
def paramSlot (base i : Nat) : Allocation := ⟨base + sizeofParameter * i, sizeofParameter⟩

/-- The parameters of a function are stored: they are those of the source, each in the array,
and apart from all that is allocated while the array is in use. -/
structure ParamsStored (node : ASTNode) (params : List Parameter) : Prop where
  faithful : node.params = params
  inside : ∀ base i, i < node.params.length → base ≤ (paramSlot base i).ptr ∧
    (paramSlot base i).ptr + (paramSlot base i).size ≤ base + paramArraySize
  kept : ∀ (page : PageSize) (mmap : Mmap page) (size align base i ptr : Nat)
    (a a' : Arena.State), i < node.params.length → ArenaRun page Harmless a →
    ⟨base, paramArraySize⟩ ∈ a.live → Proper a (.alloc mmap size align) →
    Harmless a (.alloc mmap size align) →
    Arena.step a (.alloc mmap size align) = .ok (some ptr, a') →
    Apart ptr size (paramSlot base i).ptr (paramSlot base i).size

theorem paramSlot_inside_iff (base i : Nat) : base ≤ (paramSlot base i).ptr ∧
    (paramSlot base i).ptr + (paramSlot base i).size ≤ base + paramArraySize ↔
      i < paramCapacity := by
  unfold paramSlot paramArraySize paramCapacity sizeofParameter
  simp only
  omega

/-- What is apart from the array is apart from each parameter in it. -/
theorem paramSlot_apart {base i ptr size : Nat} (hi : i < paramCapacity)
    (h : Apart ptr size base paramArraySize) :
    Apart ptr size (paramSlot base i).ptr (paramSlot base i).size := by
  obtain ⟨hlo, hhi⟩ := (paramSlot_inside_iff base i).mpr hi
  unfold Apart at h ⊢
  omega

theorem paramsStored_of_le {node : ASTNode} {params : List Parameter}
    (hparams : node.params = params) (hroom : params.length ≤ paramCapacity) :
    ParamsStored node params where
  faithful := hparams
  inside := fun base i hi => by
    rw [hparams] at hi
    exact (paramSlot_inside_iff base i).mpr (Nat.lt_of_lt_of_le hi hroom)
  kept := fun page mmap size align base i ptr a a' hi hrun hlive hproper hharmless hstep => by
    rw [hparams] at hi
    obtain ⟨r, a'', hstep', hreturns⟩ := (hrun.sound.step hproper hharmless :)
    cases hstep.symm.trans hstep'
    exact paramSlot_apart (Nat.lt_of_lt_of_le hi hroom) ((hreturns.2 _ rfl).apart _ hlive)

theorem not_paramsStored {node : ASTNode} {params : List Parameter}
    (hparams : node.params = params) (hlong : paramCapacity < params.length) :
    ¬ ParamsStored node params := by
  intro h
  rw [← hparams] at hlong
  exact Nat.lt_irrefl _ ((paramSlot_inside_iff 0 paramCapacity).mp (h.inside 0 _ hlong))

/-- Where the current block has room, what is allocated after the array begins at its end,
and overlaps the parameter behind the last one in the array. -/
theorem nextAllocation_overlaps {page : PageSize} {mmap mmap' : Mmap page} {base size : Nat}
    {a a₁ : Arena.State} (hrun : ArenaRun page Harmless a)
    (hproper : Proper a (.alloc mmap paramArraySize defaultAlignment))
    (hharmless : Harmless a (.alloc mmap paramArraySize defaultAlignment))
    (harray : Arena.step a (.alloc mmap paramArraySize defaultAlignment) = .ok (some base, a₁))
    (hsize : size ≠ 0) (hproper' : Proper a₁ (.alloc mmap' size defaultAlignment))
    (hroom : ∀ b, IsCurrent mmap' size a₁ b → HasRoom size defaultAlignment b) :
    ∃ ptr a₂, Arena.step a₁ (.alloc mmap' size defaultAlignment) = .ok (some ptr, a₂) ∧
      ¬ Apart ptr size (paramSlot base paramCapacity).ptr
        (paramSlot base paramCapacity).size := by
  obtain ⟨r, a₁', hstep, hsound, hreturns, hoffset⟩ := hrun.sound.alloc hproper hharmless
  cases harray.symm.trans hstep
  obtain ⟨b, rest, hblocks, hend⟩ := hoffset base rfl
  have hcurrent : IsCurrent mmap' size a₁ b := by
    refine ⟨rest, ?_⟩
    unfold arenaFirstBlock
    rw [hblocks]
  have hb : b ∈ a₁.arena.blocks := by
    rw [hblocks]
    exact .head _
  obtain ⟨haddr, -, hlimit⟩ := hsound.mapped.bounds b hb
  have hroom := hroom b hcurrent
  have hwrap := hproper'.2.2.2 b hcurrent
  have hfits : b.offset + paddingAt b defaultAlignment + size ≤ b.size := by
    unfold HasRoom at hroom
    rwa [wrap_of_lt (n := b.offset + paddingAt b defaultAlignment) (by omega),
      wrap_of_lt hwrap] at hroom
  -- the array ends at an aligned address, so that there is no padding
  have hpadding : paddingAt b defaultAlignment = 0 := by
    obtain ⟨hlt, hzero⟩ := paddingAt_spec b hproper'.1 hproper'.2.1
    have haligned := (hreturns base rfl).aligned
    rw [wrap_of_lt (by omega), hend] at hzero
    unfold paramArraySize sizeofParameter paramCapacity defaultAlignment at *
    omega
  have halloc := arenaAllocAligned_hasRoom mmap' hsize hproper'.1 hblocks
    (hsound.mapped.mapped b hb) hroom
  rw [take_of_fits hsize haddr hlimit hfits, hpadding, Nat.add_zero, hend] at halloc
  refine ⟨base + paramArraySize, _, by simp only [Arena.step, halloc]; rfl, ?_⟩
  unfold paramSlot Apart paramArraySize sizeofParameter
  simp only
  omega

/-! ## The parameters of a function -/

/-- The tokens of a function up to the closing parenthesis. -/
inductive DerivesHead : List Token → List Parameter → Prop
  | mk {ty name l r : Token} {ps : List Token} {params : List Parameter}
      (hty : isTypeKeyword ty.text = true) (hname : name.type = .identifier)
      (hl : l.type = .lparen) (hparams : DerivesParams ps params) (hr : r.type = .rparen) :
      DerivesHead (ty :: name :: l :: (ps ++ [r])) params

theorem wp_any {α : Type} (x : ParseM α) (s : Parser) :
    wp (fun _ => True) x (fun _ _ => True) s :=
  wp_intro (fun _ _ _ => trivial) fun _ _ => trivial

/-- Whatever stands behind its head, a function has the parameters of the source. -/
theorem parseFunction_params {head rest : List Token} {params : List Parameter} {fuel : Nat}
    {s s' : Parser} {node : ASTNode} (hhead : DerivesHead head params)
    (htokens : s.tokens = head ++ rest) (hpanic : s.panicMode = false)
    (hdepth : s.exprDepth = 0) (hfuel : s.tokens.length < fuel)
    (hrun : parseFunction fuel s = .ok (node, s')) : node.params = params := by
  cases hhead with
  | @mk ty name l r ps params hty hname hl hparams hr =>
    have hs : At 0 s.errors (ty :: name :: l :: (ps ++ r :: rest)) s :=
      ⟨by rw [htokens]; simp, hpanic, rfl, hdepth⟩
    rw [hs.tokens] at hfuel
    have hlen : (ps ++ r :: rest).length < fuel := by
      simp only [List.length_cons] at hfuel
      omega
    have hnever : ∀ stop : Stop, Never stop → True := fun _ _ => trivial
    have hread : wp (fun _ => True) (parseFunction fuel)
        (fun node _ => node.params = params) s := by
      unfold parseFunction
      rw [wp_bind]
      refine wp_stop (At.parseType hs hty ?_) hnever
      have hadvance := hs.advance
      simp only [wp_bind, wp_get]
      rw [if_neg (by simp [hadvance.panic])]
      obtain ⟨hname', -⟩ := hadvance.consume hname "expected function name."
      obtain ⟨hparen, -⟩ := hname'.consume hl "expected '(' after function name."
      simp only [wp_bind, wp_modify, wp_get]
      refine wp_mono (wp_stop (wp_parseParamList hparams hr hparen hlen) hnever) ?_
      rintro params' s₁ ⟨-, rfl⟩
      refine wp_mono (wp_any _ _) fun isPrototype s₂ _ => ?_
      refine wp_ite (fun _ => ?_) fun _ => ?_
      · simp only [wp_bind, wp_newNode, wp_get, wp_pure]
        rfl
      · refine wp_seq (wp_any _ _) fun body s₃ _ => ?_
        simp only [wp_bind, wp_newNode, wp_get, wp_pure]
        rfl
    exact (wp_of_ok hrun hread :)

/-- The text of a function up to the closing parenthesis. -/
def printHead (returnType : DataType) (name : StringView) (params : List Parameter) :
    List Lexeme :=
  printDecl returnType name ++ mark .lparen :: (printParams params ++ [mark .rparen])

theorem printHead_derives {returnType : DataType} {name : StringView} {params : List Parameter}
    (hnames : params.all (fun param => isName param.name) = true)
    (hfirst : params.head?.all (fun param => param.type != .void) = true) {ts : List Token}
    (hts : ts.map Token.lexeme = printHead returnType name params) : DerivesHead ts params := by
  unfold printHead at hts
  obtain ⟨ty, x, ls, rfl, -, hkw, -, hx, -, hls⟩ := lexemes_decl hts
  obtain ⟨l, us, rfl, hl, hus⟩ := lexemes_cons hls
  obtain ⟨ps, rs, rfl, hps, hrs⟩ := lexemes_append hus
  obtain ⟨r, bs, rfl, hr, hbs⟩ := lexemes_cons hrs
  obtain rfl := lexemes_nil hbs
  exact .mk hkw hx (lexeme_eq hl).1 (params_derive hnames hfirst hps) (lexeme_eq hr).1

/-- The state in front of the first function of a file. -/
def atFile (data : StringView) : Parser := parserInit (tokenStream data) "a.c" 0 .init

/-- A run that returns and leaves no error. -/
def returnsQuietly (r : Except Stop (ASTNode × Parser)) : Bool :=
  match r with
  | .ok (_, s') => s'.errors.nodes.isEmpty
  | .error _ => false

theorem exists_of_returnsQuietly {r : Except Stop (ASTNode × Parser)}
    (h : returnsQuietly r = true) : ∃ node s', r = .ok (node, s') ∧ s'.errors.nodes = [] := by
  cases r with
  | ok r => exact ⟨r.1, r.2, rfl, List.isEmpty_iff.mp h⟩
  | error e => cases h

/-- The parameters of a function are stored if and only if there are at most 16. -/
theorem paramsStored_iff {head rest : List Token} {params : List Parameter} {fuel : Nat}
    {s s' : Parser} {node : ASTNode} (hhead : DerivesHead head params)
    (htokens : s.tokens = head ++ rest) (hpanic : s.panicMode = false)
    (hdepth : s.exprDepth = 0) (hfuel : s.tokens.length < fuel)
    (hrun : parseFunction fuel s = .ok (node, s')) :
    ParamsStored node params ↔ params.length ≤ paramCapacity := by
  have hparams := parseFunction_params hhead htokens hpanic hdepth hfuel hrun
  constructor
  · intro h
    exact Nat.le_of_not_lt fun hlong => not_paramsStored hparams hlong h
  · exact paramsStored_of_le hparams

/-- One parameter is stored. -/
theorem paramsStored_iff_one : ∃ node s',
    parseFunction 20 (atFile (svOf "int f(int a);")) = .ok (node, s') ∧
      (ParamsStored node [⟨svOf "a", .int⟩] ↔
        [(⟨svOf "a", .int⟩ : Parameter)].length ≤ paramCapacity) := by
  have hhead : ((atFile (svOf "int f(int a);")).tokens.take 6).map Token.lexeme =
      printHead .int (svOf "f") [⟨svOf "a", .int⟩] := by decide +kernel
  have hderives := printHead_derives (by decide +kernel) (by decide +kernel) hhead
  have hlength : (atFile (svOf "int f(int a);")).tokens.length < 20 := by decide +kernel
  have hquiet : returnsQuietly (parseFunction 20 (atFile (svOf "int f(int a);"))) = true := by
    decide +kernel
  obtain ⟨node, s', hrun, -⟩ := exists_of_returnsQuietly hquiet
  exact ⟨node, s', hrun, paramsStored_iff hderives (List.take_append_drop 6 _).symm rfl rfl
    hlength hrun⟩

/-- The parameters of `seventeenParams`. -/
def seventeen : List Parameter :=
  ["a", "b", "c", "d", "e", "g", "h", "i", "j", "k", "l", "m", "n", "o", "p", "q", "r"].map
    fun name => ⟨svOf name, .int⟩

/-- Of 17 parameters the last is not stored in the array, and no error is recorded. -/
theorem seventeenParams_notStored : ¬ ∀ (head rest : List Token) (params : List Parameter)
    (fuel : Nat) (s s' : Parser) (node : ASTNode), DerivesHead head params →
    s.tokens = head ++ rest → s.panicMode = false → s.exprDepth = 0 →
    s.tokens.length < fuel → parseFunction fuel s = .ok (node, s') →
    s.errors.nodes.length < s'.errors.nodes.length ∨ ParamsStored node params := by
  intro h
  have hhead : ((atFile seventeenParams).tokens.take 54).map Token.lexeme =
      printHead .int (svOf "f") seventeen := by decide +kernel
  have hderives := printHead_derives (by decide +kernel) (by decide +kernel) hhead
  have htokens := (List.take_append_drop 54 (atFile seventeenParams).tokens).symm
  have hlength : (atFile seventeenParams).tokens.length < 60 := by decide +kernel
  have hquiet : returnsQuietly (parseFunction 60 (atFile seventeenParams)) = true := by
    decide +kernel
  obtain ⟨node, s', hrun, herrors⟩ := exists_of_returnsQuietly hquiet
  rcases h _ _ _ _ _ _ _ hderives htokens rfl rfl hlength hrun with herr | hstored
  · rw [herrors] at herr
    exact absurd herr (Nat.not_lt_zero _)
  · exact not_paramsStored (parseFunction_params hderives htokens rfl rfl hlength hrun)
      (by decide) hstored

end TinyCompile.Parser
