import TinyCompile.Parser.Sound

set_option autoImplicit false

/-!
# Parser: a file that is parsed without an error

Function heads go through an array of 16 parameters, which the parser does not compare
with their number.  Writing behind its end is no error of the parser; the mark it leaves
says that some function has more than 16 parameters.
-/

namespace TinyCompile.Parser

open TinyCompile.Source TinyCompile.Logic

/-! ## Steps that may leave the mark -/

/-- The state with the mark set to `b`. -/
def withOverrun (s : Parser) (b : Bool) : Parser := { s with overrun := b }

/-- A step that is sound but for the mark. -/
def SoundMarked (s s' : Parser) (R : List Token → Prop) : Prop :=
  Sound (withOverrun s s'.overrun) s' R

section

variable {s s' s'' : Parser} {R R' R'' : List Token → Prop}

theorem Sound.marked (h : Sound s s' R) (b : Bool) :
    Sound (withOverrun s b) (withOverrun s' b) R := by
  refine ⟨⟨h.1.tokens, h.1.errors, h.1.depth⟩, fun hpanic => ?_⟩
  rcases h.2 hpanic with herr | ⟨hcalm, ts, htokens, hts⟩
  · exact .inl herr
  · exact .inr ⟨⟨hcalm.errors, hcalm.panic, rfl⟩, ts, htokens, hts⟩

/-- A sound step leaves the mark alone. -/
theorem Sound.toMarked (h : Sound s s' R) :
    SoundMarked s s' (fun ts => R ts ∧ s'.overrun = s.overrun) := by
  refine ⟨⟨h.1.tokens, h.1.errors, h.1.depth⟩, fun hpanic => ?_⟩
  rcases h.2 hpanic with herr | ⟨hcalm, ts, htokens, hts⟩
  · exact .inl herr
  · exact .inr ⟨⟨hcalm.errors, hcalm.panic, rfl⟩, ts, htokens, hts, hcalm.overrun⟩

theorem SoundMarked.later (h : SoundMarked s s' R) : Later s s' :=
  ⟨h.1.tokens, h.1.errors, h.1.depth⟩

theorem SoundMarked.mono (h : SoundMarked s s' R) (hR : ∀ ts, R ts → R' ts) :
    SoundMarked s s' R' :=
  Sound.mono h hR

theorem SoundMarked.trans (h : SoundMarked s s' R) (h' : SoundMarked s' s'' R')
    (hR : ∀ ts ts', R ts → R' ts' → R'' (ts ++ ts')) : SoundMarked s s'' R'' :=
  Sound.trans (Sound.marked h s''.overrun) h' hR

theorem SoundMarked.absurd (h : SoundMarked s s' R) (hR : ∀ ts, ¬ R ts) (h' : Later s' s'') :
    SoundMarked s s'' R' :=
  Sound.absurd (Sound.marked h s''.overrun) hR ⟨h'.tokens, h'.errors, h'.depth⟩

theorem SoundMarked.newNode (h : SoundMarked s s' R) :
    SoundMarked s { s' with arena := s'.arena + 1 } R :=
  Sound.newNode h

/-- The first token that is taken is the next one. -/
theorem SoundMarked.first (h : SoundMarked s s' R) :
    SoundMarked s s' (fun ts => R ts ∧ ∀ t us, ts = t :: us → t = s.next) := by
  refine ⟨h.1, fun hpanic => ?_⟩
  rcases h.2 hpanic with herr | ⟨hcalm, ts, htokens, hts⟩
  · exact .inl herr
  · refine .inr ⟨hcalm, ts, htokens, hts, ?_⟩
    rintro t us rfl
    have hne : s.next.type ≠ .eof := by
      intro heof
      have hempty : s.tokens = [] := Parser.tokens_eq_nil.mpr heof
      have htokens' : s.tokens = (t :: us) ++ s'.tokens := htokens
      rw [hempty] at htokens'
      cases htokens'
    have htokens' : s.tokens = (t :: us) ++ s'.tokens := htokens
    rw [Parser.tokens_of_ne hne] at htokens'
    exact (List.cons.inj htokens').1.symm

end

/-! ## Parameters -/

/-- The mark after `k` parameters have been written. -/
def markAfter (before : Bool) (k : Nat) : Bool := before || decide (paramCapacity < k)

theorem markAfter_succ (before : Bool) (k : Nat) :
    (markAfter before k || decide (paramCapacity ≤ k)) = markAfter before (k + 1) := by
  unfold markAfter
  by_cases h : paramCapacity ≤ k
  · simp [h, Nat.lt_succ_of_le h]
  · simp [h, show ¬ paramCapacity < k by omega, show ¬ paramCapacity < k + 1 by omega]

/-- One more parameter, with what follows it. -/
theorem paramTurn_sound (params : List Parameter) (s : Parser) :
    wp OnlyNull (paramTurn params) (fun r s' =>
      match r with
      | .again params' => SoundMarked s s' (fun us => ∃ ps param c, us = ps ++ [c] ∧
          params' = params ++ [param] ∧ WritesParam ps param ∧ c.type = .comma ∧
          s'.overrun = (s.overrun || decide (paramCapacity ≤ params.length)))
      | .leave params' => SoundMarked s s' (fun us => ∃ param,
          params' = params ++ [param] ∧ WritesParam us param ∧
          s'.overrun = (s.overrun || decide (paramCapacity ≤ params.length)))) s := by
  unfold paramTurn
  refine wp_seq (parseType_sound s) fun paramType s₁ hs₁ => ?_
  simp only [wp_bind, wp_modify, wp_get]
  have hname := parserConsume_sound s₁ .identifier "expected parameter name" (by decide)
  have hparam : Sound s (parserConsume s₁ .identifier "expected parameter name") (fun ts =>
      WritesParam ts
        ⟨(parserConsume s₁ .identifier "expected parameter name").current.text, paramType⟩) := by
    refine hs₁.trans hname ?_
    rintro _ _ ⟨ty, rfl, rfl, hkw, rfl⟩ ⟨name, rfl, hkind, hcurrent⟩
    rw [hcurrent]
    exact ⟨s.next, name, rfl, hkw, hkind, rfl⟩
  generalize parserConsume s₁ .identifier "expected parameter name" = s₂ at hparam ⊢
  -- the mark is left where the array is full
  have hrest : ∀ s₃ : Parser, SoundMarked s s₃ (fun ts =>
      WritesParam ts ⟨s₂.current.text, paramType⟩ ∧
        s₃.overrun = (s.overrun || decide (paramCapacity ≤ params.length))) →
      wp OnlyNull (do
        if ← matchToken .comma then
          return Turn.again (params ++ [(⟨s₂.current.text, paramType⟩ : Parameter)])
        else return Turn.leave (params ++ [(⟨s₂.current.text, paramType⟩ : Parameter)]))
        (fun r s' =>
          match r with
          | .again params' => SoundMarked s s' (fun us => ∃ ps param c, us = ps ++ [c] ∧
              params' = params ++ [param] ∧ WritesParam ps param ∧ c.type = .comma ∧
              s'.overrun = (s.overrun || decide (paramCapacity ≤ params.length)))
          | .leave params' => SoundMarked s s' (fun us => ∃ param,
              params' = params ++ [param] ∧ WritesParam us param ∧
              s'.overrun = (s.overrun || decide (paramCapacity ≤ params.length)))) s₃ := by
    intro s₃ hs₃
    rw [wp_bind]
    refine wp_matchToken_sound (by decide) (fun s₄ _ hs₄ => ?_) fun _ => ?_
    · refine hs₃.trans hs₄.toMarked ?_
      rintro ts _ ⟨hts, hmark⟩ ⟨⟨c, rfl, hcomma⟩, hmark'⟩
      exact ⟨ts, _, c, rfl, rfl, hts, hcomma, hmark'.trans hmark⟩
    · refine hs₃.mono ?_
      rintro ts ⟨hts, hmark⟩
      exact ⟨_, rfl, hts, hmark⟩
  split
  · rename_i hfull
    refine hrest { s₂ with overrun := true } ((Sound.marked hparam true).mono fun ts hts => ?_)
    exact ⟨hts, by simp [hfull]⟩
  · rename_i hroom
    refine hrest s₂ (hparam.toMarked.mono ?_)
    rintro ts ⟨hts, hmark⟩
    exact ⟨hts, by rw [hmark, decide_eq_false hroom, Bool.or_false]⟩

/-- What stands between the parentheses of a function. -/
theorem parseParamList_sound {n : Nat} {s : Parser} (hs : s.tokens.length < n) :
    wp OnlyNull (parseParamList n) (fun params s' => SoundMarked s s' (fun ts =>
      DerivesParams ts params ∧ s'.overrun = markAfter s.overrun params.length)) s := by
  have hempty : markAfter s.overrun 0 = s.overrun := by simp [markAfter]
  unfold parseParamList
  simp only [wp_bind, wp_get]
  refine wp_ite (fun _ => ?_) fun _ => wp_ite (fun hvoid => ?_) fun hvoid => ?_
  · simp only [wp_pure]
    exact Sound.refl ⟨.none, hempty.symm⟩
  · simp only [wp_bind, wp_set, wp_pure]
    have hne : s.next.type ≠ .eof := by
      rw [hvoid]
      decide
    refine (parserAdvance_sound hne).toMarked.mono ?_
    rintro _ ⟨rfl, hmark⟩
    exact ⟨.void hvoid, hmark.trans hempty.symm⟩
  · refine wp_loop_sound
      (fun params s' => SoundMarked s s' (fun ts =>
        ListSoFar WritesParam params ts ∧ s'.overrun = markAfter s.overrun params.length)) _
      (fun params s' _ => paramTurn_ends params s') (fun params s' hinv => ?_) ?_ hs
    · refine wp_mono (paramTurn_sound params s') fun r s'' hr => ?_
      cases r with
      | again params' =>
        refine hinv.trans hr ?_
        rintro ts _ ⟨hts, hmark⟩ ⟨ps, param, c, rfl, rfl, hps, hcomma, hmark'⟩
        refine ⟨?_, ?_⟩
        · rw [← List.append_assoc]
          exact (hts.done hps).comma hcomma
        · rw [hmark', hmark, markAfter_succ, List.length_append, List.length_singleton]
      | leave params' =>
        have hall : SoundMarked s s'' (fun ts => ListDone WritesParam params' ts ∧
            s''.overrun = markAfter s.overrun params'.length) := by
          refine hinv.trans hr ?_
          rintro ts us ⟨hts, hmark⟩ ⟨param, rfl, hus, hmark'⟩
          refine ⟨hts.done hus, ?_⟩
          rw [hmark', hmark, markAfter_succ, List.length_append, List.length_singleton]
        refine hall.first.mono ?_
        rintro ts ⟨⟨⟨parts, rfl, hne, hparts, hsep⟩, hmark⟩, hfirst⟩
        refine ⟨.some hparts hsep ?_, hmark⟩
        obtain ⟨t, us, rfl, -⟩ := hsep.head (P := fun _ => True) (by simpa using hne)
          fun part hpart => by
            obtain ⟨part', hpart', rfl⟩ := List.mem_map.mp hpart
            obtain ⟨ty, name, hpart, -⟩ := hparts part' hpart'
            exact ⟨ty, [name], hpart, trivial⟩
        refine ⟨t, us, rfl, ?_⟩
        rw [hfirst t us rfl]
        exact hvoid
    · exact Sound.refl ⟨.inl ⟨rfl, rfl⟩, hempty.symm⟩

/-! ## Functions -/

/-- What `parse_function` yields. -/
def FunctionYields (before : Bool) (node : ASTNode) (s' : Parser) (ts : List Token) : Prop :=
  ∃ f, node.function? = some f ∧ DerivesFunction ts f ∧
    s'.overrun = markAfter before f.params.length

theorem parseFunction_sound {fuel : Nat} {s : Parser} (hs : s.tokens.length < fuel)
    (hdepth : s.exprDepth = 0) :
    wp OnlyNull (parseFunction fuel) (fun node s' =>
      SoundMarked s s' (FunctionYields s.overrun node s')) s := by
  unfold parseFunction
  refine wp_seq (parseType_sound s) fun returnType s₁ hs₁ => ?_
  simp only [wp_bind, wp_get]
  refine wp_ite (fun hpanic => ?_) fun _ => ?_
  · -- in panic mode an error has been recorded
    refine ⟨⟨hs₁.1.tokens, hs₁.1.errors, hs₁.1.depth⟩, fun hcalm => ?_⟩
    rcases hs₁.2 hcalm with herr | ⟨hcalm₁, -⟩
    · exact .inl herr
    · rw [hcalm₁.panic] at hpanic
      cases hpanic
  simp only [wp_bind, wp_modify, wp_get]
  have hname := parserConsume_sound s₁ .identifier "expected function name." (by decide)
  generalize parserConsume s₁ .identifier "expected function name." = s₂ at hname ⊢
  have hl := parserConsume_sound s₂ .lparen "expected '(' after function name." (by decide)
  generalize parserConsume s₂ .lparen "expected '(' after function name." = s₃ at hl ⊢
  have hhead : Sound s s₃ (fun ts => ∃ ty name l : Token, ts = [ty, name, l] ∧
      isTypeKeyword ty.text = true ∧ returnType = typeFromSv ty.text ∧ name.type = .identifier ∧
      s₂.current = name ∧ l.type = .lparen) := by
    refine (hs₁.append hname).trans hl ?_
    rintro _ _ ⟨_, _, rfl, ⟨ty, rfl, -, hkw, htype⟩, name, rfl, hkind, hcurrent⟩ ⟨l, rfl, hl, -⟩
    exact ⟨ty, name, l, rfl, hkw, htype, hkind, hcurrent, hl⟩
  refine wp_mono (parseParamList_sound (Nat.lt_of_le_of_lt hhead.1.length_le hs))
    fun params s₄ hs₄ => ?_
  have hr := parserConsume_sound s₄ .rparen "expected ')' after parameters." (by decide)
  generalize parserConsume s₄ .rparen "expected ')' after parameters." = s₅ at hr ⊢
  have hsignature : SoundMarked s s₅ (fun ts => ∃ (ty name l r : Token) (ps : List Token),
      ts = ty :: name :: l :: (ps ++ [r]) ∧ isTypeKeyword ty.text = true ∧
      returnType = typeFromSv ty.text ∧ name.type = .identifier ∧ s₂.current = name ∧
      l.type = .lparen ∧ DerivesParams ps params ∧ r.type = .rparen ∧
      s₅.overrun = markAfter s.overrun params.length) := by
    have hboth : SoundMarked s s₄ (fun ts => ∃ (ty name l : Token) (ps : List Token),
        ts = ty :: name :: l :: ps ∧ isTypeKeyword ty.text = true ∧
        returnType = typeFromSv ty.text ∧ name.type = .identifier ∧ s₂.current = name ∧
        l.type = .lparen ∧ DerivesParams ps params ∧
        s₄.overrun = markAfter s.overrun params.length) := by
      refine hhead.toMarked.trans hs₄ ?_
      rintro _ ps ⟨⟨ty, name, l, rfl, hkw, htype, hkind, hcurrent, hl⟩, hmark⟩ ⟨hps, hmark'⟩
      rw [hmark] at hmark'
      exact ⟨ty, name, l, ps, rfl, hkw, htype, hkind, hcurrent, hl, hps, hmark'⟩
    refine hboth.trans hr.toMarked ?_
    rintro _ _ ⟨ty, name, l, ps, rfl, hkw, htype, hkind, hcurrent, hl, hps, hmark⟩
      ⟨⟨r, rfl, hr, -⟩, hmark'⟩
    exact ⟨ty, name, l, r, ps, by simp, hkw, htype, hkind, hcurrent, hl, hps, hr,
      hmark'.trans hmark⟩
  refine wp_matchToken_sound (by decide) (fun s₆ _ hs₆ => ?_) fun _ => ?_
  · simp only [if_true, wp_bind, wp_pure, wp_newNode, wp_get]
    refine SoundMarked.newNode (hsignature.trans hs₆.toMarked ?_)
    rintro _ _ ⟨ty, name, l, r, ps, rfl, hkw, rfl, hkind, rfl, hl, hps, hr, hmark⟩
      ⟨⟨semi, rfl, hsemi⟩, hmark'⟩
    refine ⟨⟨s₂.current.text, typeFromSv ty.text, params, none⟩, rfl, ?_, hmark'.trans hmark⟩
    simpa using DerivesFunction.prototype hkw hkind hl hps hr hsemi
  · simp only [Bool.false_eq_true, if_false, wp_bind]
    have hlater := hsignature.later
    have hbrace := parserConsume_later s₅ .lbrace "Expected '\x7b'"
    have hlt := Nat.lt_of_le_of_lt (hlater.trans hbrace).length_le hs
    refine wp_mono (parseBlock_sound (parseStatement_ends fuel) (parseStatement_sound fuel) hlt
      (by rw [hlater.depth, hdepth])) fun body s₆ hs₆ => ?_
    simp only [wp_newNode, wp_get, wp_pure]
    refine SoundMarked.newNode (hsignature.trans hs₆.toMarked ?_)
    rintro _ bs ⟨ty, name, l, r, ps, rfl, hkw, rfl, hkind, rfl, hl, hps, hr, hmark⟩
      ⟨⟨b, hb, -, hbs⟩, hmark'⟩
    refine ⟨⟨s₂.current.text, typeFromSv ty.text, params, some b⟩, ?_, ?_, hmark'.trans hmark⟩
    · simp [ASTNode.function?, hb]
    · simpa using DerivesFunction.definition hkw hkind hl hps hr hbs

/-! ## Files -/

/-- Some function has more parameters than there is room for. -/
def overlong (u : TranslationUnit) : Bool := u.any fun f => decide (paramCapacity < f.params.length)

/-- The declarations of a file that have been taken. -/
def UnitSoFar (declarations : List ASTNode) (mark : Bool) (ts : List Token) : Prop :=
  ∃ parts : List (List Token × Function),
    declarations.mapM ASTNode.function? = some (parts.map (·.2)) ∧
    parts.length = declarations.length ∧ declarations.length ≤ maxFunctionCount ∧
    (∀ part ∈ parts, DerivesFunction part.1 part.2) ∧ ts = parts.flatMap (·.1) ∧
    mark = overlong (parts.map (·.2))

theorem UnitSoFar.snoc {declarations : List ASTNode} {s' : Parser} {mark : Bool}
    {ts us : List Token} {node : ASTNode} (h : UnitSoFar declarations mark ts)
    (hroom : declarations.length < maxFunctionCount) (hf : FunctionYields mark node s' us) :
    UnitSoFar (declarations ++ [node]) s'.overrun (ts ++ us) := by
  obtain ⟨parts, hfunctions, hlen, -, hparts, rfl, rfl⟩ := h
  obtain ⟨f, hnode, hus, hmark⟩ := hf
  refine ⟨parts ++ [(us, f)], ?_, by simp [hlen], ?_, ?_, by simp, ?_⟩
  · rw [List.map_append]
    exact mapM_snoc hfunctions hnode
  · rw [List.length_append, List.length_singleton]
    exact hroom
  · intro part hpart
    rcases List.mem_append.mp hpart with hpart | hpart
    · exact hparts part hpart
    · rw [List.mem_singleton.mp hpart]
      exact hus
  · rw [hmark]
    simp [markAfter, overlong]

theorem declarationTurn_sound {fuel : Nat} {s : Parser} (hs : s.tokens.length < fuel)
    (hdepth : s.exprDepth = 0) (declarations : List ASTNode) :
    wp OnlyNull (declarationTurn fuel declarations) (fun r s' =>
      match r with
      | .again declarations' => SoundMarked s s' (fun us => ∀ ts,
          UnitSoFar declarations s.overrun ts → UnitSoFar declarations' s'.overrun (ts ++ us))
      | .leave (some declarations') =>
          declarations' = declarations ∧ s' = s ∧ s.tokens = []
      | .leave none => SoundMarked s s' (fun _ => False)) s := by
  have herror : ∀ message, SoundMarked s (parserError s message) (fun _ => False) :=
    fun message => (parserError_sound s message).toMarked.mono fun _ h => h.1
  unfold declarationTurn
  simp only [wp_bind, wp_get]
  refine wp_ite (fun heof => ?_) fun _ => ?_
  · exact ⟨rfl, rfl, Parser.tokens_eq_nil.mpr heof⟩
  refine wp_ite (fun _ => herror _) fun hroom => ?_
  refine wp_ite (fun _ => ?_) fun _ => herror _
  refine wp_seq (parseFunction_sound hs hdepth) fun node s' hs' => ?_
  refine hs'.mono fun us hus ts hts => ?_
  exact hts.snoc (Nat.lt_of_not_le hroom) hus

/-- What `parser_parse` yields. -/
def UnitYields (node : ASTNode) (mark : Bool) (ts : List Token) : Prop :=
  ∃ u, node.unit? = some u ∧ DerivesUnit ts u ∧ mark = overlong u

/-- What the loop of `parser_parse` leaves. -/
def DeclarationsYield (s : Parser) (r : Option (List ASTNode)) (s' : Parser) : Prop :=
  match r with
  | some declarations =>
      SoundMarked s s' (UnitSoFar declarations s'.overrun) ∧ s'.tokens = []
  | none => SoundMarked s s' (fun _ => False)

theorem parseUnit_sound {fuel : Nat} {s : Parser} (hs : s.tokens.length < fuel)
    (hdepth : s.exprDepth = 0) (hmark : s.overrun = false) :
    wp OnlyNull (parseUnit fuel) (fun node s' =>
      SoundMarked s s' (fun ts => s'.tokens = [] ∧ UnitYields node s'.overrun ts)) s := by
  unfold parseUnit
  have hinside : ∀ s', Later s s' → s'.tokens.length < fuel ∧ s'.exprDepth = 0 := by
    intro s' hs'
    exact ⟨Nat.lt_of_le_of_lt hs'.length_le hs, by rw [hs'.depth, hdepth]⟩
  refine wp_seq (wp_loop_sound
    (fun declarations s' => SoundMarked s s' (UnitSoFar declarations s'.overrun))
    (DeclarationsYield s) (fun declarations s' hinv => ?_) (fun declarations s' hinv => ?_) ?_
    (Nat.lt_succ_of_lt hs)) fun r s' hr => ?_
  · obtain ⟨hlt, hzero⟩ := hinside s' hinv.later
    have hlimit : s'.exprDepth < maxExpressionDepth := by
      rw [hzero]
      decide
    exact declarationTurn_ends hlt hlimit declarations
  · obtain ⟨hlt, hzero⟩ := hinside s' hinv.later
    refine wp_mono (declarationTurn_sound hlt hzero declarations) fun r s'' hr => ?_
    rcases r with declarations' | declarations' | _
    · exact hinv.trans hr fun ts us hts hus => hus ts hts
    · exact hinv.trans hr fun _ _ _ h => h
    · obtain ⟨rfl, rfl, hnil⟩ := hr
      exact ⟨hinv, hnil⟩
  · exact Sound.refl ⟨[], rfl, rfl, Nat.zero_le _, List.forall_mem_nil _, rfl, hmark⟩
  · cases r with
    | some declarations =>
      simp only [wp_bind, wp_newNode, wp_pure]
      refine SoundMarked.newNode (SoundMarked.mono hr.1 ?_)
      rintro _ ⟨parts, hfunctions, hlen, hcount, hparts, rfl, hover⟩
      refine ⟨hr.2, parts.map (·.2), ?_, .mk hparts (by omega), hover⟩
      simpa [ASTNode.unit?] using hfunctions
    | none => exact SoundMarked.mono hr fun _ h => h.elim

/-- A parse that records no error is exact: it took all tokens, which are a way to write
the tree that is returned, and the parameter array of some function was overrun if and
only if some function has too many parameters for it. -/
theorem parserParse_sound {lexer : TokenStream} {filename : String} {arena : Nat}
    {errors : ErrorContext} {node : ASTNode} {s' : Parser}
    (hrun : parserParse lexer filename arena errors = .ok (node, s'))
    (hclean : s'.errors.nodes = errors.nodes) : UnitYields node s'.overrun lexer.proper := by
  have htokens := parserInit_tokens lexer filename arena errors
  have hsound := wp_of_ok hrun (parseUnit_sound (by rw [htokens]; exact Nat.lt_succ_self _)
    rfl rfl)
  rcases hsound.2 rfl with herr | ⟨-, ts, hts, hnil, hyields⟩
  · have herr' : errors.nodes.length < s'.errors.nodes.length := herr
    rw [hclean] at herr'
    exact absurd herr' (Nat.lt_irrefl _)
  · have hts' : lexer.proper = ts ++ s'.tokens := htokens.symm.trans hts
    rw [hnil, List.append_nil] at hts'
    rwa [hts']

end TinyCompile.Parser
