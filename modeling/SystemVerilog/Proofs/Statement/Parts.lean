import SystemVerilog.Grammar.Statement
import SystemVerilog.Proofs.Expression.Complete
import SystemVerilog.Proofs.Statement.Heads

/-!
# The parts of a statement are read

Each reader of a part of a statement gives the part that the tokens spell: labels, conditions, data
types, loop headers, event controls, delays and the labels of case items. A part that is cut out by a
scan is read to its end; for the others a condition on the next token says where they stop.
-/

namespace SystemVerilog

namespace Parser

/-- A reader leads from `c` to `c'` and gives what `f` takes to `b`. -/
def Reads {α β : Type} (p : Parser α) (f : α → β) (c : Cursor) (b : β) (c' : Cursor) : Prop :=
  ∃ a, p c = .ok (a, c') ∧ f a = b

section Parts

variable {c c' : Cursor} {ts : List Token} {e : Expr Unit}

theorem Reads.tagged {α β : Type} {p : Parser (Site → α)} {f : α → β} {b : β}
    (h : ∃ node, p c = .ok (node, c') ∧ ∀ tag, f (node tag) = b) :
    Reads (SystemVerilog.tagged p) f c b c' := by
  obtain ⟨node, hread, hnode⟩ := h
  exact ⟨_, tagged_of_ok hread, hnode _⟩

/-! ### Labels and conditions -/

theorem blockLabel_of_spells {label : Option String} (hs : c.Steps ts c') (hspell : SpellsLabel label ts)
    (hnext : label = none → ∀ t us, c'.after = t :: us → t.kind ≠ .op .colon) :
    blockLabel c = .ok (label, c') := by
  cases label with
  | none =>
    obtain rfl : ts = [] := hspell
    obtain rfl := hs.of_nil
    rw [blockLabel, bind_of_ok (eat_of_check (Cursor.check_eq_false (hnext rfl)))]
    rfl
  | some label =>
    obtain ⟨m, t, rfl, hm, ht, rfl⟩ := hspell
    obtain ⟨hafter, hs⟩ := hs.of_cons
    rw [blockLabel, bind_of_ok (eat_of_after hafter hm)]
    exact map_of_ok (name_of_steps hs ht)

theorem endLabel_of_spells {label : Option String} (hs : c.Steps ts c')
    (hspell : ts = [] ∨ label ≠ none ∧ SpellsLabel label ts)
    (hnext : ∀ t us, c'.after = t :: us → t.kind ≠ .op .colon) :
    endLabel label c = .ok ((), c') := by
  rcases hspell with rfl | ⟨hsome, hspell⟩
  · obtain rfl := hs.of_nil
    rw [endLabel, bind_of_ok (eat?_of_check (Cursor.check_eq_false hnext))]
    rfl
  · cases label with
    | none => exact absurd rfl hsome
    | some label =>
      obtain ⟨m, t, rfl, hm, ht, rfl⟩ := hspell
      obtain ⟨hafter, hs⟩ := hs.of_cons
      have hname : expectName (c.skip 1) = .ok (t, c') :=
        demandWith_eq_ok.2 ⟨_, hs.after, ht, hs.eq_skip⟩
      rw [endLabel, bind_of_ok (eat?_of_after hafter hm)]
      simp only [bind_of_ok hname, if_true]
      rfl

theorem condition_complete (hs : c.Steps ts c') (hspell : SpellsCondition e ts)
    (hcan : e.Canonical .compares) : Gives condition c e c' := by
  obtain ⟨o, us, cl, rfl, ho, hus, hcl⟩ := hspell
  refine enclosed_complete (by decide) hs ho hcl (hus.skipsPairs (by decide)) fun c₁ c₂ hs hend _ => ?_
  obtain ⟨e', hread, herase⟩ := expression_complete hs hus hcan (hend ▸ .nil)
  exact ⟨e', filling_eq_ok.2 ⟨hread, hend⟩, herase⟩

/-! ### Data types -/

theorem dimension_bounds {b : Bounds Unit} (hs : c.Steps ts c') (hspell : b.Spells ts)
    (hcan : b.Canonical) : ∃ b', dimension c = .ok (.bounds b', c') ∧ b'.map (fun _ => ()) = b := by
  obtain ⟨o, us, m, vs, cl, rfl, ho, hus, hm, hvs, hcl⟩ := hspell
  obtain ⟨⟨hleft, -⟩, ⟨hright, -⟩⟩ := hcan
  have hs' : c.Steps (o :: ((us ++ m :: vs) ++ [cl])) c' := by simpa using hs
  have hinterior : ∃ node, (enclosed (.op .lBracket) (.op .rBracket) dimensionInterior : Parser _) c =
      .ok (node, c') ∧ ∃ left' right', (node = fun tag => .bounds ⟨tag, left', right'⟩) ∧
        left'.erase = b.left ∧ right'.erase = b.right := by
    refine enclosed_complete (by decide) hs' ho hcl (Bounds.skipsPairs hus hm hvs (by decide))
      fun c₁ c₂ hs hend _ => ?_
    have hs₁ : c₁.Steps ((us ++ [m]) ++ vs) c₂ := by simpa using hs
    obtain ⟨c₃, hs₂, hs₃⟩ := hs₁.of_append
    have hcolon : distanceAtTop? (.op .colon) 0 0 c₁.after = some us.length := by
      rw [hs.after, List.append_assoc]
      refine ((hus.balanced (List.Subset.refl _)).passes_top (fun t h => h.isFlat) 0).found ?_
      rw [List.cons_append, distanceAtTop?, if_neg (by omega), if_pos hm]
    obtain ⟨c₄, hs₄, hend₄⟩ := hs₂.ahead
    obtain ⟨left', hleft', herase⟩ := expression_complete hs₄ hus hleft (hend₄ ▸ .nil)
    obtain ⟨right', hright', herase'⟩ := expression_complete hs₃ hvs hright (hend ▸ .nil)
    refine ⟨_, ?_, left', right', rfl, herase, herase'⟩
    rw [dimensionInterior, bind_of_ok (spanBefore?_of_steps hs₂ hcolon)]
    simp only
    rw [bind_of_ok (within_eq_ok.2 ⟨⟨c₄, filling_eq_ok.2 ⟨hleft', hend₄⟩⟩, rfl⟩)]
    exact map_of_ok (filling_eq_ok.2 ⟨hright', hend⟩)
  obtain ⟨node, hnode, left', right', rfl, hl, hr⟩ := hinterior
  refine ⟨_, tagged_of_ok hnode, ?_⟩
  show Bounds.mk () left'.erase right'.erase = b
  rw [hl, hr]

theorem packedBounds_complete {b : Bounds Unit} (hs : c.Steps ts c') (hspell : b.Spells ts)
    (hcan : b.Canonical) : Reads packedBounds (Bounds.map fun _ => ()) c b c' := by
  obtain ⟨b', hb', rfl⟩ := dimension_bounds hs hspell hcan
  refine ⟨b', ?_, rfl⟩
  rw [packedBounds, location_bind, bind_of_ok hb']
  rfl

theorem bracketedUpTo_complete {β γ : Type} {p : Parser β} {f : β → γ} {spells : γ → List Token → Prop}
    {bs : List γ} {n : Nat} (hs : c.Steps ts c') (hspell : SpellsEach spells bs ts)
    (hopen : ∀ b ∈ bs, ∀ us, spells b us → ∃ o vs, us = o :: vs ∧ o.kind = .op .lBracket)
    (hread : ∀ b ∈ bs, ∀ us ⦃c c'⦄, spells b us → c.Steps us c' → Reads p f c b c')
    (hnext : ∀ t us, c'.after = t :: us → t.kind ≠ .op .lBracket) (hlen : c.after.length ≤ n) :
    Reads (bracketedUpTo p n) (List.map f) c bs c' := by
  induction bs generalizing c ts n with
  | nil =>
    obtain rfl : ts = [] := hspell
    obtain rfl := hs.of_nil
    have hcheck : c'.check (.op .lBracket) = false := Cursor.check_eq_false hnext
    refine ⟨[], ?_, rfl⟩
    cases n <;> rw [bracketedUpTo, check_bind, if_neg (by simp [hcheck])] <;> rfl
  | cons b bs ih =>
    obtain ⟨us, vs, rfl, hus, hvs⟩ := hspell
    obtain ⟨c₁, hs₁, hs₂⟩ := hs.of_append
    have hlen₁ := hs₁.length
    obtain ⟨b', hb', hmap⟩ := hread b (by simp) us hus hs₁
    obtain ⟨o, us', rfl, ho⟩ := hopen b (by simp) us hus
    rw [List.length_cons] at hlen₁
    cases n with
    | zero => omega
    | succ n =>
      obtain ⟨bs', hbs', hmaps⟩ := ih (n := n) hs₂ hvs (fun b h => hopen b (by simp [h]))
        (fun b h => hread b (by simp [h])) (by omega)
      refine ⟨b' :: bs', ?_, by rw [List.map_cons, hmap, hmaps]⟩
      rw [bracketedUpTo, check_bind, if_pos (Cursor.check_of_after hs₁.after ho), bind_of_ok hb',
        bind_of_ok hbs']
      rfl

theorem bracketedUpTo_packedBounds {bs : List (Bounds Unit)} {n : Nat} (hs : c.Steps ts c')
    (hspell : SpellsPacked bs ts) (hcan : ∀ b ∈ bs, b.Canonical)
    (hnext : ∀ t us, c'.after = t :: us → t.kind ≠ .op .lBracket) (hlen : c.after.length ≤ n) :
    Reads (bracketedUpTo packedBounds n) (List.map (Bounds.map fun _ => ())) c bs c' := by
  refine bracketedUpTo_complete hs (spellsPacked_iff.1 hspell) ?_ ?_ hnext hlen
  · rintro b - us ⟨o, us', m, vs, cl, rfl, ho, -⟩
    exact ⟨o, _, rfl, ho⟩
  · exact fun b hb us _ _ hus hs => packedBounds_complete hs hus (hcan b hb)

/-- What reads one token by its meaning, or nothing. -/
theorem tryBy_of_spells {β : Type} {meaning : TokenKind → Option β} {o : Option β}
    (hs : c.Steps ts c') (hspell : SpellsMark meaning o ts)
    (hnext : o = none → ∀ t us, c'.after = t :: us → meaning t.kind = none) :
    tryBy meaning c = .ok (o, c') := by
  cases o with
  | none =>
    obtain rfl : ts = [] := hspell
    obtain rfl := hs.of_nil
    exact tryBy_of_forall (hnext rfl)
  | some b =>
    obtain ⟨t, rfl, ht⟩ := hspell
    obtain ⟨hafter, hs⟩ := hs.of_cons
    obtain rfl := hs.of_nil
    exact tryBy_of_after hafter ht

theorem bracketed_packedBounds {o : Option Keyword} {bs : List (Bounds Unit)} (hs : c.Steps ts c')
    (hspell : SpellsPacked bs ts) (hcan : ∀ b ∈ bs, b.Canonical) (ho : bs ≠ [] → admitsPacked o = true)
    (hnext : ∀ t us, c'.after = t :: us → t.kind ≠ .op .lBracket) :
    Reads (if admitsPacked o then bracketed packedBounds else pure []) (List.map (Bounds.map fun _ => ()))
      c bs c' := by
  by_cases hadmits : admitsPacked o = true
  · rw [if_pos hadmits]
    exact bracketedUpTo_packedBounds hs hspell hcan hnext (Nat.le_refl _)
  · obtain rfl : bs = [] := Classical.byContradiction fun hne => hadmits (ho hne)
    obtain rfl : ts = [] := hspell
    obtain rfl := hs.of_nil
    rw [if_neg hadmits]
    exact ⟨[], rfl, rfl⟩

theorem tryBy_signing {o : Option Keyword} {g : Option Signing} (hs : c.Steps ts c')
    (hspell : SpellsMark Signing.ofKind? g ts) (ho : g ≠ none → admitsSigning o = true)
    (hnext : ∀ t us, c'.after = t :: us → Signing.ofKind? t.kind = none) :
    (if admitsSigning o then tryBy Signing.ofKind? else pure none : Parser _) c = .ok (g, c') := by
  by_cases hadmits : admitsSigning o = true
  · rw [if_pos hadmits]
    exact tryBy_of_spells hs hspell fun _ => hnext
  · obtain rfl : g = none := Classical.byContradiction fun hne => hadmits (ho hne)
    obtain rfl : ts = [] := hspell
    obtain rfl := hs.of_nil
    rw [if_neg hadmits]
    rfl

theorem dataType_complete {o : Option (DataType Unit)} (hs : c.Steps ts c')
    (hspell : SpellsOption DataType.Spells o ts) (hcan : ∀ type, o = some type → type.Canonical)
    (hnext : ∀ t us, c'.after = t :: us → t.kind.startsDataType = false) :
    Reads dataType (Option.map (DataType.map fun _ => ())) c o c' := by
  cases o with
  | none =>
    obtain rfl : ts = [] := hspell
    obtain rfl := hs.of_nil
    refine ⟨none, ?_, rfl⟩
    rw [dataType, currentKind?_bind]
    cases hnow : c'.currentKind? with
    | none => rfl
    | some kind =>
      obtain ⟨t, rest, hafter, rfl⟩ := Cursor.after_of_kind hnow
      simp only [hnext t rest hafter]
      rfl
  | some type =>
    have htype := hcan type rfl
    obtain ⟨t, rest, hts, ht⟩ := DataType.Spells.starts hspell htype
    have hnow : c.currentKind? = some t.kind :=
      Cursor.currentKind?_of_after (by rw [hs.after, hts, List.cons_append]) rfl
    obtain ⟨us, vs, ws, rfl, hus, hvs, hws⟩ := hspell
    obtain ⟨c₁, hs₁, hs₁'⟩ := hs.of_append
    obtain ⟨c₂, hs₂, hs₃⟩ := hs₁'.of_append
    have hkeyword := tryBy_of_spells hs₁ hus fun _ t us h =>
      keywordIn?_behind hvs hws hnext (by rw [← hs₃.after, ← hs₂.after, h])
    have hsigning := tryBy_signing (o := type.keyword) hs₂ hvs htype.signing fun t us h => by
      rcases SpellsPacked.head hws (hs₃.after.symm.trans h) with hk | hrest
      · rw [hk]
        rfl
      · exact TokenKind.signing_of_startsDataType (hnext t us hrest)
    obtain ⟨packed, hpacked, hmap⟩ := bracketed_packedBounds (o := type.keyword) hs₃ hws htype.bounds
      htype.packed fun t us h hk => by
        have hstarts := hnext t us h
        rw [hk] at hstarts
        cases hstarts
    refine ⟨some ⟨⟨c.location, ⟨c.position, c'.position⟩⟩, type.keyword, type.signing, packed⟩, ?_, ?_⟩
    · rw [dataType, currentKind?_bind, hnow]
      simp only [ht, if_true]
      refine tagged_of_ok (f := fun tag => some (DataType.mk tag type.keyword type.signing packed)) ?_
      rw [bind_of_ok hkeyword]
      by_cases hg : admitsSigning type.keyword = true <;>
        by_cases hp : admitsPacked type.keyword = true <;>
        simp only [hg, hp, if_true, if_false, Bool.false_eq_true] at hsigning hpacked ⊢ <;>
        rw [bind_of_ok hsigning, bind_of_ok hpacked] <;> rfl
    · show some (DataType.mk () type.keyword type.signing (packed.map (Bounds.map fun _ => ()))) = _
      rw [hmap]

/-! ### Loop headers -/

theorem loopInit_complete {init : LoopInit Unit} (hs : c.Steps ts c') (hspell : init.Spells ts)
    (hcan : init.Canonical) (hend : c'.after = []) :
    Reads loopInit (LoopInit.map fun _ => ()) c init c' := by
  obtain ⟨us, vs, ws, rfl, hus, hvs, hws⟩ := hspell
  obtain ⟨htype, -, hacts, -⟩ := hcan
  obtain ⟨c₁, hs₁, hs₁'⟩ := hs.of_append
  obtain ⟨c₂, hs₂, hs₃⟩ := hs₁'.of_append
  have hafter : c₂.after = ws := by rw [hs₃.after, hend, List.append_nil]
  have hgenvar : eat (.word .kwGenvar) c = .ok (init.genvar, c₁) := by
    cases hg : init.genvar with
    | true =>
      rw [hg] at hus
      obtain ⟨t, rfl, ht⟩ := hus
      rw [eat_of_after hs₁.after ht, hs₁.eq_skip]
      rfl
    | false =>
      rw [hg] at hus
      obtain rfl : us = [] := hus
      obtain rfl := hs₁.of_nil
      refine eat_of_check (Cursor.check_eq_false fun t rest h hk => ?_)
      rw [hs₂.after, hafter] at h
      cases hty : init.type with
      | none =>
        rw [hty] at hvs
        obtain rfl : vs = [] := hvs
        exact TokenKind.startsExpression_ne_word (hws.head h) rfl hk
      | some type =>
        rw [hty] at hvs
        obtain ⟨t', us', rfl, ht'⟩ := DataType.Spells.starts hvs (htype type hty)
        obtain ⟨rfl, -⟩ := List.cons.inj h
        rw [hk] at ht'
        cases ht'
  obtain ⟨type, hread, hmap⟩ := dataType_complete hs₂ hvs htype fun t us h =>
    TokenKind.startsDataType_of_startsExpression (hws.head (hafter.symm.trans h))
  obtain ⟨assignment, hassign, herase⟩ :=
    statementExpression_complete hs₃ hws hacts.canonical (hend ▸ .nil)
  refine .tagged ⟨fun tag => ⟨tag, init.genvar, type, assignment⟩, ?_, fun tag => ?_⟩
  · rw [bind_of_ok hgenvar, bind_of_ok hread]
    exact map_of_ok (filling_eq_ok.2 ⟨hassign, hend⟩)
  · show LoopInit.mk () init.genvar (type.map (DataType.map fun _ => ())) assignment.erase = init
    rw [hmap, herase]

theorem loopClause_of_inert {m : Token} (hs : c.Steps (ts ++ [m]) c') (hts : Balanced Inert ts)
    (hm : m.kind = .op .semicolon) : loopClause c = .ok (c.ahead ts.length, c') := by
  refine spanBefore_of_steps hs ?_
  rw [hs.after, List.append_assoc]
  refine (hts.passes_depth (fun t h => h.flat) rfl (fun t h => (hts.kind_of_mem h).2) 0).found ?_
  rw [List.cons_append, distanceAtDepth?.eq_def]
  simp [hm]

/-- A clause that may be missing is read if it is there. -/
theorem optionally_complete {β γ : Type} {p : Parser β} {f : β → γ} {spells : γ → List Token → Prop}
    {o : Option γ} {part c₁ : Cursor} (hs : part.Steps ts c₁) (hend : c₁.after = [])
    (hspell : SpellsOption spells o ts) (hne : ∀ b, spells b ts → ts ≠ [])
    (hread : ∀ b, o = some b → spells b ts → Reads p f part b c₁) :
    Reads (optionally part p) (Option.map f) c o c := by
  cases o with
  | none =>
    obtain rfl : ts = [] := hspell
    obtain rfl := hs.of_nil
    refine ⟨none, ?_, rfl⟩
    rw [optionally, if_pos (Cursor.atEnd_eq_true_iff.2 hend)]
    rfl
  | some b =>
    obtain ⟨a, ha, hf⟩ := hread b rfl hspell
    have hsome : part.atEnd ≠ true := fun h => by
      rw [Cursor.atEnd_eq_true_iff, hs.after] at h
      exact hne b hspell (List.append_eq_nil_iff.1 h).1
    refine ⟨some a, ?_, congrArg some hf⟩
    rw [optionally, if_neg hsome]
    exact map_of_ok (within_eq_ok.2 ⟨⟨c₁, ha⟩, rfl⟩)

theorem loopHeader_complete {header : LoopHeader Unit} (hs : c.Steps ts c') (hspell : header.Spells ts)
    (hcan : header.Canonical) (hfaithful : ∀ t ∈ ts, t.Faithful) :
    Reads loopHeader (LoopHeader.map fun _ => ()) c header c' := by
  obtain ⟨o, us, m, vs, n, ws, cl, rfl, ho, hus, hm, hvs, hn, hws, hcl⟩ := hspell
  have hus' : Balanced Inert us := hus.inert fun init hi hspell =>
    hspell.inert (hcan.init init hi) fun t h => hfaithful t (by simp [h])
  have hvs' : Balanced Inert vs := hvs.inert fun e he hspell =>
    hspell.inert (hcan.condition e he).2 fun t h => hfaithful t (by simp [h])
  have hws' : Balanced Inert ws := hws.inert fun e he hspell =>
    hspell.inert (hcan.step e he).2 fun t h => hfaithful t (by simp [h])
  have hskip : SkipsPairs (.op .lParen) (.op .rParen) (us ++ m :: (vs ++ n :: ws)) := by
    have flat {ts : List Token} (h : Balanced Inert ts) : SkipsPairs (.op .lParen) (.op .rParen) ts :=
      h.skipsPairs (fun t h => h.flat) (by decide)
    exact .append (flat hus') (.cons (.one (by rw [hm]; rfl) (by rw [hm]; rfl))
      (.append (flat hvs') (.cons (.one (by rw [hn]; rfl) (by rw [hn]; rfl)) (flat hws'))))
  refine .tagged (enclosed_complete (by decide) hs ho hcl hskip fun c₁ c₂ hs hend _ => ?_)
  have hs₀ : c₁.Steps ((us ++ [m]) ++ ((vs ++ [n]) ++ ws)) c₂ := by simpa using hs
  obtain ⟨c₃, hs₁, hs₀⟩ := hs₀.of_append
  obtain ⟨c₄, hs₂, hs₃⟩ := hs₀.of_append
  obtain ⟨c₅, hs₅, hend₅⟩ := hs₁.ahead
  obtain ⟨c₆, hs₆, hend₆⟩ := hs₂.ahead
  obtain ⟨init, hinit, hmapInit⟩ := optionally_complete (c := c₄) hs₅ hend₅ hus (fun b h => h.ne_nil)
    fun b hb h => loopInit_complete hs₅ h (hcan.init b hb) hend₅
  obtain ⟨condition, hcondition, hmapCond⟩ := optionally_complete (c := c₄) hs₆ hend₆ hvs
    (fun b h => h.ne_nil) (p := filling "';'" expression) (f := Expr.erase) fun b hb h => by
      obtain ⟨e', hread, herase⟩ := expression_complete hs₆ h (hcan.condition b hb).1 (hend₆ ▸ .nil)
      exact ⟨e', filling_eq_ok.2 ⟨hread, hend₆⟩, herase⟩
  have hfirst := loopClause_of_inert hs₁ hus' hm
  have hsecond := loopClause_of_inert hs₂ hvs' hn
  have hstep : ∃ step, (if c₄.atEnd then pure none
      else do pure (some (← filling "')'" statementExpression)) : Parser _) c₄ = .ok (step, c₂) ∧
        step.map Expr.erase = header.step := by
    cases hheader : header.step with
    | none =>
      rw [hheader] at hws
      obtain rfl : ws = [] := hws
      obtain rfl := hs₃.of_nil
      exact ⟨none, by rw [if_pos (Cursor.atEnd_eq_true_iff.2 hend)]; rfl, rfl⟩
    | some e =>
      rw [hheader] at hws
      have hne : ¬c₄.atEnd = true := by
        rw [Cursor.atEnd_eq_true_iff, hs₃.after]
        exact fun h => Expr.Spells.ne_nil hws (List.append_eq_nil_iff.1 h).1
      obtain ⟨e', hread, herase⟩ := statementExpression_complete hs₃ hws
        (hcan.step e hheader).1.canonical (hend ▸ .nil)
      refine ⟨some e', ?_, congrArg some herase⟩
      rw [if_neg hne]
      exact map_of_ok (filling_eq_ok.2 ⟨hread, hend⟩)
  obtain ⟨step, hread, hmapStep⟩ := hstep
  refine ⟨fun tag => ⟨tag, init, condition, step⟩, ?_, fun tag => ?_⟩
  · rw [bind_of_ok hfirst, bind_of_ok hsecond, bind_of_ok hinit, bind_of_ok hcondition, atEnd_bind]
    by_cases h : c₄.atEnd = true
    · rw [if_pos h] at hread ⊢
      exact map_of_ok hread
    · rw [if_neg h] at hread ⊢
      obtain ⟨e', c₇, hfill, hpure⟩ := bind_eq_ok.1 hread
      obtain ⟨rfl, rfl⟩ := pure_eq_ok.1 hpure
      rw [bind_of_ok hfill]
      rfl
  · show LoopHeader.mk () (init.map (LoopInit.map fun _ => ())) (condition.map Expr.erase)
      (step.map Expr.erase) = header
    rw [hmapInit, hmapCond, hmapStep]

/-! ### Event controls -/

theorem event_complete {event : Event Unit} (hs : c.Steps ts c') (hspell : event.Spells ts)
    (hcan : event.expr.Canonical .compares) (hstop : Stops 0 c'.after) :
    Reads Parser.event (Event.map fun _ => ()) c event c' := by
  obtain ⟨us, vs, rfl, hus, hvs⟩ := hspell
  obtain ⟨c₁, hs₁, hs₂⟩ := hs.of_append
  have hedge := tryBy_of_spells hs₁ hus fun _ t us h => by
    obtain ⟨u, ws, rfl, hu⟩ := hvs.starts
    obtain ⟨rfl, -⟩ := List.cons.inj (hs₂.after.symm.trans h)
    exact TokenKind.edge_of_startsExpression hu
  obtain ⟨e', hread, herase⟩ := expression_complete hs₂ hvs hcan hstop
  refine .tagged ⟨fun tag => ⟨tag, event.edge, e'⟩, ?_, fun tag => ?_⟩
  · rw [bind_of_ok hedge]
    exact map_of_ok hread
  · show Event.mk () event.edge e'.erase = event
    rw [herase]

theorem eventSeparator_of_after {t : Token} {rest : List Token} (h : c.after = t :: rest)
    (ht : t.kind = .word .kwOr ∨ t.kind = .op .comma) : eventSeparator c = .ok ((), c.skip 1) := by
  rcases ht with ht | ht
  · rw [eventSeparator, bind_of_ok (eat_of_after h ht)]
    rfl
  · have hor : c.check (.word .kwOr) = false := Cursor.check_eq_false fun t' us h' => by
      obtain ⟨rfl, -⟩ := List.cons.inj (h.symm.trans h')
      rw [ht]
      decide
    rw [eventSeparator, bind_of_ok (eat_of_check hor)]
    exact comma_eq_ok.2 ⟨t, rest, h, ht, rfl⟩

theorem events_complete {events : List (Event Unit)} {n : Nat} (hs : c.Steps ts c')
    (hspell : SpellsEvents events ts) (hcan : ∀ event ∈ events, event.expr.Canonical .compares)
    (hend : c'.after = []) (hlen : c.after.length ≤ n) :
    Reads (followersUpTo eventSeparator Parser.event n) (List.map (Event.map fun _ => ())) c events c' := by
  induction events generalizing c ts n with
  | nil =>
    obtain rfl : ts = [] := hspell
    obtain rfl := hs.of_nil
    exact ⟨[], followersUpTo_eq_ok.2 (.done hend), rfl⟩
  | cons event events ih =>
    obtain ⟨m, us, vs, rfl, hm, hus, hvs⟩ := hspell
    obtain ⟨hafter, hs⟩ := hs.of_cons
    obtain ⟨c₁, hs₁, hs₂⟩ := hs.of_append
    have hlen₁ := hs₁.length
    have hshort : (c.skip 1).after.length < c.after.length := by simp [hafter]
    have hc₁ : c₁.after = vs := by rw [hs₂.after, hend, List.append_nil]
    obtain ⟨event', hread, hmap⟩ := event_complete hs₁ hus (hcan event (by simp)) (hc₁ ▸ hvs.stops)
    cases n with
    | zero => omega
    | succ n =>
      obtain ⟨events', hreads, hmaps⟩ :=
        ih (n := n) hs₂ hvs (fun e h => hcan e (by simp [h])) (by omega)
      refine ⟨event' :: events', followersUpTo_eq_ok.2 ?_, by rw [List.map_cons, hmap, hmaps]⟩
      have hne : c.after ≠ [] := List.ne_nil_iff_exists_cons.2 ⟨m, _, hafter⟩
      exact .more hne (eventSeparator_of_after hafter hm) hread (followersUpTo_eq_ok.1 hreads)

/-- What stands between the parentheses of an event control. -/
def eventList : Parser (Site → Sensitivity Site) := do
  if ← onlyStar then return fun tag => ⟨tag, true, []⟩
  else
    let events ← listBy eventSeparator Parser.event
    return fun tag => ⟨tag, false, events⟩

theorem eventList_star {m : Token} (h : c.after = [m]) (hm : m.kind = .op .mul) :
    eventList c = .ok (fun tag => ⟨tag, true, []⟩, c) := by
  have hstar : onlyStar c = .ok (true, c) := by
    simp [onlyStar, Cursor.check_of_after h hm, Cursor.peek?, h]
  rw [eventList, bind_of_ok hstar]
  rfl

theorem eventList_events {event : Event Unit} {events : List (Event Unit)} {us vs : List Token}
    (hs : c.Steps (us ++ vs) c') (hus : event.Spells us) (hvs : SpellsEvents events vs)
    (hcan : ∀ e ∈ event :: events, e.expr.Canonical .compares) (hend : c'.after = []) :
    ∃ events', eventList c = .ok (fun tag => ⟨tag, false, events'⟩, c') ∧
      events'.map (Event.map fun _ => ()) = event :: events := by
  obtain ⟨c₁, hs₁, hs₂⟩ := hs.of_append
  have hc₁ : c₁.after = vs := by rw [hs₂.after, hend, List.append_nil]
  obtain ⟨event', hread, hmap⟩ := event_complete hs₁ hus (hcan event (by simp)) (hc₁ ▸ hvs.stops)
  obtain ⟨events', hreads, hmaps⟩ :=
    events_complete hs₂ hvs (fun e h => hcan e (by simp [h])) hend (Nat.le_refl _)
  have hstar : onlyStar c = .ok (false, c) := by
    have hmul : c.check (.op .mul) = false := by
      refine Cursor.check_eq_false fun t ws h => ?_
      rw [hs₁.after] at h
      exact hus.head_ne_mul h
    simp [onlyStar, hmul]
  refine ⟨event' :: events', ?_, by rw [List.map_cons, hmap, hmaps]⟩
  have hlist : listBy eventSeparator Parser.event c = .ok (event' :: events', c') := by
    rw [listBy, bind_of_ok hread]
    exact map_of_ok hreads
  rw [eventList, bind_of_ok hstar]
  exact map_of_ok hlist

theorem sensitivity_of_parenthesis {h o cl : Token} {node : Site → Sensitivity Site} {c₁ : Cursor}
    (hs : c.Steps (h :: o :: (ts ++ [cl])) c') (hh : h.kind = .op .atSign) (ho : o.kind = .op .lParen)
    (hcl : cl.kind = .op .rParen) (hts : SkipsPairs (.op .lParen) (.op .rParen) ts)
    (hread : eventList (((c.skip 1).skip 1).ahead ts.length) = .ok (node, c₁)) :
    Parser.sensitivity c = .ok (node ⟨c.location, ⟨c.position, c'.position⟩⟩, c') := by
  obtain ⟨hafter, hs⟩ := hs.of_cons
  have hsign : expect (.op .atSign) c = .ok (h, c.skip 1) := expect_eq_ok.2 ⟨_, hafter, hh, rfl⟩
  have hmul : (c.skip 1).check (.op .mul) = false := Cursor.check_eq_false fun t us ht hk => by
    obtain ⟨rfl, -⟩ := List.cons.inj (hs.after.symm.trans ht)
    rw [ho] at hk
    cases hk
  refine tagged_of_ok ?_
  rw [bind_of_ok hsign, bind_of_ok (eat_of_check hmul)]
  simp only [Bool.false_eq_true, if_false, check_bind, Cursor.check_of_after hs.after ho, if_true]
  exact enclosed_of_pair hs (by rw [ho]; rfl) (by rw [hcl]; rfl) (by rw [hcl]; rfl) hts hread

theorem sensitivity_complete {sensitivity : Sensitivity Unit} (hs : c.Steps ts c')
    (hspell : sensitivity.Spells ts) (hcan : sensitivity.Canonical)
    (hfaithful : ∀ t ∈ ts, t.Faithful) :
    Reads Parser.sensitivity (Sensitivity.map fun _ => ()) c sensitivity c' := by
  obtain ⟨h, us, rfl, hh, hrest⟩ := hspell
  obtain ⟨hstar, hevents⟩ := hcan
  unfold Sensitivity.SpellsRest at hrest
  cases hlist : sensitivity.events with
  | nil =>
    simp only [hlist] at hrest
    have hmk : ∀ tag, (Sensitivity.mk (α := Site) tag true []).map (fun _ => ()) = sensitivity := fun tag => by
      show Sensitivity.mk () true [] = sensitivity
      rw [← hstar.2 hlist, ← hlist]
    rcases hrest with ⟨m, rfl, hm⟩ | ⟨o, m, cl, rfl, ho, hm, hcl⟩
    · obtain ⟨hafter, hs⟩ := hs.of_cons
      obtain ⟨hafter', hs⟩ := hs.of_cons
      obtain rfl := hs.of_nil
      have hsign : expect (.op .atSign) c = .ok (h, c.skip 1) := expect_eq_ok.2 ⟨_, hafter, hh, rfl⟩
      refine .tagged ⟨fun tag => ⟨tag, true, []⟩, ?_, hmk⟩
      rw [bind_of_ok hsign, bind_of_ok (eat_of_after hafter' hm)]
      rfl
    · have hinterior : (((c.skip 1).skip 1).ahead [m].length).after = [m] := by simp [hs.after]
      have hskip : SkipsPairs (.op .lParen) (.op .rParen) [m] := .one (by rw [hm]; rfl) (by rw [hm]; rfl)
      exact ⟨_, sensitivity_of_parenthesis hs hh ho hcl hskip (eventList_star hinterior hm), hmk _⟩
  | cons event events =>
    simp only [hlist] at hrest
    obtain ⟨o, us, vs, cl, rfl, ho, hus, hvs, hcl⟩ := hrest
    obtain ⟨c₁, hs₁, hend⟩ := hs.of_cons.2.interior
    obtain ⟨events', hread, hmap⟩ := eventList_events hs₁ hus hvs
      (fun e he => (hevents e (hlist ▸ he)).1) hend
    have hinert : Balanced Inert (us ++ vs) :=
      .append (hus.inert (hevents event (by simp [hlist])).2 fun t h => hfaithful t (by simp [h]))
        (hvs.inert (fun e he => (hevents e (by simp [hlist, he])).2) fun t h => hfaithful t (by simp [h]))
    have hskip : SkipsPairs (.op .lParen) (.op .rParen) (us ++ vs) :=
      hinert.skipsPairs (fun t h => h.flat) (by decide)
    refine ⟨_, sensitivity_of_parenthesis hs hh ho hcl hskip hread, ?_⟩
    have hfalse : sensitivity.star = false := by
      cases hs : sensitivity.star with
      | false => rfl
      | true =>
        have hnil := hstar.1 hs
        rw [hlist] at hnil
        cases hnil
    show Sensitivity.mk () false (events'.map (Event.map fun _ => ())) = sensitivity
    rw [hmap, ← hlist, ← hfalse]

/-! ### Delays -/

theorem expressionOf_of_operand {nested : Nested} {reading : LessEqualReading} {floor : Nat}
    (h : Gives (operandOf nested) c e c') (hq : Quiet reading floor c'.after) :
    Gives (expressionOf nested reading floor) c e c' := by
  obtain ⟨e', he', herase⟩ := h
  refine ⟨e', ?_, herase⟩
  rw [expressionOf, bind_of_ok he']
  exact climbUpTo_stop hq (Nat.le_refl _)

theorem delayUnit_of_spells {unit : Option TimeUnit} {us vs : List Token} {m : Token} {c₁ : Cursor}
    (hs : c.Steps (us ++ [m]) c₁) (hs' : c₁.Steps vs c') (hspell : SpellsMark TimeUnit.ofKind? unit vs)
    (htouch : ∀ t ∈ vs, t.touches m = true)
    (hnext : ∀ t rest, unit = none → c'.after = t :: rest → TimeUnit.ofKind? t.kind ≠ none →
      t.touches m = false) : delayUnit c₁ = .ok (unit, c') := by
  have hbefore : c₁.before = m :: (us.reverse ++ c.before) := by
    rw [hs.eq_skip, Cursor.skip_before, hs.after, List.take_left]
    simp
  cases unit with
  | some u =>
    obtain ⟨t, rfl, ht⟩ := hspell
    obtain ⟨hafter, hs'⟩ := hs'.of_cons
    obtain rfl := hs'.of_nil
    have htouch' := htouch t (by simp)
    unfold delayUnit
    rw [hbefore, hafter]
    simp only [ht, htouch', if_true]
  | none =>
    obtain rfl : vs = [] := hspell
    obtain rfl := hs'.of_nil
    unfold delayUnit
    rw [hbefore]
    cases hafter : c'.after with
    | nil => rfl
    | cons t rest =>
      cases hu : TimeUnit.ofKind? t.kind with
      | none => simp only [hu]
      | some u =>
        have htouch' := hnext t rest rfl hafter (by simp [hu])
        simp [hu, htouch']

theorem delay_complete {delay : Delay Unit} (hs : c.Steps ts c') (hspell : delay.Spells ts c'.after)
    (hcan : delay.Canonical) (hq : Quiet .compares prefixPower c'.after) :
    Reads Parser.delay (Delay.map fun _ => ()) c delay c' := by
  obtain ⟨h, us, m, vs, rfl, hh, hus, hvs, htouch, hnext⟩ := hspell
  obtain ⟨⟨hcan, -⟩, hform⟩ := hcan
  have hs₀ : c.Steps (h :: ((us ++ [m]) ++ vs)) c' := by simpa using hs
  obtain ⟨hafter, hs₀⟩ := hs₀.of_cons
  obtain ⟨c₁, hs₁, hs₂⟩ := hs₀.of_append
  have hquiet : Quiet .compares prefixPower c₁.after := by
    cases hunit : delay.unit with
    | none =>
      rw [hunit] at hvs
      obtain rfl : vs = [] := hvs
      exact hs₂.of_nil ▸ hq
    | some u =>
      rw [hunit] at hvs
      obtain ⟨t, rfl, ht⟩ := hvs
      intro t' us' k heq hk
      obtain ⟨rfl, -⟩ := List.cons.inj (hs₂.after.symm.trans heq)
      rw [TokenKind.timeUnit_connective ht] at hk
      cases hk
  have hoperand : Gives (operandOf (expressionWithin c.after.length .compares)) (c.skip 1)
      delay.magnitude c₁ := by
    have hshort : (c.skip 1).after.length ≤ c.after.length := by simp
    rcases hform with ⟨_, text, hmagnitude⟩ | ⟨_, inner, hmagnitude⟩ <;> rw [hmagnitude] at hus hcan ⊢
    · exact operandOf_literal hs₁ hus
    · exact operandOf_parenthesis (complete_expressionWithin _) hs₁ hus hcan hshort
  obtain ⟨magnitude, hread, herase⟩ := expressionOf_of_operand hoperand hquiet
  rw [← expressionWithin] at hread
  have hunit := delayUnit_of_spells hs₁ hs₂ hvs htouch hnext
  have hsharp : expect (.op .sharp) c = .ok (h, c.skip 1) := expect_eq_ok.2 ⟨_, hafter, hh, rfl⟩
  have hdelay : ∃ node, (do
      let _ ← expect (.op .sharp)
      let magnitude ← expressionWithin (budget c) .compares prefixPower
      let unit ← delayUnit
      return fun tag => ⟨tag, magnitude, unit⟩ : Parser (Site → Delay Site)) c = .ok (node, c') ∧
        ∀ tag, (node tag).map (fun _ => ()) = delay := by
    refine ⟨fun tag => ⟨tag, magnitude, delay.unit⟩, ?_, fun tag => ?_⟩
    · rw [bind_of_ok hsharp, budget, bind_of_ok hread]
      exact map_of_ok hunit
    · show Delay.mk () magnitude.erase delay.unit = delay
      rw [herase]
  obtain ⟨node, hnode, hmap⟩ := hdelay
  refine ⟨node ⟨c.location, ⟨c.position, c'.position⟩⟩, ?_, hmap _⟩
  rw [Parser.delay, delayOf]
  exact tagged_of_ok hnode

/-! ### Labels of case items -/

theorem allCanonical_of_forall {es : List (Expr Unit)} (h : ∀ e ∈ es, e.Canonical .compares) :
    Expr.AllCanonical es := by
  induction es with
  | nil => trivial
  | cons e es ih => exact ⟨h e (by simp), ih fun e he => h e (by simp [he])⟩

theorem caseLabels_complete {labels : List (Expr Unit)} {m : Token} (hs : c.Steps (ts ++ [m]) c')
    (hspell : Expr.SpellsList labels ts) (hm : m.kind = .op .colon) (hne : labels ≠ [])
    (hcan : ∀ e ∈ labels, e.Canonical .compares) :
    Reads caseLabels Expr.eraseAll c labels c' := by
  have hcolon : distanceAtTop? (.op .colon) 0 0 c.after = some ts.length := by
    rw [hs.after, List.append_assoc]
    refine ((hspell.balanced (List.Subset.refl _)).passes_top (fun t h => h.isFlat) 0).found ?_
    rw [List.cons_append, distanceAtTop?, if_neg (by omega), if_pos hm]
  obtain ⟨c₁, hs₁, hend⟩ := hs.ahead
  obtain ⟨labels', hread, herase⟩ := listOf_complete
    (complete_expressionWithin (budget (c.ahead ts.length))) hs₁ hend hspell (allCanonical_of_forall hcan)
    (Nat.lt_succ_self _)
  refine ⟨labels', ?_, herase⟩
  have hlist : (within (c.ahead ts.length) expressionList : Parser _) c' = .ok (labels', c') :=
    within_eq_ok.2 ⟨⟨c₁, hread⟩, rfl⟩
  rw [caseLabels, location_bind, bind_of_ok (spanBefore_of_steps hs hcolon), bind_of_ok hlist]
  cases labels' with
  | nil => exact absurd herase.symm hne
  | cons label labels' => rfl

/-! ### Expressions before a semicolon -/

theorem beforeSemicolon_of_inert {α : Type} {p : Parser α} {a : α} {m : Token} {c₁ : Cursor}
    (hs : c.Steps (ts ++ [m]) c') (hts : Balanced Inert ts) (hm : m.kind = .op .semicolon)
    (hread : p (c.ahead ts.length) = .ok (a, c₁)) : beforeSemicolon p c = .ok (a, c') := by
  have hsemicolon : distanceTo? (.op .semicolon) c.after = some ts.length := by
    rw [distanceTo?, hs.after, List.append_assoc, List.findIdx?_append]
    have hnone : ts.findIdx? (fun t => t.kind == .op .semicolon) = none := by
      rw [List.findIdx?_eq_none_iff]
      intro t ht
      simpa using (hts.kind_of_mem ht).2
    rw [hnone]
    simp [List.findIdx?_cons, hm]
  rw [beforeSemicolon, bind_of_ok (spanBefore_of_steps hs hsemicolon)]
  exact within_eq_ok.2 ⟨⟨c₁, hread⟩, rfl⟩

end Parts

end Parser

end SystemVerilog
