import SystemVerilog.Proofs.Module.Spelling
import SystemVerilog.Proofs.Statement.Scanning

/-!
# Words of modules and generate regions

No token of a statement is a word that opens or closes a module or a generate region, if no name with a
dollar sign in the statement is spelled like one. So the scans for these words pass over statements.
-/

namespace SystemVerilog

variable {α β : Type} {ts us : List Token}

/-! ### Words of modules and generate regions -/

/-- The words that open or close a module or a generate region. -/
def scopeWords : List TokenKind :=
  [.word .kwModule, .word .kwEndModule, .word .kwGenerate, .word .kwEndGenerate]

theorem mem_scopeWords {kind : TokenKind} (h : kind ∈ scopeWords) : ∃ k, kind = .word k ∧
    kind.isPlain = false ∧ "$" ++ k.spelling ∈ scopeNames := by
  simp only [scopeWords, List.mem_cons, List.not_mem_nil, or_false] at h
  rcases h with rfl | rfl | rfl | rfl <;> exact ⟨_, rfl, rfl, by decide⟩

/-- None of the tokens is a word that opens or closes a module or a generate region. -/
def FreeOfScopes (ts : List Token) : Prop := ∀ t ∈ ts, t.kind ∉ scopeWords

namespace FreeOfScopes

variable {t : Token}

theorem nil : FreeOfScopes [] := fun _ h => by cases h

theorem one (h : t.kind ∉ scopeWords) : FreeOfScopes [t] := List.forall_mem_singleton.2 h

theorem append (hts : FreeOfScopes ts) (hus : FreeOfScopes us) : FreeOfScopes (ts ++ us) :=
  List.forall_mem_append.2 ⟨hts, hus⟩

theorem cons (ht : FreeOfScopes [t]) (hts : FreeOfScopes ts) : FreeOfScopes (t :: ts) := append ht hts

theorem of_op {o : Operator} (h : t.kind = .op o) : FreeOfScopes [t] := by
  refine one fun hmem => ?_
  obtain ⟨k, hk, -⟩ := mem_scopeWords hmem
  rw [h] at hk
  cases hk

theorem of_word {k : Keyword} (h : t.kind = .word k) (hk : .word k ∉ scopeWords) : FreeOfScopes [t] :=
  one (h ▸ hk)

theorem of_isName (h : t.kind.isName = true) : FreeOfScopes [t] := by
  refine one fun hmem => ?_
  have hplain := TokenKind.isPlain_of_isName h
  obtain ⟨k, -, hk, -⟩ := mem_scopeWords hmem
  rw [hplain] at hk
  cases hk

end FreeOfScopes

/-! ### Statements are free of them -/

section Statements

theorem Expr.Spells.freeOfScopes {e : Expr α} (h : e.Spells ts) (hu : Unscoped e.systemNames)
    (ht : ∀ t ∈ ts, t.Faithful) : FreeOfScopes ts := by
  intro t hmem hscope
  obtain ⟨k, hk, hplain, hname⟩ := mem_scopeWords hscope
  rcases (h.balanced (List.Subset.refl _)).mem hmem with hword | hword | hword | hword | hword
  · rcases hword with hword | ⟨-, hword⟩
    · rw [hplain] at hword
      cases hword
    · rw [ht t hmem k hk] at hword
      exact hu _ hword hname
  all_goals
    rw [hk] at hword
    cases hword

theorem Expr.SpellsTail.freeOfScopes {es : List (Expr α)} (h : SpellsTail es ts)
    (hu : ∀ e ∈ es, Unscoped e.systemNames) (ht : ∀ t ∈ ts, t.Faithful) : FreeOfScopes ts := by
  induction es generalizing ts with
  | nil =>
    unfold SpellsTail at h
    exact h ▸ .nil
  | cons e es ih =>
    obtain ⟨m, us, vs, rfl, hm, hus, hvs⟩ := h
    exact .cons (.of_op hm) (.append (hus.freeOfScopes (hu e (by simp)) fun t h => ht t (by simp [h]))
      (ih hvs (fun e h => hu e (by simp [h])) fun t h => ht t (by simp [h])))

theorem Expr.SpellsList.freeOfScopes {es : List (Expr α)} (h : SpellsList es ts)
    (hu : ∀ e ∈ es, Unscoped e.systemNames) (ht : ∀ t ∈ ts, t.Faithful) : FreeOfScopes ts := by
  cases es with
  | nil =>
    unfold SpellsList at h
    exact h ▸ .nil
  | cons e es =>
    obtain ⟨us, vs, rfl, hus, hvs⟩ := h
    exact .append (hus.freeOfScopes (hu e (by simp)) fun t h => ht t (by simp [h]))
      (SpellsTail.freeOfScopes hvs (fun e h => hu e (by simp [h])) fun t h => ht t (by simp [h]))

theorem SpellsOption.freeOfScopes {spells : β → List Token → Prop} {o : Option β}
    (h : SpellsOption spells o ts) (hb : ∀ b, o = some b → spells b ts → FreeOfScopes ts) :
    FreeOfScopes ts := by
  cases o with
  | none => exact h ▸ .nil
  | some b => exact hb b rfl h

theorem SpellsMark.freeOfScopes {meaning : TokenKind → Option β} {o : Option β}
    (h : SpellsMark meaning o ts) (hm : ∀ kind ∈ scopeWords, meaning kind = none) : FreeOfScopes ts := by
  cases o with
  | none => exact h ▸ .nil
  | some b =>
    obtain ⟨t, rfl, ht⟩ := h
    refine .one fun hmem => ?_
    rw [hm _ hmem] at ht
    cases ht

theorem SpellsLabel.freeOfScopes {label : Option String} (h : SpellsLabel label ts) : FreeOfScopes ts := by
  cases label with
  | none => exact h ▸ .nil
  | some label =>
    obtain ⟨m, t, rfl, hm, ht, -⟩ := h
    exact .cons (.of_op hm) (.of_isName ht)

theorem Bounds.Spells.freeOfScopes {b : Bounds α} (h : b.Spells ts) (hu : Unscoped b.systemNames)
    (ht : ∀ t ∈ ts, t.Faithful) : FreeOfScopes ts := by
  obtain ⟨o, us, m, vs, c, rfl, ho, hus, hm, hvs, hc⟩ := h
  obtain ⟨hleft, hright⟩ := unscoped_append.1 hu
  exact .cons (.of_op ho) (.append (hus.freeOfScopes hleft fun t h => ht t (by simp [h]))
    (.cons (.of_op hm) (.append (hvs.freeOfScopes hright fun t h => ht t (by simp [h])) (.of_op hc))))

theorem SpellsPacked.freeOfScopes {bs : List (Bounds α)} (h : SpellsPacked bs ts)
    (hu : ∀ b ∈ bs, Unscoped b.systemNames) (ht : ∀ t ∈ ts, t.Faithful) : FreeOfScopes ts := by
  induction bs generalizing ts with
  | nil => exact h ▸ .nil
  | cons b bs ih =>
    obtain ⟨us, vs, rfl, hus, hvs⟩ := h
    exact .append (hus.freeOfScopes (hu b (by simp)) fun t h => ht t (by simp [h]))
      (ih hvs (fun b h => hu b (by simp [h])) fun t h => ht t (by simp [h]))

theorem DataType.Spells.freeOfScopes {type : DataType α} (h : type.Spells ts)
    (hu : Unscoped type.systemNames) (ht : ∀ t ∈ ts, t.Faithful) : FreeOfScopes ts := by
  obtain ⟨us, vs, ws, rfl, hus, hvs, hws⟩ := h
  exact .append (hus.freeOfScopes (by decide)) (.append (hvs.freeOfScopes (by decide))
    (hws.freeOfScopes (unscoped_flatMap.1 hu) fun t h => ht t (by simp [h])))

theorem SpellsCondition.freeOfScopes {e : Expr α} (h : SpellsCondition e ts) (hu : Unscoped e.systemNames)
    (ht : ∀ t ∈ ts, t.Faithful) : FreeOfScopes ts := by
  obtain ⟨o, us, c, rfl, ho, hus, hc⟩ := h
  exact .cons (.of_op ho) (.append (hus.freeOfScopes hu fun t h => ht t (by simp [h])) (.of_op hc))

theorem Delay.Spells.freeOfScopes {delay : Delay α} {next : List Token} (h : delay.Spells ts next)
    (hu : Unscoped delay.magnitude.systemNames) (ht : ∀ t ∈ ts, t.Faithful) : FreeOfScopes ts := by
  obtain ⟨h, us, m, vs, rfl, hh, hus, hvs, -⟩ := h
  rw [show h :: (us ++ m :: vs) = h :: ((us ++ [m]) ++ vs) by simp] at ht ⊢
  refine .cons (.of_op hh) (.append (hus.freeOfScopes hu fun t h => ht t ?_) (hvs.freeOfScopes (by decide)))
  exact List.mem_cons_of_mem _ (List.mem_append_left _ h)

theorem Event.Spells.freeOfScopes {event : Event α} (h : event.Spells ts)
    (hu : Unscoped event.expr.systemNames) (ht : ∀ t ∈ ts, t.Faithful) : FreeOfScopes ts := by
  obtain ⟨us, vs, rfl, hus, hvs⟩ := h
  exact .append (hus.freeOfScopes (by decide)) (hvs.freeOfScopes hu fun t h => ht t (by simp [h]))

theorem SpellsEvents.freeOfScopes {events : List (Event α)} (h : SpellsEvents events ts)
    (hu : ∀ event ∈ events, Unscoped event.expr.systemNames) (ht : ∀ t ∈ ts, t.Faithful) :
    FreeOfScopes ts := by
  induction events generalizing ts with
  | nil => exact h ▸ .nil
  | cons event events ih =>
    obtain ⟨m, us, vs, rfl, hm, hus, hvs⟩ := h
    have hm : FreeOfScopes [m] := by
      rcases hm with hm | hm
      · exact .of_word hm (by decide)
      · exact .of_op hm
    exact .cons hm (.append (hus.freeOfScopes (hu event (by simp)) fun t h => ht t (by simp [h]))
      (ih hvs (fun event h => hu event (by simp [h])) fun t h => ht t (by simp [h])))

theorem Sensitivity.Spells.freeOfScopes {sensitivity : Sensitivity α} (h : sensitivity.Spells ts)
    (hu : Unscoped sensitivity.systemNames) (ht : ∀ t ∈ ts, t.Faithful) : FreeOfScopes ts := by
  obtain ⟨h, us, rfl, hh, hrest⟩ := h
  refine .cons (.of_op hh) ?_
  unfold Sensitivity.SpellsRest at hrest
  split at hrest
  · rcases hrest with ⟨m, rfl, hm⟩ | ⟨o, m, c, rfl, ho, hm, hc⟩
    · exact .of_op hm
    · exact .cons (.of_op ho) (.cons (.of_op hm) (.of_op hc))
  · rename_i event events hevents
    obtain ⟨o, us, vs, c, rfl, ho, hus, hvs, hc⟩ := hrest
    have hall := unscoped_flatMap.1 hu
    rw [hevents] at hall
    exact .cons (.of_op ho) (.append (.append
      (hus.freeOfScopes (hall event (by simp)) fun t h => ht t (by simp [h]))
      (hvs.freeOfScopes (fun e he => hall e (by simp [he])) fun t h => ht t (by simp [h]))) (.of_op hc))

theorem LoopInit.Spells.freeOfScopes {init : LoopInit α} (h : init.Spells ts)
    (hu : Unscoped init.systemNames) (ht : ∀ t ∈ ts, t.Faithful) : FreeOfScopes ts := by
  obtain ⟨us, vs, ws, rfl, hus, hvs, hws⟩ := h
  obtain ⟨htype, hassignment⟩ := unscoped_append.1 hu
  refine .append ?_ (.append ?_ (hws.freeOfScopes hassignment fun t h => ht t (by simp [h])))
  · split at hus
    · obtain ⟨t, rfl, hk⟩ := hus
      exact .of_word hk (by decide)
    · exact hus ▸ .nil
  · exact hvs.freeOfScopes fun type hsome hspell =>
      hspell.freeOfScopes (htype.option hsome) fun t h => ht t (by simp [h])

theorem LoopHeader.Spells.freeOfScopes {header : LoopHeader α} (h : header.Spells ts)
    (hu : Unscoped header.systemNames) (ht : ∀ t ∈ ts, t.Faithful) : FreeOfScopes ts := by
  obtain ⟨o, us, m, vs, n, ws, c, rfl, ho, hus, hm, hvs, hn, hws, hc⟩ := h
  obtain ⟨hinit, hrest⟩ := unscoped_append.1 hu
  obtain ⟨hcondition, hstep⟩ := unscoped_append.1 hrest
  have hus : FreeOfScopes us := hus.freeOfScopes fun init hsome hspell =>
    hspell.freeOfScopes (hinit.option hsome) fun t h => ht t (by simp [h])
  have hvs : FreeOfScopes vs := hvs.freeOfScopes fun e hsome hspell =>
    hspell.freeOfScopes (hcondition.option hsome) fun t h => ht t (by simp [h])
  have hws : FreeOfScopes ws := hws.freeOfScopes fun e hsome hspell =>
    hspell.freeOfScopes (hstep.option hsome) fun t h => ht t (by simp [h])
  exact .cons (.of_op ho) (.append (.append hus (.cons (.of_op hm) (.append hvs (.cons (.of_op hn) hws))))
    (.of_op hc))

end Statements

namespace Statement

mutual

/-- No token of a statement opens or closes a module or a generate region. -/
theorem Spells.freeOfScopes : ∀ {s : Statement α} {ts : List Token}, s.Spells ts →
    Unscoped s.systemNames → (∀ t ∈ ts, t.Faithful) → FreeOfScopes ts
  | block _ label statements, _, ⟨b, ls, us, e, ms, hts, hb, hls, hus, he, hms⟩, hu, ht => by
    subst hts
    have hmarks : FreeOfScopes ms := by
      rcases hms with rfl | ⟨-, hms⟩
      · exact .nil
      · exact hms.freeOfScopes
    exact .append (.cons (.of_word hb (by decide)) (.append (.append hls.freeOfScopes
      (hus.freeOfScopes hu fun t h => ht t (by simp [h]))) (.of_word he (by decide)))) hmarks
  | ifElse _ condition thenBranch elseBranch, _, ⟨i, us, vs, ws, hts, hi, hus, hvs, hws⟩, hu, ht => by
    subst hts
    obtain ⟨hcondition, hbranches⟩ := unscoped_append.1 hu
    obtain ⟨hthen, helse⟩ := unscoped_append.1 hbranches
    exact .cons (.of_word hi (by decide)) (.append (hus.freeOfScopes hcondition fun t h => ht t (by simp [h]))
      (.append (hvs.freeOfScopes hthen fun t h => ht t (by simp [h]))
        (hws.freeOfScopes helse fun t h => ht t (by simp [h]))))
  | caseOf _ kind selector items default, _, ⟨k, us, vs, ws, e, hts, hk, hus, hvs, hws, he⟩, hu, ht => by
    subst hts
    obtain ⟨hselector, hrest⟩ := unscoped_append.1 hu
    obtain ⟨hitems, hdefault⟩ := unscoped_append.1 hrest
    have hword : FreeOfScopes [k] := by
      unfold CaseKind.ofKind? at hk
      split at hk <;> first | exact .of_word ‹_› (by decide) | cases hk
    exact .cons hword (.append (.append (hus.freeOfScopes hselector fun t h => ht t (by simp [h]))
      (.append (hvs.freeOfScopes hitems fun t h => ht t (by simp [h]))
        (hws.freeOfScopes hdefault fun t h => ht t (by simp [h])))) (.of_word he (by decide)))
  | loop _ header body, _, ⟨f, us, vs, hts, hf, hus, hvs⟩, hu, ht => by
    subst hts
    obtain ⟨hheader, hbody⟩ := unscoped_append.1 hu
    exact .cons (.of_word hf (by decide)) (.append (hus.freeOfScopes hheader fun t h => ht t (by simp [h]))
      (hvs.freeOfScopes hbody fun t h => ht t (by simp [h])))
  | delayed _ delay body, _, ⟨us, vs, hts, hus, hvs⟩, hu, ht => by
    subst hts
    obtain ⟨hdelay, hbody⟩ := unscoped_append.1 hu
    exact .append (hus.freeOfScopes hdelay fun t h => ht t (by simp [h]))
      (hvs.freeOfScopes hbody fun t h => ht t (by simp [h]))
  | event _ sensitivity body, _, ⟨us, vs, hts, hus, hvs⟩, hu, ht => by
    subst hts
    obtain ⟨hsensitivity, hbody⟩ := unscoped_append.1 hu
    exact .append (hus.freeOfScopes hsensitivity fun t h => ht t (by simp [h]))
      (hvs.freeOfScopes hbody fun t h => ht t (by simp [h]))
  | expression _ e, _, ⟨us, m, hts, hus, hm⟩, hu, ht => by
    subst hts
    exact .append (hus.freeOfScopes hu fun t h => ht t (by simp [h])) (.of_op hm)
  | empty _, _, ⟨m, hts, hm⟩, _, _ => by
    subst hts
    exact .of_op hm

theorem SpellsAll.freeOfScopes : ∀ {ss : List (Statement α)} {ts : List Token}, SpellsAll ss ts →
    Unscoped (systemNamesAll ss) → (∀ t ∈ ts, t.Faithful) → FreeOfScopes ts
  | [], _, hts, _, _ => by
    unfold SpellsAll at hts
    exact hts ▸ .nil
  | s :: ss, _, ⟨us, vs, hts, hus, hvs⟩, hu, ht => by
    subst hts
    obtain ⟨hs, hss⟩ := unscoped_append.1 hu
    exact .append (hus.freeOfScopes hs fun t h => ht t (by simp [h]))
      (hvs.freeOfScopes hss fun t h => ht t (by simp [h]))

theorem SpellsElse.freeOfScopes : ∀ {o : Option (Statement α)} {ts : List Token}, SpellsElse o ts →
    Unscoped (systemNamesOption o) → (∀ t ∈ ts, t.Faithful) → FreeOfScopes ts
  | none, _, hts, _, _ => by
    unfold SpellsElse at hts
    exact hts ▸ .nil
  | some s, _, ⟨e, us, hts, he, hus⟩, hu, ht => by
    subst hts
    exact .cons (.of_word he (by decide)) (hus.freeOfScopes hu fun t h => ht t (by simp [h]))

theorem SpellsDefault.freeOfScopes : ∀ {o : Option (Statement α)} {ts : List Token},
    SpellsDefault o ts → Unscoped (systemNamesOption o) → (∀ t ∈ ts, t.Faithful) → FreeOfScopes ts
  | none, _, hts, _, _ => by
    unfold SpellsDefault at hts
    exact hts ▸ .nil
  | some s, _, ⟨d, us, vs, hts, hd, hus, hvs⟩, hu, ht => by
    subst hts
    have hmark : FreeOfScopes us := by
      rcases hus with rfl | ⟨m, rfl, hm⟩
      · exact .nil
      · exact .of_op hm
    exact .cons (.of_word hd (by decide)) (.append hmark (hvs.freeOfScopes hu fun t h => ht t (by simp [h])))

theorem SpellsItems.freeOfScopes : ∀ {items : List (CaseItem α (Statement α))} {ts : List Token},
    SpellsItems items ts → Unscoped (systemNamesItems items) → (∀ t ∈ ts, t.Faithful) → FreeOfScopes ts
  | [], _, hts, _, _ => by
    unfold SpellsItems at hts
    exact hts ▸ .nil
  | ⟨_, labels, body⟩ :: items, _, ⟨us, m, vs, ws, hts, hus, hm, hvs, hws⟩, hu, ht => by
    subst hts
    obtain ⟨hlabels, hrest⟩ := unscoped_append.1 hu
    obtain ⟨hbody, hitems⟩ := unscoped_append.1 hrest
    exact .append (hus.freeOfScopes (unscoped_flatMap.1 hlabels) fun t h => ht t (by simp [h]))
      (.cons (.of_op hm) (.append (hvs.freeOfScopes hbody fun t h => ht t (by simp [h]))
        (hws.freeOfScopes hitems fun t h => ht t (by simp [h]))))

end

end Statement

end SystemVerilog
