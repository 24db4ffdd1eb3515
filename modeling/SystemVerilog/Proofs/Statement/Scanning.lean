import SystemVerilog.Proofs.Statement.Spelling

/-!
# Scanning over statements

The parts of a statement are found by scans for a closing word, a closing bracket, a colon or a
semicolon. The tokens of an expression or of a data type are inert: no scan but those for brackets
stops at them. A whole statement is passed over by the scans for the words that close a block or a case.
-/

namespace SystemVerilog

variable {α : Type}

/-- A reserved word has its own spelling, as it has in every token that is cut from a text. -/
def Token.Faithful (t : Token) : Prop := ∀ k, t.kind = .word k → t.text = k.spelling

/-- The words that open or close a block or a case statement. -/
def blockWords : List TokenKind :=
  [.word .kwBegin, .word .kwEnd, .word .kwCase, .word .kwCasez, .word .kwCasex, .word .kwEndCase]

/-- A token that only a search for it would find: no bracket, block word, semicolon or mark of a
conditional. -/
structure Inert (t : Token) : Prop where
  flat : t.kind.isFlat = true
  unblocked : t.kind ∉ blockWords
  unended : t.kind ≠ .op .semicolon

/-! ### Inert tokens -/

theorem TokenKind.isPlain_iff_ne {kind : TokenKind} (h : kind.isPlain = true) :
    kind ∉ blockWords ∧ kind ≠ .op .semicolon := by
  refine ⟨fun hk => ?_, ?_⟩
  · simp only [blockWords, List.mem_cons, List.not_mem_nil, or_false] at hk
    rcases hk with rfl | rfl | rfl | rfl | rfl | rfl <;> cases h
  · rintro rfl
    cases h

/-- The word behind a dollar sign is inert if the name that they make is no block name. -/
theorem PlainToken.inert {names : List String} {t : Token} (h : PlainToken names t)
    (hn : ∀ name ∈ names, name ∉ blockNames) (ht : t.Faithful) : Inert t := by
  have hflat := h.isFlat
  rcases h with h | ⟨hword, hname⟩
  · exact ⟨hflat, (TokenKind.isPlain_iff_ne h).1, (TokenKind.isPlain_iff_ne h).2⟩
  · have hsemicolon : t.kind ≠ .op .semicolon := by
      intro hk
      rw [hk] at hword
      cases hword
    refine ⟨hflat, fun hk => hn _ hname ?_, hsemicolon⟩
    simp only [blockWords, List.mem_cons, List.not_mem_nil, or_false] at hk
    rcases hk with hk | hk | hk | hk | hk | hk <;> rw [ht _ hk] <;> decide

theorem Inert.of_word {t : Token} {k : Keyword} (ht : t.kind = .word k) (hk : .word k ∉ blockWords) :
    Inert t := ⟨by rw [ht]; rfl, ht ▸ hk, by rw [ht]; exact nofun⟩

theorem Inert.of_namesDataType {t : Token} {k : Keyword} (ht : t.kind = .word k)
    (hk : k.namesDataType = true) : Inert t := by
  refine .of_word ht fun hmem => ?_
  simp only [blockWords, List.mem_cons, TokenKind.word.injEq, List.not_mem_nil, or_false] at hmem
  rcases hmem with rfl | rfl | rfl | rfl | rfl | rfl <;> cases hk

/-- Only brackets and the marks of conditionals need care in a search that does not seek inert
tokens. -/
theorem Balanced.kind_of_mem {ts : List Token} {t : Token} (h : Balanced Inert ts) (ht : t ∈ ts) :
    t.kind ∉ blockWords ∧ t.kind ≠ .op .semicolon := by
  rcases h.mem ht with h | h | h | h | h
  · exact ⟨h.unblocked, h.unended⟩
  all_goals
    refine ⟨fun hk => ?_, fun hk => ?_⟩
    · simp only [blockWords, List.mem_cons, List.not_mem_nil, or_false] at hk
      rcases hk with hk | hk | hk | hk | hk | hk <;> rw [hk] at h <;> cases h
    · rw [hk] at h
      cases h

namespace Expr

variable {e : Expr α} {es : List (Expr α)} {ts : List Token}

theorem Spells.inert (h : e.Spells ts) (hu : e.Unblocked) (ht : ∀ t ∈ ts, t.Faithful) :
    Balanced Inert ts :=
  (h.balanced (List.Subset.refl _)).mono fun t hmem hp => hp.inert hu (ht t hmem)

theorem unblocked_of_mem_allSystemNames (h : ∀ e ∈ es, e.Unblocked) :
    ∀ name ∈ allSystemNames es, name ∉ blockNames := by
  induction es with
  | nil => simp [allSystemNames, walkAll]
  | cons e es ih =>
    intro name hname
    simp only [allSystemNames, walkAll, List.filterMap_append, List.mem_append] at hname
    rcases hname with hname | hname
    · exact h e (by simp) name hname
    · exact ih (fun e he => h e (by simp [he])) name hname

theorem SpellsList.inert (h : SpellsList es ts) (hu : ∀ e ∈ es, e.Unblocked)
    (ht : ∀ t ∈ ts, t.Faithful) : Balanced Inert ts :=
  (h.balanced (List.Subset.refl _)).mono fun t hmem hp =>
    hp.inert (unblocked_of_mem_allSystemNames hu) (ht t hmem)

end Expr

/-! ### Data types and first clauses -/

section Types

variable {ts : List Token}

theorem SpellsMark.inert {β : Type} {meaning : TokenKind → Option β} {o : Option β}
    (h : SpellsMark meaning o ts) (hm : ∀ t b, meaning t.kind = some b → Inert t) :
    Balanced Inert ts := by
  cases o with
  | none =>
    obtain rfl : ts = [] := h
    exact .nil
  | some b =>
    obtain ⟨t, rfl, ht⟩ := h
    exact .one (hm t b ht)

theorem SpellsPacked.inert {bs : List (Bounds α)} (h : SpellsPacked bs ts)
    (hb : ∀ b ∈ bs, b.Canonical) (ht : ∀ t ∈ ts, t.Faithful) : Balanced Inert ts := by
  induction bs generalizing ts with
  | nil =>
    obtain rfl : ts = [] := h
    exact .nil
  | cons b bs ih =>
    obtain ⟨_, vs, rfl, ⟨o, us, m, ws, c, rfl, ho, hus, hm, hws, hc⟩, hvs⟩ := h
    obtain ⟨hl, hr⟩ := hb b (by simp)
    exact .append (.bounds ho hm hc (hus.inert hl.2 fun t h => ht t (by simp [h]))
        (hws.inert hr.2 fun t h => ht t (by simp [h])))
      (ih hvs (fun b h => hb b (by simp [h])) fun t h => ht t (by simp [h]))

theorem Inert.of_keywordIn? {t : Token} {k : Keyword}
    (h : TokenKind.keywordIn? Keyword.namesDataType t.kind = some k) : Inert t := by
  unfold TokenKind.keywordIn? at h
  split at h
  · rename_i k' hk
    split at h
    · rename_i hnames
      exact .of_namesDataType hk hnames
    · cases h
  · cases h

theorem Inert.of_signing {t : Token} {g : Signing} (h : Signing.ofKind? t.kind = some g) : Inert t := by
  unfold Signing.ofKind? at h
  split at h <;> first | exact .of_word ‹_› (by decide) | cases h

theorem DataType.Spells.inert {type : DataType α} (h : type.Spells ts) (hc : type.Canonical)
    (ht : ∀ t ∈ ts, t.Faithful) : Balanced Inert ts := by
  obtain ⟨us, vs, ws, rfl, hus, hvs, hws⟩ := h
  exact .append (hus.inert fun _ _ => .of_keywordIn?) (.append (hvs.inert fun _ _ => .of_signing)
    (hws.inert hc.bounds fun t h => ht t (by simp [h])))

theorem SpellsOption.inert {β : Type} {spells : β → List Token → Prop} {o : Option β}
    (h : SpellsOption spells o ts) (hb : ∀ b, o = some b → spells b ts → Balanced Inert ts) :
    Balanced Inert ts := by
  cases o with
  | none =>
    obtain rfl : ts = [] := h
    exact .nil
  | some b => exact hb b rfl h

theorem LoopInit.Spells.inert {init : LoopInit α} (h : init.Spells ts) (hc : init.Canonical)
    (ht : ∀ t ∈ ts, t.Faithful) : Balanced Inert ts := by
  obtain ⟨us, vs, ws, rfl, hus, hvs, hws⟩ := h
  obtain ⟨htype, -, -, hu⟩ := hc
  refine .append ?_ (.append ?_ (hws.inert hu fun t h => ht t (by simp [h])))
  · split at hus
    · obtain ⟨t, rfl, hk⟩ := hus
      exact .one (.of_word hk (by decide))
    · subst hus
      exact .nil
  · exact hvs.inert fun type hty hspell => hspell.inert (htype type hty) fun t h => ht t (by simp [h])

end Types

/-! ### Searches for closing words -/

/-- The searches for the words that close a block or a case statement pass over the tokens. -/
structure SkipsBlocks (ts : List Token) : Prop where
  block : SkipsPairs (.word .kwBegin) (.word .kwEnd) ts
  case : SkipsPairs (.word .kwCase) (.word .kwEndCase) ts

namespace SkipsBlocks

variable {ts us : List Token} {t o c : Token}

theorem nil : SkipsBlocks [] := ⟨.nil, .nil⟩

theorem append (hts : SkipsBlocks ts) (hus : SkipsBlocks us) : SkipsBlocks (ts ++ us) :=
  ⟨hts.block.append hus.block, hts.case.append hus.case⟩

theorem one (ht : t.kind ∉ blockWords) : SkipsBlocks [t] := by
  simp only [blockWords, List.mem_cons, List.not_mem_nil, or_false, not_or] at ht
  obtain ⟨h₁, h₂, h₃, h₄, h₅, h₆⟩ := ht
  exact ⟨.one (beq_false_of_ne h₁) (beq_false_of_ne h₂),
    .one (by simp [TokenKind.inFamily, h₃, h₄, h₅]) (beq_false_of_ne h₆)⟩

theorem cons (ht : t.kind ∉ blockWords) (hts : SkipsBlocks ts) : SkipsBlocks (t :: ts) :=
  append (one ht) hts

theorem of_inert (h : Balanced Inert ts) : SkipsBlocks ts := by
  have hall : ∀ t ∈ ts, SkipsBlocks [t] := fun t ht => one (h.kind_of_mem ht).1
  clear h
  induction ts with
  | nil => exact nil
  | cons t ts ih => exact append (hall t (by simp)) (ih fun u hu => hall u (by simp [hu]))

/-- A whole block. -/
theorem of_block (ho : o.kind = .word .kwBegin) (hc : c.kind = .word .kwEnd) (hts : SkipsBlocks ts) :
    SkipsBlocks (o :: (ts ++ [c])) := by
  refine ⟨.pair (by rw [ho]; rfl) (by rw [hc]; rfl) (by rw [hc]; rfl) hts.block, ?_⟩
  exact .cons (.one (by rw [ho]; rfl) (by rw [ho]; rfl))
    (hts.case.append (.one (by rw [hc]; rfl) (by rw [hc]; rfl)))

/-- A whole case statement. -/
theorem of_case {k : CaseKind} (ho : CaseKind.ofKind? o.kind = some k) (hc : c.kind = .word .kwEndCase)
    (hts : SkipsBlocks ts) : SkipsBlocks (o :: (ts ++ [c])) := by
  have hkind : o.kind = .word .kwCase ∨ o.kind = .word .kwCasez ∨ o.kind = .word .kwCasex := by
    unfold CaseKind.ofKind? at ho
    split at ho <;> simp_all
  refine ⟨.cons (.one ?_ ?_) (hts.block.append (.one (by rw [hc]; rfl) (by rw [hc]; rfl))),
    .pair ?_ (by rw [hc]; rfl) (by rw [hc]; rfl) hts.case⟩
  all_goals rcases hkind with hk | hk | hk <;> rw [hk] <;> rfl

end SkipsBlocks

section Parts

variable {ts next : List Token}

theorem SpellsLabel.skips {label : Option String} (h : SpellsLabel label ts) : SkipsBlocks ts := by
  cases label with
  | none =>
    obtain rfl : ts = [] := h
    exact .nil
  | some label =>
    obtain ⟨m, t, rfl, hm, ht, -⟩ := h
    refine .cons (by rw [hm]; decide) (.one fun hk => ?_)
    simp only [blockWords, List.mem_cons, List.not_mem_nil, or_false] at hk
    rcases hk with hk | hk | hk | hk | hk | hk <;> rw [hk] at ht <;> cases ht

theorem SpellsCondition.skips {e : Expr α} (h : SpellsCondition e ts) (he : e.Unblocked)
    (ht : ∀ t ∈ ts, t.Faithful) : SkipsBlocks ts := by
  obtain ⟨o, us, c, rfl, ho, hus, hc⟩ := h
  exact .cons (by rw [ho]; decide) (.append (.of_inert (hus.inert he fun t h => ht t (by simp [h])))
    (.one (by rw [hc]; decide)))

theorem Inert.of_timeUnit {t : Token} {u : TimeUnit} (h : TimeUnit.ofKind? t.kind = some u) : Inert t := by
  unfold TimeUnit.ofKind? at h
  split at h <;> first | exact .of_word ‹_› (by decide) | cases h

theorem Inert.of_edge {t : Token} {e : Edge} (h : Edge.ofKind? t.kind = some e) : Inert t := by
  unfold Edge.ofKind? at h
  split at h <;> first | exact .of_word ‹_› (by decide) | cases h

theorem Delay.Spells.skips {delay : Delay α} (h : delay.Spells ts next)
    (hd : delay.magnitude.Unblocked) (ht : ∀ t ∈ ts, t.Faithful) : SkipsBlocks ts := by
  obtain ⟨h, us, m, vs, rfl, hh, hus, hvs, -⟩ := h
  rw [show h :: (us ++ m :: vs) = h :: ((us ++ [m]) ++ vs) by simp]
  refine .cons (by rw [hh]; decide) (.append (.of_inert (hus.inert hd fun t h => ht t ?_))
    (.of_inert (hvs.inert fun _ _ => .of_timeUnit)))
  simp only [List.mem_append, List.mem_singleton] at h
  rcases h with h | rfl <;> simp [*]

theorem Event.Spells.inert {event : Event α} (h : event.Spells ts) (he : event.expr.Unblocked)
    (ht : ∀ t ∈ ts, t.Faithful) : Balanced Inert ts := by
  obtain ⟨us, vs, rfl, hus, hvs⟩ := h
  exact .append (hus.inert fun _ _ => .of_edge) (hvs.inert he fun t h => ht t (by simp [h]))

theorem SpellsEvents.inert {events : List (Event α)} (h : SpellsEvents events ts)
    (he : ∀ event ∈ events, event.expr.Unblocked) (ht : ∀ t ∈ ts, t.Faithful) : Balanced Inert ts := by
  induction events generalizing ts with
  | nil =>
    obtain rfl : ts = [] := h
    exact .nil
  | cons event events ih =>
    obtain ⟨m, us, vs, rfl, hm, hus, hvs⟩ := h
    have hinert : Inert m := by
      rcases hm with hm | hm
      · exact .of_word hm (by decide)
      · exact ⟨by rw [hm]; rfl, by rw [hm]; decide, by rw [hm]; decide⟩
    exact .cons hinert (.append (hus.inert (he event (by simp)) fun t h => ht t (by simp [h]))
      (ih hvs (fun event h => he event (by simp [h])) fun t h => ht t (by simp [h])))

theorem Sensitivity.Spells.skips {sensitivity : Sensitivity α} (h : sensitivity.Spells ts)
    (hc : sensitivity.Canonical) (ht : ∀ t ∈ ts, t.Faithful) : SkipsBlocks ts := by
  obtain ⟨h, us, rfl, hh, hrest⟩ := h
  refine .cons (by rw [hh]; decide) ?_
  unfold Sensitivity.SpellsRest at hrest
  split at hrest
  · rcases hrest with ⟨m, rfl, hm⟩ | ⟨o, m, c, rfl, ho, hm, hc⟩
    · exact .one (by rw [hm]; decide)
    · exact .cons (by rw [ho]; decide) (.cons (by rw [hm]; decide) (.one (by rw [hc]; decide)))
  · rename_i event events hevents
    obtain ⟨o, us, vs, c, rfl, ho, hus, hvs, hcl⟩ := hrest
    have hunblocked : ∀ event ∈ sensitivity.events, event.expr.Unblocked := fun e he => (hc.2 e he).2
    rw [hevents] at hunblocked
    refine .cons (by rw [ho]; decide) (.append (.append (.of_inert ?_) (.of_inert ?_))
      (.one (by rw [hcl]; decide)))
    · exact hus.inert (hunblocked event (by simp)) fun t h => ht t (by simp [h])
    · exact hvs.inert (fun e he => hunblocked e (by simp [he])) fun t h => ht t (by simp [h])

theorem LoopHeader.Spells.skips {header : LoopHeader α} (h : header.Spells ts) (hc : header.Canonical)
    (ht : ∀ t ∈ ts, t.Faithful) : SkipsBlocks ts := by
  obtain ⟨o, us, m, vs, n, ws, c, rfl, ho, hus, hm, hvs, hn, hws, hcl⟩ := h
  have hinit : Balanced Inert us := hus.inert fun init hi hs =>
    hs.inert (hc.init init hi) fun t h => ht t (by simp [h])
  have hcond : Balanced Inert vs := hvs.inert fun e he hs =>
    hs.inert (hc.condition e he).2 fun t h => ht t (by simp [h])
  have hstep : Balanced Inert ws := hws.inert fun e he hs =>
    hs.inert (hc.step e he).2 fun t h => ht t (by simp [h])
  exact .cons (by rw [ho]; decide) (.append (.append (.of_inert hinit) (.cons (by rw [hm]; decide)
    (.append (.of_inert hcond) (.cons (by rw [hn]; decide) (.of_inert hstep))))) (.one (by rw [hcl]; decide)))

end Parts

/-! ### Searches over whole statements -/

namespace Statement

mutual

/-- The searches for closing words pass over a statement. -/
theorem Spells.skips : ∀ {s : Statement α} {ts : List Token}, s.Spells ts → s.Canonical →
    (∀ t ∈ ts, t.Faithful) → SkipsBlocks ts
  | block _ label statements, _, ⟨b, ls, us, e, ms, hts, hb, hls, hus, he, hms⟩, hc, ht => by
    subst hts
    have hmarks : SkipsBlocks ms := by
      rcases hms with rfl | ⟨-, hms⟩
      · exact .nil
      · exact hms.skips
    exact .append (.of_block hb he (.append hls.skips (hus.skips hc fun t h => ht t (by simp [h])))) hmarks
  | ifElse _ condition thenBranch elseBranch, _, ⟨i, us, vs, ws, hts, hi, hus, hvs, hws⟩, hc, ht => by
    subst hts
    obtain ⟨hcond, hthen, helse, -⟩ := hc
    exact .cons (by rw [hi]; decide) (.append (hus.skips hcond.2 fun t h => ht t (by simp [h]))
      (.append (hvs.skips hthen fun t h => ht t (by simp [h]))
        (hws.skips helse fun t h => ht t (by simp [h]))))
  | caseOf _ kind selector items default, _, ⟨k, us, vs, ws, e, hts, hk, hus, hvs, hws, he⟩, hc, ht => by
    subst hts
    obtain ⟨hsel, hitems, hdefault⟩ := hc
    exact .of_case hk he (.append (hus.skips hsel.2 fun t h => ht t (by simp [h]))
      (.append (hvs.skips hitems fun t h => ht t (by simp [h]))
        (hws.skips hdefault fun t h => ht t (by simp [h]))))
  | loop _ header body, _, ⟨f, us, vs, hts, hf, hus, hvs⟩, hc, ht => by
    subst hts
    exact .cons (by rw [hf]; decide) (.append (hus.skips hc.1 fun t h => ht t (by simp [h]))
      (hvs.skips hc.2 fun t h => ht t (by simp [h])))
  | delayed _ delay body, _, ⟨us, vs, hts, hus, hvs⟩, hc, ht => by
    subst hts
    exact .append (hus.skips hc.1.1.2 fun t h => ht t (by simp [h]))
      (hvs.skips hc.2.1 fun t h => ht t (by simp [h]))
  | event _ sensitivity body, _, ⟨us, vs, hts, hus, hvs⟩, hc, ht => by
    subst hts
    exact .append (hus.skips hc.1 fun t h => ht t (by simp [h]))
      (hvs.skips hc.2 fun t h => ht t (by simp [h]))
  | expression _ e, _, ⟨us, m, hts, hus, hm⟩, hc, ht => by
    subst hts
    exact .append (.of_inert (hus.inert hc.2 fun t h => ht t (by simp [h]))) (.one (by rw [hm]; decide))
  | empty _, _, ⟨m, hts, hm⟩, _, _ => by
    subst hts
    exact .one (by rw [hm]; decide)

theorem SpellsAll.skips : ∀ {ss : List (Statement α)} {ts : List Token}, SpellsAll ss ts →
    CanonicalAll ss → (∀ t ∈ ts, t.Faithful) → SkipsBlocks ts
  | [], _, hts, _, _ => by
    unfold SpellsAll at hts
    exact hts ▸ .nil
  | s :: ss, _, ⟨us, vs, hts, hus, hvs⟩, hc, ht => by
    subst hts
    exact .append (hus.skips hc.1 fun t h => ht t (by simp [h]))
      (hvs.skips hc.2 fun t h => ht t (by simp [h]))

theorem SpellsElse.skips : ∀ {o : Option (Statement α)} {ts : List Token}, SpellsElse o ts →
    CanonicalOption o → (∀ t ∈ ts, t.Faithful) → SkipsBlocks ts
  | none, _, hts, _, _ => by
    unfold SpellsElse at hts
    exact hts ▸ .nil
  | some s, _, ⟨e, us, hts, he, hus⟩, hc, ht => by
    subst hts
    exact .cons (by rw [he]; decide) (hus.skips hc fun t h => ht t (by simp [h]))

theorem SpellsDefault.skips : ∀ {o : Option (Statement α)} {ts : List Token}, SpellsDefault o ts →
    CanonicalOption o → (∀ t ∈ ts, t.Faithful) → SkipsBlocks ts
  | none, _, hts, _, _ => by
    unfold SpellsDefault at hts
    exact hts ▸ .nil
  | some s, _, ⟨d, us, vs, hts, hd, hus, hvs⟩, hc, ht => by
    subst hts
    have hmark : SkipsBlocks us := by
      rcases hus with rfl | ⟨m, rfl, hm⟩
      · exact .nil
      · exact .one (by rw [hm]; decide)
    exact .cons (by rw [hd]; decide) (.append hmark (hvs.skips hc fun t h => ht t (by simp [h])))

theorem SpellsItems.skips : ∀ {items : List (CaseItem α (Statement α))} {ts : List Token},
    SpellsItems items ts → CanonicalItems items → (∀ t ∈ ts, t.Faithful) → SkipsBlocks ts
  | [], _, hts, _, _ => by
    unfold SpellsItems at hts
    exact hts ▸ .nil
  | ⟨_, labels, body⟩ :: items, _, ⟨us, m, vs, ws, hts, hus, hm, hvs, hws⟩, hc, ht => by
    subst hts
    obtain ⟨-, hlabels, hbody, hitems⟩ := hc
    exact .append (.of_inert (hus.inert (fun e he => (hlabels e he).2) fun t h => ht t (by simp [h])))
      (.cons (by rw [hm]; decide) (.append (hvs.skips hbody fun t h => ht t (by simp [h]))
        (hws.skips hitems fun t h => ht t (by simp [h]))))

end

end Statement

end SystemVerilog
