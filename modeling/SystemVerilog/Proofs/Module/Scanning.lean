import SystemVerilog.Proofs.Module.Scopes

/-!
# Scanning over module items

The parts of a module are found by scans for a closing word or a semicolon. The tokens of a declaration in
front of its semicolon are calm: no such scan stops at them. Over a whole item the scans for the words that
close a block, a case statement, a generate region or a module pass.
-/

namespace SystemVerilog

variable {α β : Type} {ts us : List Token}

/-! ### Calm tokens -/

/-- Brackets nest, and no token ends a declaration or opens or closes anything by a word. -/
structure Calm (ts : List Token) : Prop where
  inert : Balanced Inert ts
  free : FreeOfScopes ts

namespace Calm

variable {t o c : Token}

theorem nil : Calm [] := ⟨.nil, .nil⟩

theorem append (hts : Calm ts) (hus : Calm us) : Calm (ts ++ us) :=
  ⟨hts.inert.append hus.inert, hts.free.append hus.free⟩

theorem cons (ht : Calm [t]) (hts : Calm ts) : Calm (t :: ts) := append ht hts

theorem of_op {o : Operator} (h : t.kind = .op o) (hflat : (TokenKind.op o).isFlat = true)
    (hne : o ≠ .semicolon) : Calm [t] := by
  refine ⟨.one ⟨h ▸ hflat, ?_, ?_⟩, .of_op h⟩
  · rw [h]
    simp [blockWords]
  · rw [h]
    simpa using hne

theorem of_word {k : Keyword} (h : t.kind = .word k) (hk : .word k ∉ blockWords ++ scopeWords) :
    Calm [t] := by
  rw [List.mem_append, not_or] at hk
  exact ⟨.one (.of_word h hk.1), .of_word h hk.2⟩

theorem of_isPlain (h : t.kind.isPlain = true) : Calm [t] := by
  have hplain : PlainToken [] t := .inl h
  obtain ⟨hblock, hsemicolon⟩ := TokenKind.isPlain_iff_ne h
  refine ⟨.one ⟨hplain.isFlat, hblock, hsemicolon⟩, .one fun hmem => ?_⟩
  obtain ⟨k, -, hk, -⟩ := mem_scopeWords hmem
  rw [h] at hk
  cases hk

theorem of_isName (h : t.kind.isName = true) : Calm [t] := of_isPlain (TokenKind.isPlain_of_isName h)

theorem pair {opening closing : Operator} (ho : o.kind = .op opening) (hc : c.kind = .op closing)
    (hp : (.op opening, .op closing) ∈ bracketPairs) (hts : Calm ts) : Calm (o :: (ts ++ [c])) := by
  refine ⟨.pair ?_ hts.inert, .cons (.of_op ho) (hts.free.append (.of_op hc))⟩
  rw [ho, hc]
  exact hp

theorem skipsParens (h : Calm ts) : SkipsPairs (.op .lParen) (.op .rParen) ts :=
  h.inert.skipsPairs (fun _ h => h.flat) (by decide)

end Calm

/-! ### Declarations are calm -/

section Declarations

theorem Expr.Spells.calm {e : Expr α} (h : e.Spells ts) (hb : e.Unblocked) (hu : Unscoped e.systemNames)
    (ht : ∀ t ∈ ts, t.Faithful) : Calm ts := ⟨h.inert hb ht, h.freeOfScopes hu ht⟩

theorem DataType.Spells.calm {type : DataType α} (h : type.Spells ts) (hfits : type.Fits)
    (ht : ∀ t ∈ ts, t.Faithful) : Calm ts := ⟨h.inert hfits.1 ht, h.freeOfScopes hfits.2 ht⟩

theorem SpellsOption.calm {spells : β → List Token → Prop} {o : Option β} (h : SpellsOption spells o ts)
    (hb : ∀ b, o = some b → spells b ts → Calm ts) : Calm ts := by
  cases o with
  | none => exact h ▸ .nil
  | some b => exact hb b rfl h

theorem SpellsMark.calm {meaning : TokenKind → Option β} {o : Option β} (h : SpellsMark meaning o ts)
    (hm : ∀ t b, meaning t.kind = some b → Calm [t]) : Calm ts := by
  cases o with
  | none => exact h ▸ .nil
  | some b =>
    obtain ⟨t, rfl, ht⟩ := h
    exact hm t b ht

section Lists

variable {spells : β → List Token → Prop} {bs : List β}

theorem SpellsEach.calm (h : SpellsEach spells bs ts) (ht : ∀ t ∈ ts, t.Faithful)
    (hb : ∀ b ∈ bs, ∀ us, spells b us → (∀ t ∈ us, t.Faithful) → Calm us) : Calm ts := by
  induction bs generalizing ts with
  | nil => exact h ▸ .nil
  | cons b bs ih =>
    obtain ⟨us, vs, rfl, hus, hvs⟩ := h
    exact .append (hb b (by simp) us hus fun t h => ht t (by simp [h]))
      (ih hvs (fun t h => ht t (by simp [h])) fun b h => hb b (by simp [h]))

theorem SpellsLed.calm (h : SpellsLed spells bs ts) (ht : ∀ t ∈ ts, t.Faithful)
    (hb : ∀ b ∈ bs, ∀ us, spells b us → (∀ t ∈ us, t.Faithful) → Calm us) : Calm ts := by
  induction bs generalizing ts with
  | nil => exact h ▸ .nil
  | cons b bs ih =>
    obtain ⟨m, us, vs, rfl, hm, hus, hvs⟩ := h
    exact .cons (.of_op hm rfl (by decide)) (.append (hb b (by simp) us hus fun t h => ht t (by simp [h]))
      (ih hvs (fun t h => ht t (by simp [h])) fun b h => hb b (by simp [h])))

theorem SpellsCommas.calm (h : SpellsCommas spells bs ts) (ht : ∀ t ∈ ts, t.Faithful)
    (hb : ∀ b ∈ bs, ∀ us, spells b us → (∀ t ∈ us, t.Faithful) → Calm us) : Calm ts := by
  cases bs with
  | nil => exact h ▸ .nil
  | cons b bs =>
    obtain ⟨us, vs, rfl, hus, hvs⟩ := h
    exact .append (hb b (by simp) us hus fun t h => ht t (by simp [h]))
      (hvs.calm (fun t h => ht t (by simp [h])) fun b h => hb b (by simp [h]))

theorem SpellsEntries.calm (h : SpellsEntries spells bs ts) (ht : ∀ t ∈ ts, t.Faithful)
    (hb : ∀ b ∈ bs, ∀ us, spells b us → (∀ t ∈ us, t.Faithful) → Calm us) : Calm ts := by
  induction bs generalizing ts with
  | nil => exact h ▸ .nil
  | cons b bs ih =>
    obtain ⟨us, vs, rfl, hus, hvs⟩ := h
    refine .append (hb b (by simp) us hus fun t h => ht t (by simp [h])) ?_
    rcases hvs with ⟨-, rfl⟩ | ⟨m, ws, rfl, hm, hws⟩
    · exact .nil
    · exact .cons (.of_op hm rfl (by decide))
        (ih hws (fun t h => ht t (by simp [h])) fun b h => hb b (by simp [h]))

end Lists

theorem SpellsParens.calm {spells : List Token → Prop} (h : SpellsParens spells ts)
    (ht : ∀ t ∈ ts, t.Faithful) (hb : ∀ us, spells us → (∀ t ∈ us, t.Faithful) → Calm us) : Calm ts := by
  obtain ⟨o, us, c, rfl, ho, hus, hc⟩ := h
  exact .pair ho hc (by decide) (hb us hus fun t h => ht t (by simp [h]))

theorem SpellsName.calm {name : String} (h : SpellsName name ts) : Calm ts := by
  obtain ⟨t, rfl, ht, -⟩ := h
  exact .of_isName ht

theorem Dimension.Spells.calm {d : Dimension α} (h : d.Spells ts) (hd : d.Canonical)
    (ht : ∀ t ∈ ts, t.Faithful) : Calm ts := by
  cases d with
  | bounds b =>
    have hfree : FreeOfScopes ts := Bounds.Spells.freeOfScopes h hd.2 ht
    obtain ⟨o, us, m, vs, c, rfl, ho, hus, hm, hvs, hc⟩ := h
    obtain ⟨⟨hleft, hright⟩, -⟩ := hd
    exact ⟨.bounds ho hm hc (hus.inert hleft.2 fun t h => ht t (by simp [h]))
      (hvs.inert hright.2 fun t h => ht t (by simp [h])), hfree⟩
  | size tag index =>
    obtain ⟨o, us, c, rfl, ho, hus, hc⟩ := h
    exact .pair ho hc (by decide) (hus.calm hd.1.2 hd.2 fun t h => ht t (by simp [h]))

theorem Declarator.Spells.calm {d : Declarator α} (h : d.Spells ts) (hd : d.Canonical)
    (ht : ∀ t ∈ ts, t.Faithful) : Calm ts := by
  obtain ⟨n, us, vs, rfl, hn, -, hus, hvs⟩ := h
  have hdims : Calm us := hus.calm (fun t h => ht t (by simp [h])) fun dim hdim _ hspell =>
    hspell.calm (hd.dims dim hdim)
  have hvalue : Calm vs := by
    refine hvs.calm fun e he hspell => ?_
    obtain ⟨m, ws, rfl, hm, hws⟩ := hspell
    obtain ⟨hembeds, hu⟩ := hd.value e he
    exact .cons (.of_op hm rfl (by decide)) (hws.calm hembeds.2 hu fun t h => ht t (by simp [h]))
  exact .cons (.of_isName hn) (hdims.append hvalue)

theorem SpellsDeclared.calm {type : Option (DataType α)} {ds : List (Declarator α)}
    (h : SpellsDeclared type ds ts) (hd : Declares type ds) (ht : ∀ t ∈ ts, t.Faithful) : Calm ts := by
  obtain ⟨us, vs, rfl, hus, hvs⟩ := h
  have htype : Calm us := hus.calm fun type hsome hspell =>
    hspell.calm (hd.type type hsome) fun t h => ht t (by simp [h])
  have hnames : Calm vs := hvs.calm (fun t h => ht t (by simp [h])) fun d hmem _ hspell =>
    hspell.calm (hd.declarators d hmem)
  exact htype.append hnames

/-- A class of reserved words without those that open or close something. -/
theorem calm_of_isWordWith {t : Token} {p : Keyword → Bool} (h : t.kind.isWordWith p = true)
    (hp : ∀ k, .word k ∈ blockWords ++ scopeWords → p k = false) : Calm [t] := by
  cases hkind : t.kind with
  | word k =>
    rw [hkind] at h
    refine .of_word hkind fun hmem => ?_
    have hk : p k = true := h
    rw [hp k hmem] at hk
    cases hk
  | _ =>
    rw [hkind] at h
    cases h

theorem forall_mem_scopes {p : Keyword → Prop} : (∀ k, .word k ∈ blockWords ++ scopeWords → p k) ↔
    p .kwBegin ∧ p .kwEnd ∧ p .kwCase ∧ p .kwCasez ∧ p .kwCasex ∧ p .kwEndCase ∧ p .kwModule ∧
      p .kwEndModule ∧ p .kwGenerate ∧ p .kwEndGenerate := by
  simp [blockWords, scopeWords, or_imp, forall_and]

theorem calm_of_isNetType {t : Token} (h : t.kind.isNetType = true) : Calm [t] :=
  calm_of_isWordWith h (forall_mem_scopes.2 (by decide))

theorem calm_of_netType {t : Token} {k : Keyword} (h : TokenKind.keywordIn? Keyword.isNetType t.kind = some k) :
    Calm [t] := by
  unfold TokenKind.keywordIn? at h
  split at h
  · rename_i k' hk
    split at h
    · rename_i hnet
      refine calm_of_isNetType ?_
      rw [hk]
      exact hnet
    · cases h
  · cases h

theorem calm_of_direction {t : Token} {d : Direction} (h : Direction.ofKind? t.kind = some d) : Calm [t] := by
  unfold Direction.ofKind? at h
  split at h <;> first | exact .of_word ‹_› (by decide) | cases h

theorem calm_of_parameterWord {t : Token} {b : Bool} (h : parameterWord? t.kind = some b) : Calm [t] := by
  unfold parameterWord? at h
  split at h <;> first | exact .of_word ‹_› (by decide) | cases h

/-! ### Module headers -/

/-- What the entries of a header parameter list declare is what its groups declare. -/
theorem ParameterForms.declares {groups : List (ParameterGroup α)} {fs : List (ParameterForm α)}
    {before : Option Bool} (h : ParameterForms before groups fs) (hg : ∀ g ∈ groups, g.Canonical) :
    ∀ f ∈ fs, Declares f.type [f.declarator] := by
  induction groups generalizing before fs with
  | nil =>
    obtain rfl : fs = [] := h
    exact fun _ h => by cases h
  | cons g gs ih =>
    obtain ⟨isLocal, d, ds, rest, hds, rfl, -, -, hrest⟩ := h
    obtain ⟨htype, -, hdeclared⟩ := hg g (by simp)
    rw [hds] at hdeclared
    refine List.forall_mem_cons.2 ⟨?_, List.forall_mem_append.2 ⟨fun f hf => ?_, ?_⟩⟩
    · exact ⟨htype, List.cons_ne_nil _ _, List.forall_mem_singleton.2 (hdeclared d (by simp))⟩
    · obtain ⟨d', hd', rfl⟩ := List.mem_map.1 hf
      exact ⟨nofun, List.cons_ne_nil _ _, List.forall_mem_singleton.2 (hdeclared d' (by simp [hd']))⟩
    · exact ih hrest fun g h => hg g (by simp [h])

/-- What the entries of a header port list declare is what its groups declare. -/
theorem PortForms.declares {groups : List (PortGroup α)} {fs : List (PortForm α)}
    {before : Option Direction} (h : PortForms before groups fs) (hg : ∀ g ∈ groups, g.Canonical) :
    ∀ f ∈ fs, Declares f.type [f.declarator] := by
  induction groups generalizing before fs with
  | nil =>
    obtain rfl : fs = [] := h
    exact fun _ h => by cases h
  | cons g gs ih =>
    obtain ⟨direction, d, ds, rest, hds, rfl, -, -, hrest⟩ := h
    obtain ⟨htype, -, hdeclared⟩ := (hg g (by simp)).declares
    rw [hds] at hdeclared
    refine List.forall_mem_cons.2 ⟨?_, List.forall_mem_append.2 ⟨fun f hf => ?_, ?_⟩⟩
    · exact ⟨htype, List.cons_ne_nil _ _, List.forall_mem_singleton.2 (hdeclared d (by simp))⟩
    · obtain ⟨d', hd', rfl⟩ := List.mem_map.1 hf
      exact ⟨nofun, List.cons_ne_nil _ _, List.forall_mem_singleton.2 (hdeclared d' (by simp [hd']))⟩
    · exact ih hrest fun g h => hg g (by simp [h])

theorem ParameterForm.Spells.calm {f : ParameterForm α} (h : f.Spells ts)
    (hd : Declares f.type [f.declarator]) (ht : ∀ t ∈ ts, t.Faithful) : Calm ts := by
  obtain ⟨us, vs, ws, rfl, hus, hvs, hws⟩ := h
  have htype : Calm vs := hvs.calm fun type hsome hspell =>
    hspell.calm (hd.type type hsome) fun t h => ht t (by simp [h])
  have hname : Calm ws := hws.calm (hd.declarators _ (by simp)) fun t h => ht t (by simp [h])
  exact .append (hus.calm fun _ _ => calm_of_parameterWord) (htype.append hname)

theorem PortForm.Spells.calm {f : PortForm α} (h : f.Spells ts) (hd : Declares f.type [f.declarator])
    (ht : ∀ t ∈ ts, t.Faithful) : Calm ts := by
  obtain ⟨us, vs, ws, xs, rfl, hus, hvs, hws, hxs⟩ := h
  have hnet : Calm vs := SpellsMark.calm hvs fun _ _ => calm_of_netType
  have htype : Calm ws := hws.calm fun type hsome hspell =>
    hspell.calm (hd.type type hsome) fun t h => ht t (by simp [h])
  have hname : Calm xs := hxs.calm (hd.declarators _ (by simp)) fun t h => ht t (by simp [h])
  exact .append (hus.calm fun _ _ => calm_of_direction) (hnet.append (htype.append hname))

theorem SpellsParameters.calm {groups : List (ParameterGroup α)} (h : SpellsParameters groups ts)
    (hg : ∀ g ∈ groups, g.Canonical) (ht : ∀ t ∈ ts, t.Faithful) : Calm ts := by
  rcases h with ⟨-, rfl⟩ | ⟨s, us, rfl, hs, hus⟩
  · exact .nil
  · refine .cons (.of_op hs rfl (by decide)) (hus.calm (fun t h => ht t (by simp [h])) ?_)
    rintro vs ⟨fs, hforms, hvs⟩ hfaithful
    exact hvs.calm hfaithful fun f hf _ hspell => hspell.calm (hforms.declares hg f hf)

theorem PortList.Spells.calm {ports : PortList α} (h : ports.Spells ts) (hp : ports.Canonical)
    (ht : ∀ t ∈ ts, t.Faithful) : Calm ts := by
  cases ports with
  | empty =>
    rcases h with rfl | h
    · exact .nil
    · exact h.calm ht fun us hus _ => hus ▸ .nil
  | ansi groups =>
    refine SpellsParens.calm h ht ?_
    rintro us ⟨fs, hforms, hus⟩ hfaithful
    exact hus.calm hfaithful fun f hf _ hspell => hspell.calm (hforms.declares hp.2 f hf)
  | nonAnsi names =>
    exact SpellsParens.calm h ht fun us hus hfaithful =>
      hus.calm hfaithful fun _ _ _ hspell _ => SpellsName.calm hspell

/-! ### Instances -/

theorem Connection.Spells.calm {c : Connection α} (h : c.Spells ts) (hc : c.Canonical)
    (ht : ∀ t ∈ ts, t.Faithful) : Calm ts := by
  unfold Connection.Spells at h
  split at h
  · obtain ⟨e, he, hspell⟩ := h
    obtain ⟨hembeds, hu⟩ := hc.value e he
    exact hspell.calm hembeds.2 hu ht
  · obtain ⟨d, n, us, rfl, hd, hn, -, hus⟩ := h
    refine .cons (.of_op hd rfl (by decide)) (.cons (.of_isName hn)
      (hus.calm (fun t h => ht t (by simp [h])) fun vs hvs hfaithful => ?_))
    exact hvs.calm fun e he hspell => hspell.calm (hc.value e he).1.2 (hc.value e he).2 hfaithful

theorem SpellsConnections.calm {cs : List (Connection α)} (h : SpellsConnections cs ts)
    (hc : ∀ c ∈ cs, c.Canonical) (ht : ∀ t ∈ ts, t.Faithful) : Calm ts :=
  SpellsParens.calm h ht fun _ hus hfaithful => hus.calm hfaithful fun c hmem _ hspell => hspell.calm (hc c hmem)

end Declarations

/-! ### Directives -/

section Directives

theorem calm_of_directive {t : Token} (h : t.kind = .directive) : Calm [t] :=
  ⟨.one ⟨by rw [h]; rfl, by rw [h]; decide, by rw [h]; decide⟩, .one (by rw [h]; decide)⟩

theorem calm_of_timeUnit {t : Token} {u : TimeUnit} (h : TimeUnit.ofKind? t.kind = some u) : Calm [t] := by
  unfold TimeUnit.ofKind? at h
  split at h <;> first | exact .of_word ‹_› (by decide) | cases h

theorem TimeValue.Spells.calm {time : TimeValue} (h : time.Spells ts) : Calm ts := by
  obtain ⟨m, u, rfl, hm, -, hu⟩ := h
  exact .cons (.of_isPlain (by rw [hm]; rfl)) (calm_of_timeUnit hu)

theorem SpellsQuoted.calm {interior : String} (h : SpellsQuoted interior ts) : Calm ts := by
  obtain ⟨t, rfl, ht, -⟩ := h
  exact .of_isPlain (by rw [ht]; rfl)

theorem DirectiveKind.Spells.calm {kind : DirectiveKind α} (h : kind.Spells ts) (hc : kind.Canonical) :
    Calm ts := by
  obtain ⟨t, us, rfl, ht, -, hus⟩ := h
  refine .cons (calm_of_directive ht) ?_
  cases kind with
  | beginKeywords version => exact SpellsQuoted.calm hus
  | includeFile path => exact SpellsQuoted.calm hus
  | timescale unit precision =>
    obtain ⟨us, d, vs, rfl, hunit, hd, hprecision⟩ := hus
    exact .append hunit.calm (.cons (.of_op hd rfl (by decide)) hprecision.calm)
  | defaultNettype netType =>
    obtain ⟨u, rfl, hu, -⟩ := hus
    rcases hu with hu | hu
    · exact .of_isPlain (by rw [hu]; rfl)
    · exact calm_of_isNetType hu
  | unconnectedDrive pull =>
    obtain ⟨u, rfl, hu⟩ := hus
    have hpull : u.kind.isWordWith Keyword.isPull = true := by
      rw [hu]
      exact hc
    exact calm_of_isWordWith hpull (forall_mem_scopes.2 (by decide))
  | conditional negated macroName skipped => exact hc.elim
  | _ => exact hus ▸ .nil

end Directives

/-! ### Tokens up to a semicolon -/

section Ended

theorem SpellsEnded.calm {spells : List Token → Prop} (h : SpellsEnded spells ts)
    (ht : ∀ t ∈ ts, t.Faithful) (hb : ∀ us, spells us → (∀ t ∈ us, t.Faithful) → Calm us) :
    SpellsEnded Calm ts := by
  obtain ⟨us, m, rfl, hus, hm⟩ := h
  exact ⟨us, m, rfl, hb us hus fun t h => ht t (by simp [h]), hm⟩

theorem ParameterGroup.Spells.calm {group : ParameterGroup α} (h : group.Spells ts) (hc : group.Canonical)
    (ht : ∀ t ∈ ts, t.Faithful) : SpellsEnded Calm ts := by
  refine SpellsEnded.calm h ht ?_
  rintro us ⟨k, vs, rfl, hk, hvs⟩ hfaithful
  exact .cons (calm_of_parameterWord hk) (hvs.calm hc fun t h => hfaithful t (by simp [h]))

theorem PortGroup.Spells.calm {group : PortGroup α} (h : group.Spells ts) (hc : group.Canonical)
    (ht : ∀ t ∈ ts, t.Faithful) : SpellsEnded Calm ts := by
  refine SpellsEnded.calm h ht ?_
  rintro us ⟨k, vs, ws, rfl, hk, hvs, hws⟩ hfaithful
  exact .cons (calm_of_direction hk) (.append (SpellsMark.calm hvs fun _ _ => calm_of_netType)
    (hws.calm hc.declares fun t h => hfaithful t (by simp [h])))

theorem SignalGroup.Spells.calm {group : SignalGroup α} (h : group.Spells ts) (hc : group.Canonical)
    (ht : ∀ t ∈ ts, t.Faithful) : SpellsEnded Calm ts := by
  refine SpellsEnded.calm h ht ?_
  rintro us ⟨vs, ws, rfl, hvs, hws⟩ hfaithful
  exact .append (SpellsMark.calm hvs fun _ _ => calm_of_netType)
    (hws.calm hc.declares fun t h => hfaithful t (by simp [h]))

theorem Genvars.Spells.calm {group : Genvars α} (h : group.Spells ts) (ht : ∀ t ∈ ts, t.Faithful) :
    SpellsEnded Calm ts := by
  refine SpellsEnded.calm h ht ?_
  rintro us ⟨k, vs, rfl, hk, hvs⟩ hfaithful
  exact .cons (.of_word hk (by decide)) (hvs.calm (fun t h => hfaithful t (by simp [h]))
    fun _ _ _ hspell _ => SpellsName.calm hspell)

theorem Delay.Spells.calm {delay : Delay α} {next : List Token} (h : delay.Spells ts next)
    (hd : delay.Canonical) (hu : Unscoped delay.magnitude.systemNames) (ht : ∀ t ∈ ts, t.Faithful) :
    Calm ts := by
  have hfree := h.freeOfScopes hu ht
  obtain ⟨h, us, m, vs, rfl, hh, hus, hvs, -⟩ := h
  have hmagnitude : Balanced Inert (us ++ [m]) := hus.inert hd.1.2 fun t h => ht t <| by
    simp only [List.mem_append, List.mem_singleton] at h
    rcases h with h | rfl <;> simp [*]
  have hall := hmagnitude.append (hvs.inert fun _ _ => .of_timeUnit)
  rw [List.append_assoc, List.singleton_append] at hall
  exact ⟨.cons ⟨by rw [hh]; rfl, by rw [hh]; decide, by rw [hh]; decide⟩ hall, hfree⟩

theorem ContinuousAssign.Spells.calm {group : ContinuousAssign α} (h : group.Spells ts)
    (hc : group.Canonical) (ht : ∀ t ∈ ts, t.Faithful) : SpellsEnded Calm ts := by
  refine SpellsEnded.calm h ht ?_
  rintro us ⟨k, vs, ws, rfl, hk, hvs, hws⟩ hfaithful
  have hdelay : Calm vs := hvs.calm fun delay hsome hspell =>
    hspell.calm (hc.delay delay hsome).1 (hc.delay delay hsome).2 fun t h => hfaithful t (by simp [h])
  have hassignments : Calm ws := hws.calm (fun t h => hfaithful t (by simp [h])) fun e hmem _ hspell =>
    hspell.calm (hc.assignments e hmem).2.2.1 (hc.assignments e hmem).2.2.2
  exact .cons (.of_word hk (by decide)) (hdelay.append hassignments)

theorem Instantiation.Spells.calm {inst : Instantiation α} (h : inst.Spells ts) (hc : inst.Canonical)
    (ht : ∀ t ∈ ts, t.Faithful) : SpellsEnded Calm ts := by
  refine SpellsEnded.calm h ht ?_
  rintro us ⟨n, vs, i, ws, rfl, hn, -, hvs, hi, -, hws⟩ hfaithful
  have hparams : Calm vs := by
    rcases hvs with ⟨-, rfl⟩ | ⟨s, xs, rfl, hs, hxs⟩
    · exact .nil
    · exact .cons (.of_op hs rfl (by decide)) (hxs.calm hc.params fun t h => hfaithful t (by simp [h]))
  exact .cons (.of_isPlain (by rw [hn]; rfl)) (hparams.append (.cons (.of_isPlain (by rw [hi]; rfl))
    (hws.calm hc.ports fun t h => hfaithful t (by simp [h]))))

end Ended

/-! ### Searches for closing words -/

/-- The searches for the words that close a block, a case statement, a generate region or a module pass
over the tokens. -/
structure SkipsScopes (ts : List Token) : Prop where
  blocks : SkipsBlocks ts
  regions : SkipsPairs (.word .kwGenerate) (.word .kwEndGenerate) ts
  modules : SkipsPairs (.word .kwModule) (.word .kwEndModule) ts

namespace SkipsScopes

variable {t o c : Token}

theorem nil : SkipsScopes [] := ⟨.nil, .nil, .nil⟩

theorem append (hts : SkipsScopes ts) (hus : SkipsScopes us) : SkipsScopes (ts ++ us) :=
  ⟨hts.blocks.append hus.blocks, hts.regions.append hus.regions, hts.modules.append hus.modules⟩

theorem of_free (hts : SkipsBlocks ts) (hfree : FreeOfScopes ts) : SkipsScopes ts := by
  refine ⟨hts, .of_forall fun t ht => ?_, .of_forall fun t ht => ?_⟩
  all_goals
    have hnot := hfree t ht
    simp only [scopeWords, List.mem_cons, List.not_mem_nil, or_false, not_or] at hnot
    obtain ⟨h₁, h₂, h₃, h₄⟩ := hnot
  · exact ⟨beq_false_of_ne h₃, beq_false_of_ne h₄⟩
  · exact ⟨beq_false_of_ne h₁, beq_false_of_ne h₂⟩

theorem of_calm (h : Calm ts) : SkipsScopes ts := of_free (.of_inert h.inert) h.free

theorem of_word {k : Keyword} (h : t.kind = .word k) (hk : .word k ∉ blockWords ++ scopeWords) :
    SkipsScopes [t] := of_calm (.of_word h hk)

theorem of_semicolon (h : t.kind = .op .semicolon) : SkipsScopes [t] :=
  of_free (.one (by rw [h]; decide)) (.of_op h)

theorem of_colon (h : t.kind = .op .colon) : SkipsScopes [t] :=
  of_free (.one (by rw [h]; decide)) (.of_op h)

theorem of_ended (h : SpellsEnded Calm ts) : SkipsScopes ts := by
  obtain ⟨us, m, rfl, hus, hm⟩ := h
  exact append (of_calm hus) (of_semicolon hm)

theorem cons (ht : SkipsScopes [t]) (hts : SkipsScopes ts) : SkipsScopes (t :: ts) := append ht hts

/-- A whole block. -/
theorem of_block (ho : o.kind = .word .kwBegin) (hc : c.kind = .word .kwEnd) (hts : SkipsScopes ts) :
    SkipsScopes (o :: (ts ++ [c])) :=
  ⟨.of_block ho hc hts.blocks,
    .cons (.one (by rw [ho]; rfl) (by rw [ho]; rfl)) (hts.regions.append (.one (by rw [hc]; rfl) (by rw [hc]; rfl))),
    .cons (.one (by rw [ho]; rfl) (by rw [ho]; rfl)) (hts.modules.append (.one (by rw [hc]; rfl) (by rw [hc]; rfl)))⟩

/-- A whole generate case. -/
theorem of_case (ho : o.kind = .word .kwCase) (hc : c.kind = .word .kwEndCase) (hts : SkipsScopes ts) :
    SkipsScopes (o :: (ts ++ [c])) :=
  ⟨SkipsBlocks.of_case (by rw [ho]; rfl : CaseKind.ofKind? o.kind = some .case) hc hts.blocks,
    .cons (.one (by rw [ho]; rfl) (by rw [ho]; rfl)) (hts.regions.append (.one (by rw [hc]; rfl) (by rw [hc]; rfl))),
    .cons (.one (by rw [ho]; rfl) (by rw [ho]; rfl)) (hts.modules.append (.one (by rw [hc]; rfl) (by rw [hc]; rfl)))⟩

/-- A whole generate region. -/
theorem of_region (ho : o.kind = .word .kwGenerate) (hc : c.kind = .word .kwEndGenerate)
    (hts : SkipsScopes ts) : SkipsScopes (o :: (ts ++ [c])) :=
  ⟨.cons (by rw [ho]; decide) (hts.blocks.append (.one (by rw [hc]; decide))),
    .pair (by rw [ho]; rfl) (by rw [hc]; rfl) (by rw [hc]; rfl) hts.regions,
    .cons (.one (by rw [ho]; rfl) (by rw [ho]; rfl)) (hts.modules.append (.one (by rw [hc]; rfl) (by rw [hc]; rfl)))⟩

end SkipsScopes

/-! ### Searches over whole items -/

section Parts

theorem SpellsLabel.skipsScopes {label : Option String} (h : SpellsLabel label ts) : SkipsScopes ts :=
  .of_free h.skips h.freeOfScopes

theorem SpellsCondition.skipsScopes {e : Expr α} (h : SpellsCondition e ts) (he : e.Fits)
    (ht : ∀ t ∈ ts, t.Faithful) : SkipsScopes ts := .of_free (h.skips he.1.2 ht) (h.freeOfScopes he.2 ht)

theorem Statement.Spells.skipsScopes {s : Statement α} (h : s.Spells ts) (hs : s.Fits)
    (ht : ∀ t ∈ ts, t.Faithful) : SkipsScopes ts := .of_free (h.skips hs.1 ht) (h.freeOfScopes hs.2 ht)

theorem AlwaysBlock.Spells.skipsScopes {a : AlwaysBlock α} (h : a.Spells ts) (hc : a.Canonical)
    (ht : ∀ t ∈ ts, t.Faithful) : SkipsScopes ts := by
  obtain ⟨k, us, vs, rfl, hk, hus, hvs⟩ := h
  have hword : SkipsScopes [k] := by
    unfold AlwaysKind.ofKind? at hk
    split at hk <;> first | exact .of_word ‹_› (by decide) | cases hk
  have hsensitivity : SkipsScopes us := by
    cases hsome : a.sensitivity with
    | none =>
      rw [hsome] at hus
      exact hus ▸ .nil
    | some s =>
      rw [hsome] at hus
      obtain ⟨hcan, hu⟩ := hc.sensitivity s hsome
      have hfaithful : ∀ t ∈ us, t.Faithful := fun t h => ht t (by simp [h])
      exact .of_free (Sensitivity.Spells.skips hus hcan hfaithful)
        (Sensitivity.Spells.freeOfScopes hus hu hfaithful)
  exact .cons hword (hsensitivity.append (hvs.skipsScopes hc.body fun t h => ht t (by simp [h])))

end Parts

namespace BodyItem

mutual

/-- The searches for closing words pass over an item. -/
theorem Spells.skips : ∀ {item : BodyItem α} {ts : List Token}, item.Spells ts → item.Canonical →
    (∀ t ∈ ts, t.Faithful) → SkipsScopes ts
  | parameters _, _, h, hc, ht => .of_ended (ParameterGroup.Spells.calm h hc ht)
  | ports _, _, h, hc, ht => .of_ended (PortGroup.Spells.calm h hc ht)
  | signals _, _, h, hc, ht => .of_ended (SignalGroup.Spells.calm h hc ht)
  | genvars _, _, h, _, ht => .of_ended (Genvars.Spells.calm h ht)
  | assign _, _, h, hc, ht => .of_ended (ContinuousAssign.Spells.calm h hc ht)
  | always _, _, h, hc, ht => AlwaysBlock.Spells.skipsScopes h hc ht
  | initial _, _, ⟨k, us, hts, hk, hus⟩, hc, ht => by
    subst hts
    exact .cons (.of_word hk (by decide)) (hus.skipsScopes hc fun t h => ht t (by simp [h]))
  | instantiation _, _, h, hc, ht => .of_ended (Instantiation.Spells.calm h hc ht)
  | block b, _, h, hc, ht => SpellsBlock.skips h hc ht
  | region _ items, _, ⟨o, us, c, hts, ho, hus, hcl⟩, hc, ht => by
    subst hts
    exact .of_region ho hcl (hus.skips hc fun t h => ht t (by simp [h]))
  | generateIf _ condition thenBlock elseBlock, _, ⟨i, us, vs, ws, hts, hi, hus, hvs, hws⟩, hc, ht => by
    subst hts
    obtain ⟨hcondition, hthen, helse⟩ := hc
    exact .cons (.of_word hi (by decide)) (.append (hus.skipsScopes hcondition fun t h => ht t (by simp [h]))
      (.append (hvs.skips hthen fun t h => ht t (by simp [h]))
        (hws.skips helse fun t h => ht t (by simp [h]))))
  | generateFor _ header body, _, ⟨f, us, vs, hts, hf, hus, hvs⟩, hc, ht => by
    subst hts
    obtain ⟨hheader, hu, hbody⟩ := hc
    have hfaithful : ∀ t ∈ us, t.Faithful := fun t h => ht t (by simp [h])
    exact .cons (.of_word hf (by decide)) (.append
      (.of_free (hus.skips hheader hfaithful) (hus.freeOfScopes hu hfaithful))
      (hvs.skips hbody fun t h => ht t (by simp [h])))
  | generateCase _ selector items default, _, ⟨k, us, vs, ws, e, hts, hk, hus, hvs, hws, he⟩, hc, ht => by
    subst hts
    obtain ⟨hselector, hitems, hdefault⟩ := hc
    exact .of_case hk he (.append (hus.skipsScopes hselector fun t h => ht t (by simp [h]))
      (.append (hvs.skips hitems fun t h => ht t (by simp [h]))
        (hws.skips hdefault fun t h => ht t (by simp [h]))))
  | directive _, _, h, hc, _ => .of_calm (DirectiveKind.Spells.calm h hc)
  | empty _, _, ⟨m, hts, hm⟩, _, _ => by
    subst hts
    exact .of_semicolon hm

theorem SpellsBlock.skips : ∀ {b : GenerateBlock α (BodyItem α)} {ts : List Token}, SpellsBlock b ts →
    CanonicalBlock b → (∀ t ∈ ts, t.Faithful) → SkipsScopes ts
  | ⟨_, label, items⟩, _, ⟨b, ls, us, e, ms, hts, hb, hls, hus, he, hms⟩, hc, ht => by
    subst hts
    have hmarks : SkipsScopes ms := by
      rcases hms with rfl | ⟨-, hms⟩
      · exact .nil
      · exact hms.skipsScopes
    exact .append (.of_block hb he (.append hls.skipsScopes (hus.skips hc fun t h => ht t (by simp [h])))) hmarks

theorem SpellsAll.skips : ∀ {items : List (BodyItem α)} {ts : List Token}, SpellsAll items ts →
    CanonicalAll items → (∀ t ∈ ts, t.Faithful) → SkipsScopes ts
  | [], _, hts, _, _ => by
    unfold SpellsAll at hts
    exact hts ▸ .nil
  | item :: items, _, ⟨us, vs, hts, hus, hvs⟩, hc, ht => by
    subst hts
    exact .append (hus.skips hc.1 fun t h => ht t (by simp [h]))
      (hvs.skips hc.2 fun t h => ht t (by simp [h]))

theorem SpellsElse.skips : ∀ {o : Option (GenerateBlock α (BodyItem α))} {ts : List Token},
    SpellsElse o ts → CanonicalOption o → (∀ t ∈ ts, t.Faithful) → SkipsScopes ts
  | none, _, hts, _, _ => by
    unfold SpellsElse at hts
    exact hts ▸ .nil
  | some b, _, ⟨e, us, hts, he, hus⟩, hc, ht => by
    subst hts
    exact .cons (.of_word he (by decide)) (hus.skips hc fun t h => ht t (by simp [h]))

theorem SpellsDefault.skips : ∀ {o : Option (GenerateBlock α (BodyItem α))} {ts : List Token},
    SpellsDefault o ts → CanonicalOption o → (∀ t ∈ ts, t.Faithful) → SkipsScopes ts
  | none, _, hts, _, _ => by
    unfold SpellsDefault at hts
    exact hts ▸ .nil
  | some b, _, ⟨d, us, vs, hts, hd, hus, hvs⟩, hc, ht => by
    subst hts
    have hmark : SkipsScopes us := by
      rcases hus with rfl | ⟨m, rfl, hm⟩
      · exact .nil
      · exact .of_colon hm
    exact .cons (.of_word hd (by decide)) (hmark.append (hvs.skips hc fun t h => ht t (by simp [h])))

theorem SpellsCases.skips : ∀ {items : List (CaseItem α (GenerateBlock α (BodyItem α)))}
    {ts : List Token}, SpellsCases items ts → CanonicalCases items → (∀ t ∈ ts, t.Faithful) → SkipsScopes ts
  | [], _, hts, _, _ => by
    unfold SpellsCases at hts
    exact hts ▸ .nil
  | ⟨_, labels, body⟩ :: items, _, ⟨us, m, vs, ws, hts, hus, hm, hvs, hws⟩, hc, ht => by
    subst hts
    obtain ⟨-, hlabels, hbody, hitems⟩ := hc
    have hfaithful : ∀ t ∈ us, t.Faithful := fun t h => ht t (by simp [h])
    exact .append (.of_calm ⟨hus.inert (fun e he => (hlabels e he).1.2) hfaithful,
        hus.freeOfScopes (fun e he => (hlabels e he).2) hfaithful⟩)
      (.cons (.of_colon hm) (.append (hvs.skips hbody fun t h => ht t (by simp [h]))
        (hws.skips hitems fun t h => ht t (by simp [h]))))

end

end BodyItem

end SystemVerilog
