import SystemVerilog.Proofs.Module.Marks

/-!
# Modules are cut into their lexemes again

The text of the marks of a canonical item is cut into the lexemes of the marks, since blanks separate them
and a unit of time does not look like a part of the digits it touches. The tokens spell the item.
-/

namespace SystemVerilog

variable {α β : Type}

/-! ### Cutting lists -/

section Lists

variable {marks : β → List Mark} {bs : List β} {ms : List Mark}

theorem lexable_flatMap (h : ∀ b ∈ bs, Lexable (marks b)) : Lexable (bs.flatMap marks) := by
  induction bs with
  | nil => exact .nil
  | cons b bs ih =>
    rw [List.flatMap_cons]
    exact (h b (by simp)).append (ih fun b hb => h b (by simp [hb]))

theorem lexable_ledMarks (h : ∀ b ∈ bs, Lexable (marks b)) : Lexable (ledMarks marks bs) := by
  induction bs with
  | nil => exact .nil
  | cons b bs ih => exact .cons (.op _) ((h b (by simp)).append (ih fun b hb => h b (by simp [hb])))

theorem lexable_commaMarks (h : ∀ b ∈ bs, Lexable (marks b)) : Lexable (commaMarks marks bs) := by
  cases bs with
  | nil => exact .nil
  | cons b bs => exact (h b (by simp)).append (lexable_ledMarks fun b hb => h b (by simp [hb]))

theorem lexable_entriesMarks (closing : Bool) (h : ∀ b ∈ bs, Lexable (marks b)) :
    Lexable (entriesMarks closing marks bs) := by
  induction bs with
  | nil => exact .nil
  | cons b bs ih =>
    refine (h b (by simp)).append ?_
    split
    · exact .nil
    · exact .cons (.op _) (ih fun b hb => h b (by simp [hb]))

theorem lexable_parensMarks (h : Lexable ms) : Lexable (parensMarks ms) := .cons (.op _) (h.append (.op _))

theorem lexable_endedMarks (h : Lexable ms) : Lexable (endedMarks ms) := h.append (.op _)

theorem lexable_moduleWords {keyword : β → Keyword} {o : Option β}
    (h : ∀ b, o = some b → keyword b ∈ moduleWords) : Lexable (wordMarks keyword o) :=
  lexable_optionMarks fun b hb => .moduleWord (h b hb)

end Lists

/-! ### Cutting declarations -/

theorem Dimension.lexable_marks {d : Dimension α} (h : d.Lexical) : Lexable d.marks := by
  cases d with
  | bounds b => exact Bounds.lexable_marks h
  | size tag index => exact .cons (.op _) ((Expr.lexable_marks h).append (.op _))

theorem Declarator.lexable_marks {d : Declarator α} (h : d.Lexical) : Lexable d.marks := by
  have hdims : Lexable (d.dims.flatMap Dimension.marks) :=
    lexable_flatMap fun dim hdim => Dimension.lexable_marks (h.dims dim hdim)
  have hvalue : Lexable (optionMarks valueMarks d.value) :=
    lexable_optionMarks fun e he => .cons (.op _) (Expr.lexable_marks (h.value e he))
  exact .cons (.word (isWord_of_isNameText h.name)) (hdims.append hvalue)

theorem lexable_typeMarks {type : Option (DataType α)} (h : ∀ t, type = some t → t.Lexical)
    (hc : ∀ t, type = some t → t.Fits) : Lexable (optionMarks DataType.marks type) :=
  lexable_optionMarks fun t ht => DataType.lexable_marks (h t ht) (hc t ht).1

theorem lexable_declaredMarks {type : Option (DataType α)} {ds : List (Declarator α)}
    (h : LexicalDeclared type ds) (hc : Declares type ds) : Lexable (declaredMarks type ds) :=
  (lexable_typeMarks h.type hc.type).append
    (lexable_commaMarks fun d hd => Declarator.lexable_marks (h.declarators d hd))

theorem parameterWord_mem (isLocal : Bool) : parameterWord isLocal ∈ moduleWords := by
  cases isLocal <;> decide

theorem Direction.keyword_mem (d : Direction) : d.keyword ∈ moduleWords := by
  cases d <;> decide

theorem lexable_netMarks {net : Option Keyword} (h : ∀ k, net = some k → k.isNetType = true) :
    Lexable (wordMarks id net) :=
  lexable_moduleWords fun k hk => Keyword.mem_moduleWords_of_isNetType (h k hk)

theorem ParameterGroup.lexable_marks {group : ParameterGroup α}
    (h : LexicalDeclared group.type group.declarators) (hc : group.Canonical) : Lexable group.marks :=
  lexable_endedMarks (.cons (.moduleWord (parameterWord_mem _)) (lexable_declaredMarks h hc))

theorem PortGroup.lexable_marks {group : PortGroup α}
    (h : LexicalDeclared group.type group.declarators) (hc : group.Canonical) : Lexable group.marks :=
  lexable_endedMarks (.cons (.moduleWord group.direction.keyword_mem)
    ((lexable_netMarks hc.net).append (lexable_declaredMarks h hc.declares)))

theorem SignalGroup.lexable_marks {group : SignalGroup α}
    (h : LexicalDeclared group.type group.declarators) (hc : group.Canonical) : Lexable group.marks :=
  lexable_endedMarks ((lexable_netMarks hc.net).append (lexable_declaredMarks h hc.declares))

theorem Genvars.lexable_marks {group : Genvars α} (h : ∀ name ∈ group.names, isNameText name = true) :
    Lexable group.marks :=
  lexable_endedMarks (.cons (.keyword (by decide))
    (lexable_commaMarks fun name hname => .word (isWord_of_isNameText (h name hname))))

/-! ### Cutting headers -/

/-- An entry of a header declares what its group declares. -/
theorem mem_parameterForms {style : ModuleStyle} {before : Option Bool} {groups : List (ParameterGroup α)}
    {f : ParameterForm α} (h : f ∈ parameterForms style before groups) : ∃ group ∈ groups,
      (f.type = none ∨ f.type = group.type) ∧ f.declarator ∈ group.declarators := by
  induction groups generalizing before with
  | nil => cases h
  | cons group groups ih =>
    unfold parameterForms at h
    split at h
    · cases h
    · rename_i d ds hds
      rcases List.mem_cons.1 h with rfl | h
      · exact ⟨group, by simp, .inr rfl, by simp [hds]⟩
      · rcases List.mem_append.1 h with h | h
        · obtain ⟨d', hd', rfl⟩ := List.mem_map.1 h
          exact ⟨group, by simp, .inl rfl, by simp [hds, ParameterForm.joined, hd']⟩
        · obtain ⟨group', hgroup, hf⟩ := ih h
          exact ⟨group', by simp [hgroup], hf⟩

theorem mem_portForms {style : ModuleStyle} {before : Option Direction} {groups : List (PortGroup α)}
    {f : PortForm α} (h : f ∈ portForms style before groups) : ∃ group ∈ groups,
      (f.net = none ∨ f.net = group.net) ∧ (f.type = none ∨ f.type = group.type) ∧
        f.declarator ∈ group.declarators := by
  induction groups generalizing before with
  | nil => cases h
  | cons group groups ih =>
    unfold portForms at h
    split at h
    · cases h
    · rename_i d ds hds
      rcases List.mem_cons.1 h with rfl | h
      · exact ⟨group, by simp, .inr rfl, .inr rfl, by simp [hds]⟩
      · rcases List.mem_append.1 h with h | h
        · obtain ⟨d', hd', rfl⟩ := List.mem_map.1 h
          exact ⟨group, by simp, .inl rfl, .inl rfl, by simp [hds, PortForm.joined, hd']⟩
        · obtain ⟨group', hgroup, hf⟩ := ih h
          exact ⟨group', by simp [hgroup], hf⟩

/-- What holds of all there is of a group holds of what an entry takes over from it. -/
theorem forall_of_taken {o o' : Option β} {P : β → Prop} (h : o = none ∨ o = o')
    (hP : ∀ b, o' = some b → P b) : ∀ b, o = some b → P b := by
  rintro b rfl
  rcases h with h | rfl
  · cases h
  · exact hP b rfl

theorem ParameterForm.lexable_marks {f : ParameterForm α} (h : ∀ t, f.type = some t → t.Lexical)
    (hc : ∀ t, f.type = some t → t.Fits) (hd : f.declarator.Lexical) : Lexable f.marks :=
  (lexable_moduleWords fun _ _ => parameterWord_mem _).append
    ((lexable_typeMarks h hc).append (Declarator.lexable_marks hd))

theorem PortForm.lexable_marks {f : PortForm α} (hnet : ∀ k, f.net = some k → k.isNetType = true)
    (h : ∀ t, f.type = some t → t.Lexical) (hc : ∀ t, f.type = some t → t.Fits)
    (hd : f.declarator.Lexical) : Lexable f.marks :=
  (lexable_moduleWords fun d _ => d.keyword_mem).append
    ((lexable_netMarks hnet).append ((lexable_typeMarks h hc).append (Declarator.lexable_marks hd)))

theorem lexable_parametersMarks (style : ModuleStyle) {groups : List (ParameterGroup α)}
    (h : ∀ group ∈ groups, LexicalDeclared group.type group.declarators)
    (hc : ∀ group ∈ groups, group.Canonical) : Lexable (parametersMarks style groups) := by
  unfold parametersMarks
  split
  · exact .nil
  · refine .cons (.op _) (lexable_parensMarks (lexable_entriesMarks _ fun f hf => ?_))
    obtain ⟨group, hgroup, htype, hd⟩ := mem_parameterForms hf
    exact ParameterForm.lexable_marks (forall_of_taken htype (h group hgroup).type)
      (forall_of_taken htype (hc group hgroup).type) ((h group hgroup).declarators _ hd)

theorem PortList.lexable_marks (style : ModuleStyle) {ports : PortList α} (h : ports.Lexical)
    (hc : ports.Canonical) : Lexable (ports.marks style) := by
  cases ports with
  | empty =>
    show Lexable (if style.emptyParens then parensMarks [] else [])
    split
    · exact lexable_parensMarks .nil
    · exact .nil
  | ansi groups =>
    refine lexable_parensMarks (lexable_entriesMarks _ fun f hf => ?_)
    obtain ⟨group, hgroup, hnet, htype, hd⟩ := mem_portForms hf
    exact PortForm.lexable_marks (forall_of_taken hnet (hc.2 group hgroup).net)
      (forall_of_taken htype (h group hgroup).type)
      (forall_of_taken htype (hc.2 group hgroup).declares.type) ((h group hgroup).declarators _ hd)
  | nonAnsi names =>
    exact lexable_parensMarks (lexable_commaMarks fun name hname =>
      .word (isWord_of_isNameText (h name hname)))

/-! ### Cutting instances -/

theorem Connection.lexable_marks {c : Connection α} (h : c.Lexical) : Lexable c.marks := by
  have hvalue : Lexable (optionMarks Expr.marks c.value) :=
    lexable_optionMarks fun e he => Expr.lexable_marks (h.value e he)
  unfold marks
  split
  · exact hvalue
  · rename_i name hname
    exact .cons (.op _) (.cons (.word (isWord_of_isNameText (h.name name hname)))
      (lexable_parensMarks hvalue))

theorem lexable_connectionsMarks (style : ModuleStyle) {cs : List (Connection α)}
    (h : ∀ c ∈ cs, c.Lexical) : Lexable (connectionsMarks style cs) :=
  lexable_parensMarks (lexable_entriesMarks _ fun c hc => Connection.lexable_marks (h c hc))

theorem isWord_of_isIdentifierText {text : String} (h : isIdentifierText text = true) :
    isWord text = true := (Bool.and_eq_true_iff.1 h).1

theorem Instantiation.lexable_marks (style : ModuleStyle) {inst : Instantiation α} (h : inst.Lexical) :
    Lexable (inst.marks style) := by
  have hparams : Lexable (inst.paramsMarks style) := by
    unfold paramsMarks
    split
    · exact .nil
    · exact .cons (.op _) (lexable_connectionsMarks style h.params)
  exact lexable_endedMarks (.cons (.word (isWord_of_isIdentifierText h.moduleName)) (hparams.append
    (.cons (.word (isWord_of_isIdentifierText h.instanceName)) (lexable_connectionsMarks style h.ports))))

/-! ### Cutting directives -/

theorem TimeValue.magnitude_isLiteral {time : TimeValue} (h : time.Canonical) :
    IsLiteral .integer (toString time.magnitude) := by
  rcases h with h | h | h <;> rw [h] <;> exact ⟨⟨_, _, rfl, rfl, rfl⟩, fun _ => rfl⟩

theorem TimeValue.lexable_marks {time : TimeValue} (h : time.Canonical) : Lexable time.marks := by
  obtain ⟨c, cs, hspelling, hc, hne⟩ := time.unit.spelling_leads
  refine .touched (fun r => ?_) rfl rfl time.unit.isWord_spelling
  rw [hspelling]
  exact (magnitude_isLiteral h).leads hc hne

theorem lexable_quotedMarks {interior : String} (h : IsLiteral .string (quoted interior)) :
    Lexable (quotedMarks interior) := .literal h

/-- The word that names a directive is recognised as one. -/
theorem DirectiveKind.scans_name {kind : DirectiveKind α} (hc : kind.Canonical) :
    (Lexeme.mk .directive (kind.names.headD "")).Scans := by
  cases kind with
  | conditional negated macroName skipped => exact hc.elim
  | _ =>
    rw [names, List.headD_cons]
    exact ⟨_, _, rfl, rfl, rfl⟩

theorem DirectiveKind.lexable_marks {kind : DirectiveKind α} (h : kind.Lexical) (hc : kind.Canonical) :
    Lexable kind.marks := by
  refine .cons (.of_scans (scans_name hc) rfl rfl) ?_
  cases kind with
  | beginKeywords version => exact lexable_quotedMarks h
  | includeFile path => exact lexable_quotedMarks h
  | timescale unit precision =>
    exact (TimeValue.lexable_marks hc.1).append (.cons (.op _) (TimeValue.lexable_marks hc.2))
  | defaultNettype netType => exact .word h.1
  | unconnectedDrive pull => exact .moduleWord (Keyword.mem_moduleWords_of_isPull hc)
  | conditional negated macroName skipped => exact hc.elim
  | _ => exact .nil

/-! ### Cutting items -/

theorem ContinuousAssign.lexable_marks {group : ContinuousAssign α} (h : group.Lexical)
    (hc : group.Canonical) : Lexable group.marks := by
  have hdelay : Lexable (optionMarks Delay.marks group.delay) :=
    lexable_optionMarks fun d hd => Delay.lexable_marks (h.delay d hd) (hc.delay d hd).1
  have hassignments : Lexable (commaMarks Expr.marks group.assignments) :=
    lexable_commaMarks fun e he => Expr.lexable_marks (h.assignments e he)
  exact lexable_endedMarks (.cons (.moduleWord (by decide)) (hdelay.append hassignments))

theorem AlwaysBlock.lexable_marks (style : Style) {a : AlwaysBlock α} (h : a.Lexical) (hc : a.Canonical) :
    Lexable (a.marks style) := by
  have hword : a.kind.keyword ∈ moduleWords := by cases a.kind <;> decide
  have hsensitivity : Lexable (optionMarks (Sensitivity.marks style) a.sensitivity) :=
    lexable_optionMarks fun s hs => Sensitivity.lexable_marks style (h.sensitivity s hs)
  exact .cons (.moduleWord hword) (hsensitivity.append (Statement.lexable_marks style h.body hc.body.1))

theorem lexable_closingMarks (style : Style) {label : Option String}
    (h : ∀ name, label = some name → isNameText name = true) : Lexable (closingMarks style label) := by
  unfold closingMarks
  split
  · exact lexable_labelMarks h
  · exact .nil

namespace BodyItem

mutual

/-- The marks of a canonical item are cut into their lexemes again. -/
theorem lexable_marks (style : ModuleStyle) : ∀ {item : BodyItem α}, item.Lexical → item.Canonical →
    Lexable (item.marks style)
  | parameters _, h, hc => ParameterGroup.lexable_marks h hc
  | ports _, h, hc => PortGroup.lexable_marks h hc
  | signals _, h, hc => SignalGroup.lexable_marks h hc
  | genvars _, h, _ => Genvars.lexable_marks h
  | assign _, h, hc => ContinuousAssign.lexable_marks h hc
  | always _, h, hc => AlwaysBlock.lexable_marks style.toStyle h hc
  | initial _, h, hc => .cons (.moduleWord (by decide)) (Statement.lexable_marks style.toStyle h hc.1)
  | instantiation _, h, _ => Instantiation.lexable_marks style h
  | block _, h, hc => lexable_marksBlock style h hc
  | region _ items, h, hc =>
    .cons (.moduleWord (by decide)) ((lexable_marksAll style h hc).append (.moduleWord (by decide)))
  | generateIf _ condition thenBlock elseBlock, h, hc =>
    .cons (.keyword (by decide)) ((lexable_conditionMarks h.1).append
      ((lexable_marksBlock style h.2.1 hc.2.1).append (lexable_marksElse style h.2.2 hc.2.2)))
  | generateFor _ header body, h, hc =>
    .cons (.keyword (by decide)) ((LoopHeader.lexable_marks h.1 hc.1).append
      (lexable_marksBlock style h.2 hc.2.2))
  | generateCase _ selector items default, h, hc => by
    have hitems := (lexable_marksCases style h.2.1 hc.2.1).append (lexable_marksDefault style h.2.2 hc.2.2)
    exact .cons (.keyword (by decide)) (((lexable_conditionMarks h.1).append hitems).append
      (.keyword (by decide)))
  | directive _, h, hc => DirectiveKind.lexable_marks h hc
  | empty _, _, _ => .op _

theorem lexable_marksBlock (style : ModuleStyle) : ∀ {b : GenerateBlock α (BodyItem α)}, LexicalBlock b →
    CanonicalBlock b → Lexable (marksBlock style b)
  | ⟨_, label, items⟩, h, hc => by
    have hbody := (lexable_labelMarks h.1).append (lexable_marksAll style h.2 hc)
    have hblock := Lexable.cons (.keyword (k := .kwBegin) (by decide))
      (hbody.append (.keyword (k := .kwEnd) (by decide)))
    exact hblock.append (lexable_closingMarks style.toStyle h.1)

theorem lexable_marksAll (style : ModuleStyle) : ∀ {items : List (BodyItem α)}, LexicalAll items →
    CanonicalAll items → Lexable (marksAll style items)
  | [], _, _ => .nil
  | _ :: _, h, hc => (lexable_marks style h.1 hc.1).append (lexable_marksAll style h.2 hc.2)

theorem lexable_marksElse (style : ModuleStyle) : ∀ {o : Option (GenerateBlock α (BodyItem α))},
    LexicalOption o → CanonicalOption o → Lexable (marksElse style o)
  | none, _, _ => .nil
  | some _, h, hc => .cons (.keyword (by decide)) (lexable_marksBlock style h hc)

theorem lexable_marksDefault (style : ModuleStyle) : ∀ {o : Option (GenerateBlock α (BodyItem α))},
    LexicalOption o → CanonicalOption o → Lexable (marksDefault style o)
  | none, _, _ => .nil
  | some _, h, hc => by
    have hcolon : Lexable (if style.defaultColons then [.fixed (.op .colon)] else []) := by
      split
      · exact .op _
      · exact .nil
    exact .cons (.keyword (by decide)) (hcolon.append (lexable_marksBlock style h hc))

theorem lexable_marksCases (style : ModuleStyle) :
    ∀ {items : List (CaseItem α (GenerateBlock α (BodyItem α)))}, LexicalCases items →
    CanonicalCases items → Lexable (marksCases style items)
  | [], _, _ => .nil
  | ⟨_, labels, body⟩ :: items, h, hc => by
    have hlabels := Expr.lexable_marksList (Expr.allLexical_of_forall h.1)
    have hbody := lexable_marksBlock style h.2.1 hc.2.2.1
    have hitems := lexable_marksCases style h.2.2 hc.2.2.2
    exact hlabels.append (.cons (.op _) (hbody.append hitems))

end

end BodyItem

theorem Module.lexable_marks (style : ModuleStyle) {m : Module α} (h : m.Lexical) (hc : m.Canonical) :
    Lexable (m.marks style) := by
  have hheader := (lexable_parametersMarks style h.params hc.params).append
    ((PortList.lexable_marks style h.ports hc.ports).append
      (.cons (.op .semicolon) (BodyItem.lexable_marksAll style h.body hc.body)))
  have hmodule := Lexable.cons (.moduleWord (k := .kwModule) (by decide))
    ((Lexable.cons (.word (isWord_of_isNameText h.name)) hheader).append
      (.moduleWord (k := .kwEndModule) (by decide)))
  refine hmodule.append (lexable_closingMarks style.toStyle fun name hname => ?_)
  obtain rfl := Option.some.inj hname
  exact h.name

/-- The marks of canonical items are cut into their lexemes again. -/
theorem Item.lexable_marks (style : ModuleStyle) {is : List (Item α)} (h : ∀ i ∈ is, i.Lexical)
    (hc : ∀ i ∈ is, i.Canonical) : Lexable (is.flatMap (Item.marks style)) := by
  refine lexable_flatMap fun i hi => ?_
  have hlexical := h i hi
  have hcan := hc i hi
  cases i with
  | design m => exact Module.lexable_marks style hlexical hcan
  | directive d => exact DirectiveKind.lexable_marks hlexical hcan

/-! ### Lists are spelled -/

section Lists

variable {marks : β → List Mark} {spells : β → List Token → Prop} {bs : List β} {before : Option Token}
  {ts : List Token}

theorem spellsEach_of_realizes (hr : Realizes before (bs.flatMap marks) ts)
    (h : ∀ b ∈ bs, ∀ {before ts}, Realizes before (marks b) ts → spells b ts) : SpellsEach spells bs ts := by
  induction bs generalizing before ts with
  | nil => exact hr
  | cons b bs ih =>
    rw [List.flatMap_cons] at hr
    obtain ⟨us, vs, rfl, hus, hvs⟩ := hr.of_append
    exact ⟨us, vs, rfl, h b (by simp) hus, ih hvs fun b hb => h b (by simp [hb])⟩

theorem spellsLed_of_realizes (hr : Realizes before (ledMarks marks bs) ts)
    (h : ∀ b ∈ bs, ∀ {before ts}, Realizes before (marks b) ts → spells b ts) : SpellsLed spells bs ts := by
  induction bs generalizing before ts with
  | nil => exact hr
  | cons b bs ih =>
    obtain ⟨m, us, rfl, hm, hrest⟩ := hr.fixed
    obtain ⟨us, vs, rfl, hus, hvs⟩ := hrest.of_append
    exact ⟨m, us, vs, rfl, hm, h b (by simp) hus, ih hvs fun b hb => h b (by simp [hb])⟩

theorem spellsCommas_of_realizes (hr : Realizes before (commaMarks marks bs) ts)
    (h : ∀ b ∈ bs, ∀ {before ts}, Realizes before (marks b) ts → spells b ts) :
    SpellsCommas spells bs ts := by
  cases bs with
  | nil => exact hr
  | cons b bs =>
    obtain ⟨us, vs, rfl, hus, hvs⟩ := hr.of_append
    exact ⟨us, vs, rfl, h b (by simp) hus, spellsLed_of_realizes hvs fun b hb => h b (by simp [hb])⟩

theorem spellsEntries_of_realizes {closing : Bool} (hr : Realizes before (entriesMarks closing marks bs) ts)
    (h : ∀ b ∈ bs, ∀ {before ts}, Realizes before (marks b) ts → spells b ts) :
    SpellsEntries spells bs ts := by
  induction bs generalizing before ts with
  | nil => exact hr
  | cons b bs ih =>
    obtain ⟨us, vs, rfl, hus, hvs⟩ := hr.of_append
    refine ⟨us, vs, rfl, h b (by simp) hus, ?_⟩
    split at hvs
    · rename_i hlast
      exact .inl ⟨List.isEmpty_iff.1 (Bool.and_eq_true_iff.1 hlast).1, hvs⟩
    · obtain ⟨m, ws, rfl, hm, hws⟩ := hvs.fixed
      exact .inr ⟨m, ws, rfl, hm, ih hws fun b hb => h b (by simp [hb])⟩

theorem spellsParens_of_realizes {ms : List Mark} {spells : List Token → Prop}
    (hr : Realizes before (parensMarks ms) ts) (h : ∀ {before us}, Realizes before ms us → spells us) :
    SpellsParens spells ts := by
  obtain ⟨o, us, rfl, ho, hrest⟩ := hr.fixed
  obtain ⟨us, vs, rfl, hus, hvs⟩ := hrest.of_append
  obtain ⟨c, rfl, hc⟩ := hvs.last
  exact ⟨o, us, c, rfl, ho, h hus, hc⟩

theorem spellsEnded_of_realizes {ms : List Mark} {spells : List Token → Prop}
    (hr : Realizes before (endedMarks ms) ts) (h : ∀ {before us}, Realizes before ms us → spells us) :
    SpellsEnded spells ts := by
  obtain ⟨us, vs, rfl, hus, hvs⟩ := hr.of_append
  obtain ⟨m, rfl, hm⟩ := hvs.last
  exact ⟨us, m, rfl, h hus, hm⟩

theorem spellsName_of_realizes {name : String} (hr : Realizes before [Mark.word name] ts)
    (h : isNameText name = true) : SpellsName name ts := by
  obtain ⟨t, us, rfl, ht, htext, hus⟩ := hr.name h
  obtain rfl : us = [] := hus
  exact ⟨t, rfl, ht, htext⟩

end Lists

section Parts

variable {before : Option Token} {ts : List Token}

/-! ### Declarations are spelled -/

theorem Dimension.spells_of_realizes {d : Dimension α} (hr : Realizes before d.marks ts) (h : d.Lexical) :
    d.Spells ts := by
  cases d with
  | bounds b => exact Bounds.spells_of_realizes hr h
  | size tag index =>
    obtain ⟨o, us, rfl, ho, hrest⟩ := hr.fixed
    obtain ⟨us, vs, rfl, hus, hvs⟩ := hrest.of_append
    obtain ⟨c, rfl, hc⟩ := hvs.last
    exact ⟨o, us, c, rfl, ho, Expr.spells_of_realizes hus h, hc⟩

theorem Declarator.spells_of_realizes {d : Declarator α} (hr : Realizes before d.marks ts)
    (h : d.Lexical) : d.Spells ts := by
  obtain ⟨n, us, rfl, hn, htext, hrest⟩ := hr.name h.name
  obtain ⟨us, vs, rfl, hus, hvs⟩ := hrest.of_append
  refine ⟨n, us, vs, rfl, hn, htext, spellsEach_of_realizes hus fun dim hdim _ _ hr =>
    Dimension.spells_of_realizes hr (h.dims dim hdim), spellsOption_of_realizes hvs fun e he _ _ hr => ?_⟩
  obtain ⟨m, ws, rfl, hm, hws⟩ := hr.fixed
  exact ⟨m, ws, rfl, hm, Expr.spells_of_realizes hws (h.value e he)⟩

theorem spellsType_of_realizes {type : Option (DataType α)}
    (hr : Realizes before (optionMarks DataType.marks type) ts) (h : ∀ t, type = some t → t.Lexical)
    (hc : ∀ t, type = some t → t.Fits) : SpellsOption DataType.Spells type ts :=
  spellsOption_of_realizes hr fun t ht _ _ hr => DataType.spells_of_realizes hr (h t ht) (hc t ht).1

theorem spellsDeclared_of_realizes {type : Option (DataType α)} {ds : List (Declarator α)}
    (hr : Realizes before (declaredMarks type ds) ts) (h : LexicalDeclared type ds) (hc : Declares type ds) :
    SpellsDeclared type ds ts := by
  obtain ⟨us, vs, rfl, hus, hvs⟩ := hr.of_append
  exact ⟨us, vs, rfl, spellsType_of_realizes hus h.type hc.type, spellsCommas_of_realizes hvs
    fun d hd _ _ hr => Declarator.spells_of_realizes hr (h.declarators d hd)⟩

theorem spellsNet_of_realizes {net : Option Keyword} (hr : Realizes before (wordMarks id net) ts)
    (h : ∀ k, net = some k → k.isNetType = true) : SpellsNet net ts :=
  spellsMark_of_realizes hr fun k hk => if_pos (h k hk)

theorem ParameterGroup.spells_of_realizes {group : ParameterGroup α} (hr : Realizes before group.marks ts)
    (h : LexicalDeclared group.type group.declarators) (hc : group.Canonical) : group.Spells ts := by
  refine spellsEnded_of_realizes hr fun hr => ?_
  obtain ⟨k, us, rfl, hk, hus⟩ := hr.fixed
  exact ⟨k, us, rfl, by rw [hk, parameterWord?_parameterWord], spellsDeclared_of_realizes hus h hc⟩

theorem PortGroup.spells_of_realizes {group : PortGroup α} (hr : Realizes before group.marks ts)
    (h : LexicalDeclared group.type group.declarators) (hc : group.Canonical) : group.Spells ts := by
  refine spellsEnded_of_realizes hr fun hr => ?_
  obtain ⟨k, us, rfl, hk, hrest⟩ := hr.fixed
  obtain ⟨us, vs, rfl, hus, hvs⟩ := hrest.of_append
  exact ⟨k, us, vs, rfl, by rw [hk, Direction.ofKind?_keyword], spellsNet_of_realizes hus hc.net,
    spellsDeclared_of_realizes hvs h hc.declares⟩

theorem SignalGroup.spells_of_realizes {group : SignalGroup α} (hr : Realizes before group.marks ts)
    (h : LexicalDeclared group.type group.declarators) (hc : group.Canonical) : group.Spells ts := by
  refine spellsEnded_of_realizes hr fun hr => ?_
  obtain ⟨us, vs, rfl, hus, hvs⟩ := hr.of_append
  exact ⟨us, vs, rfl, spellsNet_of_realizes hus hc.net, spellsDeclared_of_realizes hvs h hc.declares⟩

theorem Genvars.spells_of_realizes {group : Genvars α} (hr : Realizes before group.marks ts)
    (h : ∀ name ∈ group.names, isNameText name = true) : group.Spells ts := by
  refine spellsEnded_of_realizes hr fun hr => ?_
  obtain ⟨k, us, rfl, hk, hus⟩ := hr.fixed
  exact ⟨k, us, rfl, hk, spellsCommas_of_realizes hus fun name hname _ _ hr =>
    spellsName_of_realizes hr (h name hname)⟩

/-! ### Headers are spelled -/

theorem parameterForms_forms (style : ModuleStyle) (before : Option Bool) {groups : List (ParameterGroup α)}
    (h : ∀ group ∈ groups, group.declarators ≠ []) :
    ParameterForms before groups (parameterForms style before groups) := by
  induction groups generalizing before with
  | nil => rfl
  | cons group groups ih =>
    obtain ⟨d, ds, hds⟩ := List.exists_cons_of_ne_nil (h group (by simp))
    refine ⟨group.opening style before, d, ds, parameterForms style (some group.isLocal) groups, hds, ?_, ?_, ?_,
      ih _ fun group hgroup => h group (by simp [hgroup])⟩
    · simp only [parameterForms, hds]
    · unfold ParameterGroup.opening
      split
      · rename_i hleft
        simp only [Bool.and_eq_true, beq_iff_eq] at hleft
        exact hleft.1.2
      · rfl
    · unfold ParameterGroup.opening
      split
      · rename_i hleft
        simp only [Bool.and_eq_true, Bool.or_eq_true, Option.isSome_iff_ne_none, Option.isNone_iff_eq_none] at hleft
        exact .inr hleft.2
      · exact .inl nofun

theorem portForms_forms (style : ModuleStyle) (before : Option Direction) {groups : List (PortGroup α)}
    (h : ∀ group ∈ groups, group.declarators ≠ []) :
    PortForms before groups (portForms style before groups) := by
  induction groups generalizing before with
  | nil => rfl
  | cons group groups ih =>
    obtain ⟨d, ds, hds⟩ := List.exists_cons_of_ne_nil (h group (by simp))
    refine ⟨group.opening style before, d, ds, portForms style (some group.direction) groups, hds, ?_, ?_, ?_,
      ih _ fun group hgroup => h group (by simp [hgroup])⟩
    · simp only [portForms, hds]
    · unfold PortGroup.opening
      split
      · rename_i hleft
        simp only [Bool.and_eq_true, beq_iff_eq] at hleft
        exact hleft.1.2
      · rfl
    · unfold PortGroup.opening
      split
      · rename_i hleft
        simp only [Bool.and_eq_true, Bool.or_eq_true, Option.isSome_iff_ne_none] at hleft
        exact .inr hleft.2
      · exact .inl nofun

theorem ParameterForm.spells_of_realizes {f : ParameterForm α} (hr : Realizes before f.marks ts)
    (h : ∀ t, f.type = some t → t.Lexical) (hc : ∀ t, f.type = some t → t.Fits)
    (hd : f.declarator.Lexical) : f.Spells ts := by
  obtain ⟨us, vs, rfl, hus, hrest⟩ := hr.of_append
  obtain ⟨vs, ws, rfl, hvs, hws⟩ := hrest.of_append
  exact ⟨us, vs, ws, rfl, spellsMark_of_realizes hus fun b _ => parameterWord?_parameterWord b,
    spellsType_of_realizes hvs h hc, Declarator.spells_of_realizes hws hd⟩

theorem PortForm.spells_of_realizes {f : PortForm α} (hr : Realizes before f.marks ts)
    (hnet : ∀ k, f.net = some k → k.isNetType = true) (h : ∀ t, f.type = some t → t.Lexical)
    (hc : ∀ t, f.type = some t → t.Fits) (hd : f.declarator.Lexical) : f.Spells ts := by
  obtain ⟨us, vs, rfl, hus, hrest⟩ := hr.of_append
  obtain ⟨vs, ws, rfl, hvs, hrest⟩ := hrest.of_append
  obtain ⟨ws, xs, rfl, hws, hxs⟩ := hrest.of_append
  exact ⟨us, vs, ws, xs, rfl, spellsMark_of_realizes hus fun d _ => d.ofKind?_keyword,
    spellsNet_of_realizes hvs hnet, spellsType_of_realizes hws h hc, Declarator.spells_of_realizes hxs hd⟩

theorem spellsParameters_of_realizes {style : ModuleStyle} {groups : List (ParameterGroup α)}
    (hr : Realizes before (parametersMarks style groups) ts)
    (h : ∀ group ∈ groups, LexicalDeclared group.type group.declarators)
    (hc : ∀ group ∈ groups, group.Canonical) : SpellsParameters groups ts := by
  unfold parametersMarks at hr
  split at hr
  · rename_i hempty
    exact .inl ⟨List.isEmpty_iff.1 (Bool.and_eq_true_iff.1 hempty).1, hr⟩
  · obtain ⟨s, us, rfl, hs, hus⟩ := hr.fixed
    refine .inr ⟨s, us, rfl, hs, spellsParens_of_realizes hus fun hr =>
      ⟨_, parameterForms_forms style none fun group hgroup => (hc group hgroup).nonempty,
        spellsEntries_of_realizes hr fun f hf _ _ hr => ?_⟩⟩
    obtain ⟨group, hgroup, htype, hd⟩ := mem_parameterForms hf
    exact ParameterForm.spells_of_realizes hr (forall_of_taken htype (h group hgroup).type)
      (forall_of_taken htype (hc group hgroup).type) ((h group hgroup).declarators _ hd)

theorem PortList.spells_of_realizes {style : ModuleStyle} {ports : PortList α}
    (hr : Realizes before (ports.marks style) ts) (h : ports.Lexical) (hc : ports.Canonical) :
    ports.Spells ts := by
  cases ports with
  | empty =>
    have hr : Realizes before (if style.emptyParens then parensMarks [] else []) ts := hr
    split at hr
    · exact .inr (spellsParens_of_realizes hr fun hr => hr)
    · exact .inl hr
  | ansi groups =>
    refine spellsParens_of_realizes hr fun hr =>
      ⟨_, portForms_forms style none fun group hgroup => (hc.2 group hgroup).declares.nonempty,
        spellsEntries_of_realizes hr fun f hf _ _ hr => ?_⟩
    obtain ⟨group, hgroup, hnet, htype, hd⟩ := mem_portForms hf
    exact PortForm.spells_of_realizes hr (forall_of_taken hnet (hc.2 group hgroup).net)
      (forall_of_taken htype (h group hgroup).type)
      (forall_of_taken htype (hc.2 group hgroup).declares.type) ((h group hgroup).declarators _ hd)
  | nonAnsi names =>
    exact spellsParens_of_realizes hr fun hr => spellsCommas_of_realizes hr fun name hname _ _ hr =>
      spellsName_of_realizes hr (h name hname)

/-! ### Instances are spelled -/

theorem Connection.spells_of_realizes {c : Connection α} (hr : Realizes before c.marks ts) (h : c.Lexical)
    (hc : c.Canonical) : c.Spells ts := by
  have hvalue {before : Option Token} {us : List Token} (hr : Realizes before (optionMarks Expr.marks c.value) us) :
      SpellsOption Expr.Spells c.value us :=
    spellsOption_of_realizes hr fun e he _ _ hr => Expr.spells_of_realizes hr (h.value e he)
  unfold Spells
  cases hname : c.name with
  | none =>
    rw [Connection.marks, hname] at hr
    obtain ⟨e, he⟩ := Option.ne_none_iff_exists'.1 (hc.present.resolve_left fun hne => hne hname)
    have hspell := hvalue hr
    rw [he] at hspell
    exact ⟨e, he, hspell⟩
  | some name =>
    rw [Connection.marks, hname] at hr
    obtain ⟨d, us, rfl, hd, hrest⟩ := hr.fixed
    obtain ⟨n, us, rfl, hn, htext, hus⟩ := hrest.name (h.name name hname)
    exact ⟨d, n, us, rfl, hd, hn, htext, spellsParens_of_realizes hus hvalue⟩

theorem spellsConnections_of_realizes {style : ModuleStyle} {cs : List (Connection α)}
    (hr : Realizes before (connectionsMarks style cs) ts) (h : ∀ c ∈ cs, c.Lexical)
    (hc : ∀ c ∈ cs, c.Canonical) : SpellsConnections cs ts :=
  spellsParens_of_realizes hr fun hr => spellsEntries_of_realizes hr fun c hmem _ _ hr =>
    Connection.spells_of_realizes hr (h c hmem) (hc c hmem)

theorem Realizes.identifier {text : String} {ms : List Mark} (hr : Realizes before (.word text :: ms) ts)
    (h : isIdentifierText text = true) : ∃ t us, ts = t :: us ∧ t.kind = .identifier ∧ t.text = text ∧
      Realizes (some t) ms us := by
  obtain ⟨t, us, hts, hkind, htext, hus⟩ := hr.of_cons
  have hidentifier : TokenKind.ofWord text = .identifier := beq_iff_eq.1 (Bool.and_eq_true_iff.1 h).2
  exact ⟨t, us, hts, hkind.trans hidentifier, htext, hus⟩

theorem Instantiation.spells_of_realizes {style : ModuleStyle} {inst : Instantiation α}
    (hr : Realizes before (inst.marks style) ts) (h : inst.Lexical) (hc : inst.Canonical) :
    inst.Spells ts := by
  refine spellsEnded_of_realizes hr fun hr => ?_
  obtain ⟨n, us, rfl, hn, htext, hrest⟩ := hr.identifier h.moduleName
  obtain ⟨us, vs, rfl, hus, hrest⟩ := hrest.of_append
  obtain ⟨i, vs, rfl, hi, htext', hvs⟩ := hrest.identifier h.instanceName
  refine ⟨n, us, i, vs, rfl, hn, htext, ?_, hi, htext', spellsConnections_of_realizes hvs h.ports hc.ports⟩
  unfold paramsMarks at hus
  split at hus
  · rename_i hempty
    exact .inl ⟨List.isEmpty_iff.1 (Bool.and_eq_true_iff.1 hempty).1, hus⟩
  · obtain ⟨s, ws, rfl, hs, hws⟩ := hus.fixed
    exact .inr ⟨s, ws, rfl, hs, spellsConnections_of_realizes hws h.params hc.params⟩

/-! ### Directives are spelled -/

theorem unquote_quoted (interior : String) : Parser.unquote (quoted interior) = interior := by
  have htext : (quoted interior).toList = '"' :: (interior.toList ++ ['"']) := by
    rw [quoted, String.toList_append, String.toList_append]
    rfl
  unfold Parser.unquote
  rw [htext]
  simp only [List.getLast?_concat, List.dropLast_concat, String.ofList_toList]

theorem spellsQuoted_of_realizes {interior : String} (hr : Realizes before (quotedMarks interior) ts) :
    SpellsQuoted interior ts := by
  obtain ⟨t, us, rfl, hkind, htext, hus⟩ := hr.of_cons
  obtain rfl : us = [] := hus
  exact ⟨t, rfl, hkind, by rw [htext, unquote_quoted]⟩

theorem TimeValue.spells_of_realizes {time : TimeValue} (hr : Realizes before time.marks ts)
    (hc : time.Canonical) : time.Spells ts := by
  obtain ⟨m, us, rfl, hkind, htext, hrest⟩ := hr.of_cons
  obtain ⟨u, vs, rfl, hlexeme, -, hvs⟩ := hrest
  obtain rfl : vs = [] := hvs
  have hunit : u.kind = .word time.unit.keyword := by
    rw [congrArg Lexeme.kind hlexeme]
    cases time.unit <;> decide
  refine ⟨m, u, rfl, hkind, ?_, by rw [hunit, time.unit.ofKind?_keyword]⟩
  rw [htext]
  rcases hc with h | h | h <;> rw [h] <;> rfl

theorem DirectiveKind.spells_of_realizes {kind : DirectiveKind α} (hr : Realizes before kind.marks ts)
    (h : kind.Lexical) (hc : kind.Canonical) : kind.Spells ts := by
  obtain ⟨t, us, rfl, hkind, htext, hus⟩ := hr.of_cons
  have hname : t.text ∈ kind.names := by
    rw [htext]
    cases kind with
    | conditional negated macroName skipped => exact hc.elim
    | _ => exact List.mem_cons_self
  refine ⟨t, us, rfl, hkind, hname, ?_⟩
  cases kind with
  | beginKeywords version => exact spellsQuoted_of_realizes hus
  | includeFile path => exact spellsQuoted_of_realizes hus
  | timescale unit precision =>
    obtain ⟨us, vs, rfl, hunit, hrest⟩ := hus.of_append
    obtain ⟨d, vs, rfl, hd, hprecision⟩ := hrest.fixed
    exact ⟨us, d, vs, rfl, TimeValue.spells_of_realizes hunit hc.1, hd,
      TimeValue.spells_of_realizes hprecision hc.2⟩
  | defaultNettype netType =>
    obtain ⟨u, vs, rfl, hu, hnet, hvs⟩ := hus.of_cons
    obtain rfl : vs = [] := hvs
    exact ⟨u, rfl, by rw [hu]; exact h.2, hnet⟩
  | unconnectedDrive pull => exact hus.last
  | conditional negated macroName skipped => exact hc.elim
  | _ => exact hus

/-! ### Items are spelled -/

theorem ContinuousAssign.spells_of_realizes {group : ContinuousAssign α} (hr : Realizes before group.marks ts)
    (h : group.Lexical) : group.Spells ts := by
  refine spellsEnded_of_realizes hr fun hr => ?_
  obtain ⟨k, us, rfl, hk, hrest⟩ := hr.fixed
  obtain ⟨us, vs, rfl, hus, hvs⟩ := hrest.of_append
  refine ⟨k, us, vs, rfl, hk, ?_, spellsCommas_of_realizes hvs fun e he _ _ hr =>
    Expr.spells_of_realizes hr (h.assignments e he)⟩
  have hunjoined : Unjoined (commaMarks Expr.marks group.assignments) :=
    (lexable_commaMarks fun e he => Expr.lexable_marks (h.assignments e he)).unjoined
  cases hdelay : group.delay with
  | none =>
    rw [hdelay] at hus
    exact hus
  | some d =>
    rw [hdelay] at hus
    exact Delay.spells_of_realizes hus hvs hunjoined (h.delay d hdelay)

theorem AlwaysBlock.spells_of_realizes {style : Style} {a : AlwaysBlock α}
    (hr : Realizes before (a.marks style) ts) (h : a.Lexical) (hc : a.Canonical) : a.Spells ts := by
  obtain ⟨k, us, rfl, hk, hrest⟩ := hr.fixed
  obtain ⟨us, vs, rfl, hus, hvs⟩ := hrest.of_append
  exact ⟨k, us, vs, rfl, by rw [hk, AlwaysKind.ofKind?_keyword], spellsOption_of_realizes hus
    fun s hs _ _ hr => Sensitivity.spells_of_realizes hr (h.sensitivity s hs),
    Statement.spells_of_realizes hvs h.body hc.body.1⟩

theorem InitialBlock.spells_of_realizes {style : Style} {i : InitialBlock α}
    (hr : Realizes before (i.marks style) ts) (h : i.body.Lexical) (hc : i.body.Fits) : i.Spells ts := by
  obtain ⟨k, us, rfl, hk, hus⟩ := hr.fixed
  exact ⟨k, us, rfl, hk, Statement.spells_of_realizes hus h hc.1⟩

/-- The label behind a closing word repeats the one behind the opening word, if there is one. -/
theorem spellsClosing_of_realizes {style : Style} {label : Option String}
    (hr : Realizes before (closingMarks style label) ts)
    (h : ∀ name, label = some name → isNameText name = true) :
    ts = [] ∨ label ≠ none ∧ SpellsLabel label ts := by
  unfold closingMarks at hr
  split at hr
  · have hlabel := spellsLabel_of_realizes hr h
    cases label with
    | none => exact .inl hlabel
    | some name => exact .inr ⟨nofun, hlabel⟩
  · exact .inl hr

end Parts

namespace BodyItem

mutual

/-- The tokens that the marks of a canonical item become spell it. -/
theorem spells_of_realizes {style : ModuleStyle} : ∀ {item : BodyItem α} {before : Option Token}
    {ts : List Token}, Realizes before (item.marks style) ts → item.Lexical → item.Canonical → item.Spells ts
  | parameters _, _, _, hr, h, hc => ParameterGroup.spells_of_realizes hr h hc
  | ports _, _, _, hr, h, hc => PortGroup.spells_of_realizes hr h hc
  | signals _, _, _, hr, h, hc => SignalGroup.spells_of_realizes hr h hc
  | genvars _, _, _, hr, h, _ => Genvars.spells_of_realizes hr h
  | assign _, _, _, hr, h, _ => ContinuousAssign.spells_of_realizes hr h
  | always _, _, _, hr, h, hc => AlwaysBlock.spells_of_realizes hr h hc
  | initial _, _, _, hr, h, hc => InitialBlock.spells_of_realizes hr h hc
  | instantiation _, _, _, hr, h, hc => Instantiation.spells_of_realizes hr h hc
  | block _, _, _, hr, h, hc => spellsBlock_of_realizes hr h hc
  | region _ items, _, _, hr, h, hc => by
    obtain ⟨o, us, rfl, ho, hrest⟩ := hr.fixed
    obtain ⟨us, vs, rfl, hus, hvs⟩ := hrest.of_append
    obtain ⟨e, rfl, he⟩ := hvs.last
    exact ⟨o, us, e, rfl, ho, spellsAll_of_realizes hus h hc, he⟩
  | generateIf _ condition thenBlock elseBlock, _, _, hr, h, hc => by
    obtain ⟨i, us, rfl, hi, hrest⟩ := hr.fixed
    obtain ⟨us, vs, rfl, hus, hrest⟩ := hrest.of_append
    obtain ⟨vs, ws, rfl, hvs, hws⟩ := hrest.of_append
    exact ⟨i, us, vs, ws, rfl, hi, spellsCondition_of_realizes hus h.1,
      spellsBlock_of_realizes hvs h.2.1 hc.2.1, spellsElse_of_realizes hws h.2.2 hc.2.2⟩
  | generateFor _ header body, _, _, hr, h, hc => by
    obtain ⟨f, us, rfl, hf, hrest⟩ := hr.fixed
    obtain ⟨us, vs, rfl, hus, hvs⟩ := hrest.of_append
    exact ⟨f, us, vs, rfl, hf, LoopHeader.spells_of_realizes hus h.1 hc.1,
      spellsBlock_of_realizes hvs h.2 hc.2.2⟩
  | generateCase _ selector items default, _, _, hr, h, hc => by
    obtain ⟨k, us, rfl, hk, hrest⟩ := hr.fixed
    obtain ⟨us, xs, rfl, hbody, hxs⟩ := hrest.of_append
    obtain ⟨us, vs, rfl, hus, hrest⟩ := hbody.of_append
    obtain ⟨vs, ws, rfl, hvs, hws⟩ := hrest.of_append
    obtain ⟨e, rfl, he⟩ := hxs.last
    exact ⟨k, us, vs, ws, e, rfl, hk, spellsCondition_of_realizes hus h.1,
      spellsCases_of_realizes hvs h.2.1 hc.2.1, spellsDefault_of_realizes hws h.2.2 hc.2.2, he⟩
  | directive _, _, _, hr, h, hc => DirectiveKind.spells_of_realizes hr h hc
  | empty _, _, _, hr, _, _ => hr.last

theorem spellsBlock_of_realizes {style : ModuleStyle} : ∀ {b : GenerateBlock α (BodyItem α)}
    {before : Option Token} {ts : List Token}, Realizes before (marksBlock style b) ts → LexicalBlock b →
    CanonicalBlock b → SpellsBlock b ts
  | ⟨_, label, items⟩, _, _, hr, h, hc => by
    obtain ⟨us, ms, rfl, hrest, hms⟩ := hr.of_append
    obtain ⟨b, us, rfl, hb, hrest⟩ := hrest.fixed
    obtain ⟨us, vs, rfl, hbody, hvs⟩ := hrest.of_append
    obtain ⟨ls, us, rfl, hls, hus⟩ := hbody.of_append
    obtain ⟨e, rfl, he⟩ := hvs.last
    exact ⟨b, ls, us, e, ms, rfl, hb, spellsLabel_of_realizes hls h.1, spellsAll_of_realizes hus h.2 hc, he,
      spellsClosing_of_realizes hms h.1⟩

theorem spellsAll_of_realizes {style : ModuleStyle} : ∀ {items : List (BodyItem α)}
    {before : Option Token} {ts : List Token}, Realizes before (marksAll style items) ts →
    LexicalAll items → CanonicalAll items → SpellsAll items ts
  | [], _, _, hr, _, _ => hr
  | _ :: _, _, _, hr, h, hc => by
    obtain ⟨us, vs, rfl, hus, hvs⟩ := hr.of_append
    exact ⟨us, vs, rfl, spells_of_realizes hus h.1 hc.1, spellsAll_of_realizes hvs h.2 hc.2⟩

theorem spellsElse_of_realizes {style : ModuleStyle} : ∀ {o : Option (GenerateBlock α (BodyItem α))}
    {before : Option Token} {ts : List Token}, Realizes before (marksElse style o) ts → LexicalOption o →
    CanonicalOption o → SpellsElse o ts
  | none, _, _, hr, _, _ => hr
  | some _, _, _, hr, h, hc => by
    obtain ⟨e, us, rfl, he, hus⟩ := hr.fixed
    exact ⟨e, us, rfl, he, spellsBlock_of_realizes hus h hc⟩

theorem spellsDefault_of_realizes {style : ModuleStyle} : ∀ {o : Option (GenerateBlock α (BodyItem α))}
    {before : Option Token} {ts : List Token}, Realizes before (marksDefault style o) ts → LexicalOption o →
    CanonicalOption o → SpellsDefault o ts
  | none, _, _, hr, _, _ => hr
  | some _, _, _, hr, h, hc => by
    obtain ⟨d, us, rfl, hd, hrest⟩ := hr.fixed
    obtain ⟨us, vs, rfl, hus, hvs⟩ := hrest.of_append
    refine ⟨d, us, vs, rfl, hd, ?_, spellsBlock_of_realizes hvs h hc⟩
    split at hus
    · exact .inr hus.last
    · exact .inl hus

theorem spellsCases_of_realizes {style : ModuleStyle} :
    ∀ {items : List (CaseItem α (GenerateBlock α (BodyItem α)))} {before : Option Token} {ts : List Token},
    Realizes before (marksCases style items) ts → LexicalCases items → CanonicalCases items →
    SpellsCases items ts
  | [], _, _, hr, _, _ => hr
  | ⟨_, labels, body⟩ :: items, _, _, hr, h, hc => by
    obtain ⟨us, vs, rfl, hus, htail⟩ := hr.of_append
    obtain ⟨m, vs, rfl, hm, hrest⟩ := htail.fixed
    obtain ⟨vs, ws, rfl, hvs, hws⟩ := hrest.of_append
    exact ⟨us, m, vs, ws, rfl, Expr.spellsList_of_realizes hus (Expr.allLexical_of_forall h.1), hm,
      spellsBlock_of_realizes hvs h.2.1 hc.2.2.1, spellsCases_of_realizes hws h.2.2 hc.2.2.2⟩

end

end BodyItem

theorem Module.spells_of_realizes {style : ModuleStyle} {m : Module α} {before : Option Token}
    {ts : List Token} (hr : Realizes before (m.marks style) ts) (h : m.Lexical) (hc : m.Canonical) :
    m.Spells ts := by
  have hlabel : ∀ name, some m.name = some name → isNameText name = true := by
    rintro _ ⟨⟩
    exact h.name
  obtain ⟨us, ls, rfl, hrest, hls⟩ := hr.of_append
  obtain ⟨k, us, rfl, hk, hrest⟩ := hrest.fixed
  obtain ⟨us, vs, rfl, hinner, hvs⟩ := hrest.of_append
  obtain ⟨e, rfl, he⟩ := hvs.last
  obtain ⟨n, us, rfl, hn, htext, hrest⟩ := hinner.name h.name
  obtain ⟨ps, us, rfl, hps, hrest⟩ := hrest.of_append
  obtain ⟨qs, us, rfl, hqs, hrest⟩ := hrest.of_append
  obtain ⟨s, us, rfl, hs, hus⟩ := hrest.fixed
  exact ⟨k, n, ps, qs, s, us, e, ls, rfl, hk, hn, htext, spellsParameters_of_realizes hps h.params hc.params,
    PortList.spells_of_realizes hqs h.ports hc.ports, hs, BodyItem.spellsAll_of_realizes hus h.body hc.body, he,
    (spellsClosing_of_realizes hls hlabel).imp id And.right⟩

/-- The tokens that the marks of canonical items become spell them. -/
theorem Item.spells_of_realizes {style : ModuleStyle} {is : List (Item α)} {before : Option Token}
    {ts : List Token} (hr : Realizes before (is.flatMap (Item.marks style)) ts) (h : ∀ i ∈ is, i.Lexical)
    (hc : ∀ i ∈ is, i.Canonical) : SpellsEach Item.Spells is ts := by
  refine spellsEach_of_realizes hr fun i hi _ _ hr => ?_
  have hlexical := h i hi
  have hcan := hc i hi
  cases i with
  | design m => exact Module.spells_of_realizes hr hlexical hcan
  | directive d => exact DirectiveKind.spells_of_realizes hr hlexical hcan

end SystemVerilog
