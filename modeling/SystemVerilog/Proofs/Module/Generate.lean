import SystemVerilog.Grammar.Body
import SystemVerilog.Proofs.Module.Items

/-!
# Every canonical item of a module body is read

Tokens that spell a canonical item are read as that item, up to the sites of its nodes, if neither a colon
nor an `else` follows. Blocks, regions and case constructs are isolated by their closing words; inside them
items follow one another, and each ends where the next one starts. The first token of an item, for an
instance the one behind it too, tells which kind of item it is.
-/

namespace SystemVerilog

open SystemVerilog.Parser

/-! ### Rules for recorders -/

section Rules

variable {α β γ δ : Type} {f : α → β} {b : β} {c c' : Cursor} {ts : List Token}

theorem Records.lift {p : Parser α} (h : Reads p f c b c') : Records (monadLift p) f c b c' := by
  obtain ⟨a, hread, ha⟩ := h
  exact ⟨a, Reader.lift hread, ha⟩

theorem Records.map {p : Recorder α} {g : α → γ} {k : γ → δ} {d : δ} (h : Records p f c b c')
    (hk : ∀ a, f a = b → k (g a) = d) : Records (p >>= fun a => pure (g a)) k c d c' := by
  obtain ⟨a, hread, ha⟩ := h
  exact ⟨g a, Reader.bind hread (Reader.pure _ c'), hk a ha⟩

end Rules

/-- Every canonical item in a span of fewer than `bound` tokens is read. -/
def CompleteItems (p : NestedItem) (bound : Nat) : Prop :=
  ∀ ⦃c c' ts i⦄, c.after.length < bound → c.Steps ts c' → BodyItem.Spells i ts → i.Canonical →
    (∀ t ∈ ts, t.Faithful) → FollowsItem c'.after → Records p (BodyItem.map fun _ => ()) c i c'

theorem CompleteItems.mono {p : NestedItem} {bound bound' : Nat} (h : CompleteItems p bound)
    (hb : bound' ≤ bound) : CompleteItems p bound' := fun _ _ _ _ hc => h (Nat.lt_of_lt_of_le hc hb)

section Items

variable {p : NestedItem} {c c' : Cursor} {ts : List Token} {bound : Nat}

theorem CompleteItems.readsIn {i : BodyItem Unit} (h : CompleteItems p bound) (hcan : i.Canonical)
    (hfaithful : ∀ t ∈ ts, t.Faithful) : ReadsIn p (BodyItem.map fun _ => ()) BodyItem.Spells ts bound i :=
  fun _ _ _ hspell hsub hs hb hfollows => h hb hs hspell hcan (fun t ht => hfaithful t (hsub ht)) hfollows

/-! ### Blocks and regions -/

theorem generateBlockOf_complete {b : GenerateBlock Unit (BodyItem Unit)}
    (hn : CompleteItems p c.after.length) (hs : c.Steps ts c') (hspell : BodyItem.SpellsBlock b ts)
    (hcan : BodyItem.CanonicalBlock b) (hfaithful : ∀ t ∈ ts, t.Faithful)
    (hnext : ∀ t us, c'.after = t :: us → t.kind ≠ .op .colon) :
    Records (generateBlockOf p) (BodyItem.mapBlock fun _ => ()) c b c' := by
  obtain ⟨_, label, is⟩ := b
  obtain ⟨o, ls, us, e, ms, rfl, ho, hls, hus, he, hms⟩ := hspell
  have hfaithful' : ∀ t ∈ us, t.Faithful := fun t h => hfaithful t (by simp [h])
  obtain ⟨c₁, hs₁, hs₂⟩ := hs.of_append
  have hcheck : check (.word .kwBegin) c = .ok (true, c) := by
    rw [check, Cursor.check_of_after hs₁.after ho]
  obtain ⟨⟨label', is'⟩, hread, rfl, rfl⟩ := labelled_reads hs₁ ho he hls (BodyItem.spellsAll_iff.1 hus)
    (hls.skipsScopes.append (hus.skips hcan hfaithful')).blocks.block
    (fun i hi _ h => h.starts (BodyItem.canonicalAll_iff.1 hcan i hi))
    fun i hi => hn.readsIn (BodyItem.canonicalAll_iff.1 hcan i hi) hfaithful'
  refine .tagged ⟨fun tag => ⟨tag, label', is'⟩, ?_, fun tag => ?_⟩
  · exact Reader.bind (Reader.lift hcheck) <| Reader.bind hread <|
      Reader.bind (Reader.lift (endLabel_of_spells hs₂ hms hnext)) (Reader.pure _ c')
  · show GenerateBlock.mk () label' (BodyItem.mapAll _ is') = _
    rw [BodyItem.mapAll_eq_map]

theorem CompleteItems.readsBlock {b : GenerateBlock Unit (BodyItem Unit)} (hn : CompleteItems p bound)
    (hcan : BodyItem.CanonicalBlock b) (hfaithful : ∀ t ∈ ts, t.Faithful) :
    ReadsIn (generateBlockOf p) (BodyItem.mapBlock fun _ => ()) BodyItem.SpellsBlock ts bound b :=
  fun _ _ _ hspell hsub hs hb hfollows => generateBlockOf_complete (hn.mono (Nat.le_of_lt hb)) hs hspell hcan
    (fun t ht => hfaithful t (hsub ht)) fun _ _ h => hfollows.ne_colon h

theorem generateRegionOf_complete {is : List (BodyItem Unit)} (hn : CompleteItems p c.after.length)
    (hs : c.Steps ts c') (hspell : (BodyItem.region () is).Spells ts) (hcan : BodyItem.CanonicalAll is)
    (hfaithful : ∀ t ∈ ts, t.Faithful) :
    Records (generateRegionOf p) (BodyItem.map fun _ => ()) c (.region () is) c' := by
  obtain ⟨o, us, e, rfl, ho, hus, he⟩ := hspell
  have hfaithful' : ∀ t ∈ us, t.Faithful := fun t h => hfaithful t (by simp [h])
  refine .tagged (yields_enclosed hs (by rw [ho]; rfl) (by rw [he]; rfl) (by rw [he]; rfl)
    (hus.skips hcan hfaithful').regions fun c₁ c₂ hs hend hshort => ?_)
  have hcan := BodyItem.canonicalAll_iff.1 hcan
  obtain ⟨is', hread, rfl⟩ := untilEnd_reads hs (BodyItem.spellsAll_iff.1 hus) hend
    (fun i hi _ h => h.starts (hcan i hi)) (fun i hi => hn.readsIn (hcan i hi) hfaithful') hshort
  refine ⟨fun tag => .region tag is', Reader.bind hread (Reader.pure _ c₂), fun tag => ?_⟩
  show BodyItem.region () (BodyItem.mapAll _ is') = _
  rw [BodyItem.mapAll_eq_map]

/-! ### Conditions and loops -/

theorem generateIfOf_complete {condition : Expr Unit} {thenBlock : GenerateBlock Unit (BodyItem Unit)}
    {elseBlock : Option (GenerateBlock Unit (BodyItem Unit))} (hn : CompleteItems p c.after.length)
    (hs : c.Steps ts c') (hspell : (BodyItem.generateIf () condition thenBlock elseBlock).Spells ts)
    (hcan : (BodyItem.generateIf () condition thenBlock elseBlock).Canonical)
    (hfaithful : ∀ t ∈ ts, t.Faithful) (hnext : FollowsItem c'.after) :
    Records (generateIfOf p) (BodyItem.map fun _ => ()) c
      (.generateIf () condition thenBlock elseBlock) c' := by
  obtain ⟨i, us, vs, ws, rfl, hi, hus, hvs, hws⟩ := hspell
  obtain ⟨hcondition, hthen, helse⟩ := hcan
  obtain ⟨hafter, hs⟩ := hs.of_cons
  obtain ⟨c₁, hs₁, hs'⟩ := hs.of_append
  obtain ⟨c₂, hs₂, hs₃⟩ := hs'.of_append
  have hshort : (c.skip 1).after.length < c.after.length := by simp [hafter]
  have hlen₁ := hs₁.length
  have hlen₂ := hs₂.length
  have hword : consume c = .ok (i, c.skip 1) := demandWith_eq_ok.2 ⟨_, hafter, rfl, rfl⟩
  have hfaithful' : ∀ t ∈ vs, t.Faithful := fun t h => hfaithful t (by simp [h])
  obtain ⟨condition', hreadCondition, rfl⟩ := condition_complete hs₁ hus hcondition.1.1
  cases elseBlock with
  | none =>
    unfold BodyItem.SpellsElse at hws
    subst hws
    obtain rfl := hs₃.of_nil
    have helse : eat (.word .kwElse) c' = .ok (false, c') :=
      eat_of_check (Cursor.check_eq_false fun t us h => (hnext t us h).2)
    obtain ⟨then', hreadThen, rfl⟩ := generateBlockOf_complete (hn.mono (by omega)) hs₂ hvs hthen hfaithful'
      fun t us h => (hnext t us h).1
    refine .tagged ⟨fun tag => .generateIf tag condition' then' none, ?_, fun tag => rfl⟩
    exact Reader.bind (Reader.lift hword) <| Reader.bind (Reader.lift hreadCondition) <|
      Reader.bind hreadThen <| Reader.bind (Reader.lift helse) (Reader.pure _ c')
  | some b =>
    obtain ⟨e, xs, rfl, he, hxs⟩ := hws
    obtain ⟨hafter₂, hs₃⟩ := hs₃.of_cons
    have hshort₂ : (c₂.skip 1).after.length < c₂.after.length := by simp [hafter₂]
    obtain ⟨then', hreadThen, rfl⟩ := generateBlockOf_complete (hn.mono (by omega)) hs₂ hvs hthen hfaithful'
      fun t us h hk => by
        obtain ⟨rfl, -⟩ := List.cons.inj (hafter₂.symm.trans h)
        rw [hk] at he
        cases he
    obtain ⟨else', hreadElse, rfl⟩ := generateBlockOf_complete (hn.mono (by omega)) hs₃ hxs helse
      (fun t h => hfaithful t (by simp [h])) fun t us h => (hnext t us h).1
    refine .tagged ⟨fun tag => .generateIf tag condition' then' (some else'), ?_, fun tag => rfl⟩
    exact Reader.bind (Reader.lift hword) <| Reader.bind (Reader.lift hreadCondition) <|
      Reader.bind hreadThen <| Reader.bind (Reader.lift (eat_of_after hafter₂ he)) <|
        Reader.bind hreadElse (Reader.pure _ c')

theorem generateForOf_complete {header : LoopHeader Unit} {body : GenerateBlock Unit (BodyItem Unit)}
    (hn : CompleteItems p c.after.length) (hs : c.Steps ts c')
    (hspell : (BodyItem.generateFor () header body).Spells ts)
    (hcan : (BodyItem.generateFor () header body).Canonical) (hfaithful : ∀ t ∈ ts, t.Faithful)
    (hnext : FollowsItem c'.after) :
    Records (generateForOf p) (BodyItem.map fun _ => ()) c (.generateFor () header body) c' := by
  obtain ⟨f, us, vs, rfl, hf, hus, hvs⟩ := hspell
  obtain ⟨hheader, -, hbody⟩ := hcan
  obtain ⟨hafter, hs⟩ := hs.of_cons
  obtain ⟨c₁, hs₁, hs₂⟩ := hs.of_append
  have hshort : (c.skip 1).after.length < c.after.length := by simp [hafter]
  have hlen := hs₁.length
  have hword : consume c = .ok (f, c.skip 1) := demandWith_eq_ok.2 ⟨_, hafter, rfl, rfl⟩
  obtain ⟨header', hreadHeader, rfl⟩ :=
    loopHeader_complete hs₁ hus hheader fun t h => hfaithful t (by simp [h])
  obtain ⟨body', hread, rfl⟩ := generateBlockOf_complete (hn.mono (by omega)) hs₂ hvs hbody
    (fun t h => hfaithful t (by simp [h])) fun t us h => (hnext t us h).1
  refine .tagged ⟨fun tag => .generateFor tag header' body', ?_, fun tag => rfl⟩
  exact Reader.bind (Reader.lift hword) <| Reader.bind (Reader.lift hreadHeader) <|
    Reader.bind hread (Reader.pure _ c')

/-! ### Generate cases -/

theorem generateCaseOf_complete {selector : Expr Unit}
    {items : List (CaseItem Unit (GenerateBlock Unit (BodyItem Unit)))}
    {default : Option (GenerateBlock Unit (BodyItem Unit))} (hn : CompleteItems p c.after.length)
    (hs : c.Steps ts c') (hspell : (BodyItem.generateCase () selector items default).Spells ts)
    (hcan : (BodyItem.generateCase () selector items default).Canonical)
    (hfaithful : ∀ t ∈ ts, t.Faithful) :
    Records (generateCaseOf p) (BodyItem.map fun _ => ()) c (.generateCase () selector items default) c' := by
  obtain ⟨k, us, vs, ws, e, rfl, hk, hus, hvs, hws, he⟩ := hspell
  obtain ⟨hselector, hitems, hdefault⟩ := hcan
  have hfaithful' : ∀ t ∈ vs ++ ws, t.Faithful := fun t h => hfaithful t (by
    rcases List.mem_append.1 h with h | h <;> simp [h])
  have hskip : SkipsScopes (us ++ (vs ++ ws)) :=
    .append (hus.skipsScopes hselector fun t h => hfaithful t (by simp [h]))
      (.append (hvs.skips hitems fun t h => hfaithful t (by simp [h]))
        (hws.skips hdefault fun t h => hfaithful t (by simp [h])))
  refine .tagged (yields_enclosed hs (by rw [hk]; rfl) (by rw [he]; rfl) (by rw [he]; rfl)
    hskip.blocks.case fun c₁ c₂ hs hend hshort => ?_)
  obtain ⟨c₃, hs₁, hs₂⟩ := hs.of_append
  have hlen := hs₁.length
  obtain ⟨selector', hreadSelector, rfl⟩ := condition_complete hs₁ hus hselector.1.1
  have hitems := BodyItem.canonicalCases_iff.1 hitems
  obtain ⟨⟨items', default'⟩, hread, hmap, hmap'⟩ := caseItems_reads hs₂ hend
    (BodyItem.spellsCases_iff.1 hvs) (BodyItem.spellsDefault_iff.1 hws)
    (fun item h => ⟨(hitems item h).1, fun e he => ((hitems item h).2.1 e he).1.1⟩)
    (fun _ _ h => h.startsItem) (fun item h => hn.readsBlock (hitems item h).2.2 hfaithful')
    (fun b h => hn.readsBlock (BodyItem.canonicalOption_iff.1 hdefault b h)
      fun t h => hfaithful' t (List.mem_append_right _ h)) (by omega)
  refine ⟨fun tag => .generateCase tag selector' items' default', ?_, fun tag => ?_⟩
  · exact Reader.bind (Reader.lift hreadSelector) (Reader.bind hread (Reader.pure _ c₂))
  · show BodyItem.generateCase () selector'.erase (BodyItem.mapItems _ items')
      (BodyItem.mapOption _ default') = _
    rw [BodyItem.mapItems_eq_map, BodyItem.mapOption_eq_map, ← hmap, ← hmap']

/-! ### Which item it is -/

section Dispatch

variable {i : BodyItem Unit} {t : Token} {rest : List Token} {word : Keyword}

theorem startsInstantiation_of_kind {kind : TokenKind} (h : c.after = t :: rest) (ht : t.kind = kind)
    (hne : kind ≠ .identifier) : startsInstantiation c = .ok (false, c) := by
  have hcheck : c.check .identifier = false := Cursor.check_eq_false fun u us hu hk => by
    obtain ⟨rfl, -⟩ := List.cons.inj (h.symm.trans hu)
    exact hne (ht.symm.trans hk)
  rw [startsInstantiation, hcheck]
  rfl

theorem yields_current? (h : c.after = t :: rest) :
    Reader.Yields (monadLift Parser.current? : Recorder (Option Token)) c (some t) c :=
  Reader.lift (by rw [current?, Cursor.current?, h]; rfl)

/-- A reserved word tells which item it opens. -/
theorem bodyItemOf_word (h : c.after = t :: rest) (ht : t.kind = .word word)
    (hread : Records (wordItemOf p word t) (BodyItem.map fun _ => ()) c i c') :
    Records (bodyItemOf p) (BodyItem.map fun _ => ()) c i c' := by
  obtain ⟨a, ha, hmap⟩ := hread
  refine ⟨a, Reader.bind (yields_current? h) <|
    Reader.bind (Reader.lift (startsInstantiation_of_kind h ht nofun)) ?_, hmap⟩
  rw [ht]
  exact ha

theorem bodyItemOf_directive (h : c.after = t :: rest) (ht : t.kind = .directive)
    (hread : Records (do return .directive (← directive)) (BodyItem.map fun _ => ()) c i c') :
    Records (bodyItemOf p) (BodyItem.map fun _ => ()) c i c' := by
  obtain ⟨a, ha, hmap⟩ := hread
  refine ⟨a, Reader.bind (yields_current? h) <|
    Reader.bind (Reader.lift (startsInstantiation_of_kind h ht nofun)) ?_, hmap⟩
  rw [ht]
  exact ha

theorem bodyItemOf_semicolon (h : c.after = t :: rest) (ht : t.kind = .op .semicolon)
    (hread : Reads emptyItem (BodyItem.map fun _ => ()) c i c') :
    Records (bodyItemOf p) (BodyItem.map fun _ => ()) c i c' := by
  obtain ⟨a, ha, hmap⟩ := Records.lift hread
  refine ⟨a, Reader.bind (yields_current? h) <|
    Reader.bind (Reader.lift (startsInstantiation_of_kind h ht nofun)) ?_, hmap⟩
  rw [ht]
  exact ha

/-- Two identifiers, or an identifier and a sharp, start an instance. -/
theorem bodyItemOf_instantiation {inst : Instantiation Unit} (h : c.after = t :: rest)
    (hstarts : startsInstantiation c = .ok (true, c))
    (hread : Reads instantiation (Instantiation.map fun _ => ()) c inst c') :
    Records (bodyItemOf p) (BodyItem.map fun _ => ()) c (.instantiation inst) c' := by
  obtain ⟨a, ha, rfl⟩ := hread
  exact ⟨.instantiation a, Reader.bind (yields_current? h) <| Reader.bind (Reader.lift hstarts) <|
    Reader.bind (Reader.lift ha) (Reader.pure _ c'), rfl⟩

theorem startsInstantiation_of_spells {inst : Instantiation Unit} (hs : c.Steps ts c')
    (hspell : inst.Spells ts) : startsInstantiation c = .ok (true, c) := by
  obtain ⟨_, m, rfl, ⟨n, us, i, vs, rfl, hn, -, hus, hi, -⟩, -⟩ := hspell
  have hcheck : c.check .identifier = true := Cursor.check_of_after hs.after hn
  have hsecond : c.peekKind? 1 = some .identifier ∨ c.peekKind? 1 = some (.op .sharp) := by
    rcases hus with ⟨-, rfl⟩ | ⟨s, ws, rfl, hsharp, -⟩
    · exact .inl (by rw [Cursor.peekKind?, Cursor.peek?, hs.after, ← hi]; rfl)
    · exact .inr (by rw [Cursor.peekKind?, Cursor.peek?, hs.after, ← hsharp]; rfl)
  rw [startsInstantiation, hcheck]
  rcases hsecond with hsecond | hsecond <;> rw [hsecond] <;> rfl

theorem wordItemOf_always {a : AlwaysKind} (h : AlwaysKind.ofKind? (.word word) = some a) :
    wordItemOf p word t = do return .always (← alwaysBlock a) := by
  unfold wordItemOf
  rw [h]

theorem wordItemOf_direction (h : word.isDirection = true) :
    wordItemOf p word t = do return .ports (← portDeclaration) := by
  unfold Keyword.isDirection at h
  split at h <;> first | rfl | cases h

theorem wordItemOf_signals (h : (word.isNetType || word.namesDataType) = true) :
    wordItemOf p word t = do return .signals (← signalDeclaration) := by
  have hword : AlwaysKind.ofKind? (.word word) = none ∧ word.isDirection = false := by
    cases word <;> first | exact ⟨rfl, rfl⟩ | cases h
  unfold wordItemOf
  rw [hword.1]
  simp only [hword.2, h, if_true, Bool.false_eq_true, if_false]

/-- An item reader gives every canonical item if the readers of the items inside do. -/
theorem bodyItemOf_complete (hn : CompleteItems p c.after.length) (hs : c.Steps ts c')
    (hspell : i.Spells ts) (hcan : i.Canonical) (hfaithful : ∀ t ∈ ts, t.Faithful)
    (hnext : FollowsItem c'.after) : Records (bodyItemOf p) (BodyItem.map fun _ => ()) c i c' := by
  cases i with
  | parameters group =>
    have hread : Records (do return .parameters (← parameterDeclaration)) (BodyItem.map fun _ => ()) c
        (.parameters group) c' :=
      (Records.lift (parameterDeclaration_complete hs hspell hcan hfaithful)).map
        fun _ => congrArg BodyItem.parameters
    obtain ⟨t, us, rfl, ht | ht⟩ := ParameterGroup.Spells.starts hspell
    · exact bodyItemOf_word hs.after ht hread
    · exact bodyItemOf_word hs.after ht hread
  | ports group =>
    have hread := Records.lift (portDeclaration_complete hs hspell hcan hfaithful)
    obtain ⟨t, us, k, rfl, ht, hk⟩ := PortGroup.Spells.starts hspell
    refine bodyItemOf_word hs.after ht ?_
    rw [wordItemOf_direction hk]
    exact hread.map fun _ => congrArg BodyItem.ports
  | signals group =>
    have hread := Records.lift (signalDeclaration_complete hs hspell hcan hfaithful)
    obtain ⟨t, us, k, rfl, ht, hk⟩ := SignalGroup.Spells.starts hspell hcan
    refine bodyItemOf_word hs.after ht ?_
    rw [wordItemOf_signals hk]
    exact hread.map fun _ => congrArg BodyItem.signals
  | genvars group =>
    have hread := Records.lift (genvarDeclaration_complete hs hspell hcan hfaithful)
    obtain ⟨_, m, rfl, ⟨k, vs, rfl, hk, -⟩, -⟩ := hspell
    exact bodyItemOf_word hs.after hk (hread.map fun _ => congrArg BodyItem.genvars)
  | assign group =>
    have hread := Records.lift (continuousAssign_complete hs hspell hcan hfaithful)
    obtain ⟨_, m, rfl, ⟨k, vs, ws, rfl, hk, -⟩, -⟩ := hspell
    exact bodyItemOf_word hs.after hk (hread.map fun _ => congrArg BodyItem.assign)
  | always a =>
    have hread := Records.lift (alwaysBlock_complete hs hspell hcan hfaithful hnext)
    obtain ⟨k, us, vs, rfl, hk, -⟩ := hspell
    obtain ⟨w, hw, -⟩ := word_of_always hk
    refine bodyItemOf_word hs.after hw ?_
    rw [wordItemOf_always (hw ▸ hk)]
    exact hread.map fun _ => congrArg BodyItem.always
  | initial init =>
    have hread := Records.lift (initialBlock_complete hs hspell hcan hfaithful hnext)
    obtain ⟨k, us, rfl, hk, -⟩ := hspell
    exact bodyItemOf_word hs.after hk (hread.map fun _ => congrArg BodyItem.initial)
  | instantiation inst =>
    have hread := instantiation_complete hs hspell hcan hfaithful
    have hstarts := startsInstantiation_of_spells hs hspell
    obtain ⟨_, m, rfl, ⟨n, us, i, vs, rfl, -⟩, -⟩ := hspell
    exact bodyItemOf_instantiation hs.after hstarts hread
  | block b =>
    have hread := generateBlockOf_complete hn hs hspell hcan hfaithful fun t us h => (hnext t us h).1
    obtain ⟨t, us, rfl, ht⟩ := BodyItem.SpellsBlock.starts hspell
    exact bodyItemOf_word hs.after ht (hread.map fun _ => congrArg BodyItem.block)
  | region tag items =>
    have hread := generateRegionOf_complete hn hs hspell hcan hfaithful
    obtain ⟨o, us, e, rfl, ho, -⟩ := hspell
    exact bodyItemOf_word hs.after ho hread
  | generateIf tag condition thenBlock elseBlock =>
    have hread := generateIfOf_complete hn hs hspell hcan hfaithful hnext
    obtain ⟨k, us, vs, ws, rfl, hk, -⟩ := hspell
    exact bodyItemOf_word hs.after hk hread
  | generateFor tag header body =>
    have hread := generateForOf_complete hn hs hspell hcan hfaithful hnext
    obtain ⟨k, us, vs, rfl, hk, -⟩ := hspell
    exact bodyItemOf_word hs.after hk hread
  | generateCase tag selector items default =>
    have hread := generateCaseOf_complete hn hs hspell hcan hfaithful
    obtain ⟨k, us, vs, ws, e, rfl, hk, -⟩ := hspell
    exact bodyItemOf_word hs.after hk hread
  | directive d =>
    have hread := directive_complete hs hspell hcan
    obtain ⟨t, us, rfl, ht, -⟩ := hspell
    exact bodyItemOf_directive hs.after ht (hread.map fun _ => congrArg BodyItem.directive)
  | empty tag =>
    have hread := emptyItem_complete hs hspell
    obtain ⟨m, rfl, hm⟩ := hspell
    exact bodyItemOf_semicolon hs.after hm hread

end Dispatch

/-- Every budget of nestings suffices for the spans that are shorter. -/
theorem complete_bodyItemWithin (n : Nat) : CompleteItems (bodyItemWithin n) n := by
  induction n with
  | zero => exact fun _ _ _ _ h => absurd h (Nat.not_lt_zero _)
  | succ n ih =>
    intro c c' ts i hlen hs hspell hcan hfaithful hnext
    exact bodyItemOf_complete (ih.mono (Nat.le_of_lt_succ hlen)) hs hspell hcan hfaithful hnext

/-- With the budget that a cursor allows every canonical item is read. -/
theorem bodyItem_complete {i : BodyItem Unit} (hs : c.Steps ts c') (hspell : i.Spells ts)
    (hcan : i.Canonical) (hfaithful : ∀ t ∈ ts, t.Faithful) (hnext : FollowsItem c'.after) :
    Records bodyItem (BodyItem.map fun _ => ()) c i c' := by
  obtain ⟨a, hread, hmap⟩ :=
    complete_bodyItemWithin (budget c) (Nat.lt_succ_self _) hs hspell hcan hfaithful hnext
  exact ⟨a, Reader.bind (Reader.get c) hread, hmap⟩

end Items

end SystemVerilog
