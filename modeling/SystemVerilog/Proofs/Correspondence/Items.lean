import SystemVerilog.Proofs.Correspondence.Statements
import SystemVerilog.Proofs.Reading.Modules

/-!
# Items of corresponding tokens

Directives, the items of module bodies and module headers are read alike from corresponding tokens, up to
the sites. Behind the joint of two texts the cursors are only abreast, since they have not come from the
same; but a module and a directive both start by reading a token, and behind it the cursors are alike.
-/

namespace SystemVerilog

open SystemVerilog.Parser

namespace Correspondence

variable {τ : Type} {k : Correspondence τ} {c d c' : Cursor}

/-! ### Conditional regions -/

theorem lexemewise_distanceToRegionEnd? (inner : Nat) : Lexemewise (distanceToRegionEnd? inner) := by
  intro ts us h
  induction ts generalizing inner us with
  | nil => rw [lexemes_nil h]
  | cons t ts ih =>
    obtain ⟨u, us, rfl, hlexeme, hrest⟩ := lexemes_cons h
    have hkind : t.kind = u.kind := congrArg Lexeme.kind hlexeme
    have htext : t.text = u.text := congrArg Lexeme.text hlexeme
    have hopens : opensRegion t = opensRegion u := by rw [opensRegion, opensRegion, hkind, htext]
    have hcloses : closesRegion t = closesRegion u := by rw [closesRegion, closesRegion, hkind, htext]
    have hmore (inner : Nat) := ih inner us hrest
    simp only [distanceToRegionEnd?, hopens, hcloses, hmore]

/-- What fresh cursors span has corresponding sites. -/
theorem Ahead.siteOf_eq {part part' : Cursor} (h : k.Ahead part part') :
    k.left (siteOf part) = k.right (siteOf part') := by
  have hstart {part : Cursor} (hbefore : part.before = []) : part.start = part.position := by
    rw [Cursor.position, hbefore]
    rfl
  rw [siteOf, siteOf, Cursor.bounds, Cursor.bounds, hstart h.unread.1, hstart h.unread.2, Cursor.finish,
    Cursor.finish, ← h.length_eq]
  exact k.site h.location h.index (k.add _ h.index)

namespace Agrees

theorem notice (n n' : Notice) : k.Agrees (SystemVerilog.notice n) (SystemVerilog.notice n') Eq :=
  fun c d hcd => .read (yields_notice n c) (yields_notice n' d) rfl (.refl hcd)

theorem conditionalRegion (negated : Bool) {here here' : Location} (h : k.place here here') :
    k.Agrees (SystemVerilog.conditionalRegion negated here) (SystemVerilog.conditionalRegion negated here')
      (k.Same DirectiveKind.map) :=
  step (lift name) fun macroName =>
    bind (lift (spanBefore? (lexemewise_distanceToRegionEnd? 0))) fun part part' hpart => by
      cases hpart with
      | none => exact lift (fail h)
      | some hpart =>
        exact bind (notice _ _) fun _ _ _ => pure (by simp [Same, DirectiveKind.map, hpart.siteOf_eq])

/-! ### Directives -/

theorem stringArgument (expected : String) :
    k.Agrees (Parser.stringArgument expected) (Parser.stringArgument expected) Eq :=
  bind (expectAs _ _) fun _ _ htoken => pure (by rw [text_eq htoken])

theorem timeValue : k.Agrees Parser.timeValue Parser.timeValue Eq :=
  bind (expectAs _ _) fun token token' htoken => by
    rw [← text_eq htoken]
    split
    · exact fail (k.location ‹_›)
    · exact step (demandBy _ _) fun _ => pure rfl

theorem directiveArguments {t u : Token} (h : k.token t u) :
    k.Agrees (SystemVerilog.directiveArguments t) (SystemVerilog.directiveArguments u)
      (k.Same DirectiveKind.map) := by
  unfold SystemVerilog.directiveArguments
  rw [text_eq h]
  dsimp only
  split
  · exact pure rfl
  · exact pure rfl
  · exact pure rfl
  · exact step (lift (stringArgument _)) fun _ => pure rfl
  · exact step (lift (stringArgument _)) fun _ => pure rfl
  · exact pure rfl
  · exact pure rfl
  · exact step (lift (stringArgument _)) fun _ => pure rfl
  · exact step (lift timeValue) fun _ => bind (lift (expectAs _ _)) fun _ _ _ =>
      step (lift timeValue) fun _ => pure rfl
  · exact bind (lift (demandWith _ _)) fun _ _ htoken => pure (by rw [text_eq htoken]; rfl)
  · exact step (lift (demandBy _ _)) fun _ => pure rfl
  · exact pure rfl
  · exact conditionalRegion _ (k.location h)
  · exact conditionalRegion _ (k.location h)
  all_goals exact lift (fail (k.location h))

theorem directive : k.Agrees SystemVerilog.directive SystemVerilog.directive (k.Same Directive.map) :=
  tagged <| bind (lift (expect _)) fun _ _ htoken => bind (directiveArguments htoken) fun _ _ hkind =>
    pure fun _ _ hs => by simp [Same, Directive.map, hs, hkind.eq]

/-! ### Items without items inside -/

theorem assigns?_eq {e e' : Expr Site} (h : k.Same Expr.map e e') : e.assigns? = e'.assigns? := by
  rw [← Expr.assigns?_map k.left e, h.eq, Expr.assigns?_map]

theorem continuousAssignment :
    k.Agrees Parser.continuousAssignment Parser.continuousAssignment (k.Same Expr.map) :=
  bind statementExpression fun e e' he => by
    rw [assigns?_eq he]
    split
    · exact pure he
    · exact fail (k.located (tag_eq he))

theorem optionalDelay :
    k.Agrees Parser.optionalDelay Parser.optionalDelay (Option.Rel (k.Same Delay.map)) :=
  step (check _) fun found => by
    cases found with
    | true => exact bind delay fun _ _ hdelay => pure (.some hdelay)
    | false => exact pure .none

theorem continuousAssign :
    k.Agrees Parser.continuousAssign Parser.continuousAssign (k.Same ContinuousAssign.map) :=
  tagged <| beforeSemicolon <| bind (expect _) fun _ _ _ => bind optionalDelay fun _ _ hdelay =>
    bind (listBy comma continuousAssignment) fun _ _ hassignments => pure fun _ _ hs => by
      simp [Same, ContinuousAssign.map, hs, option_map_eq hdelay, map_eq hassignments]

theorem optionalSensitivity : k.Agrees Parser.optionalSensitivity Parser.optionalSensitivity
    (Option.Rel (k.Same Sensitivity.map)) :=
  step (check _) fun found => by
    cases found with
    | true => exact bind sensitivity fun _ _ hsensitivity => pure (.some hsensitivity)
    | false => exact pure .none

theorem alwaysBlock (kind : AlwaysKind) :
    k.Agrees (Parser.alwaysBlock kind) (Parser.alwaysBlock kind) (k.Same AlwaysBlock.map) :=
  tagged <| bind consume fun _ _ _ => bind optionalSensitivity fun _ _ hsensitivity =>
    bind statement fun _ _ hbody => pure fun _ _ hs => by
      simp [Same, AlwaysBlock.map, hs, option_map_eq hsensitivity, hbody.eq]

theorem initialBlock :
    k.Agrees Parser.initialBlock Parser.initialBlock (k.Same InitialBlock.map) :=
  tagged <| bind (expect _) fun _ _ _ => bind statement fun _ _ hbody =>
    pure fun _ _ hs => by simp [Same, InitialBlock.map, hs, hbody.eq]

theorem emptyItem : k.Agrees Parser.emptyItem Parser.emptyItem (k.Same BodyItem.map) :=
  tagged <| bind advance? fun _ _ _ => pure fun _ _ hs => by simp [Same, BodyItem.map, hs]

theorem startsInstantiation :
    k.Agrees Parser.startsInstantiation Parser.startsInstantiation Eq :=
  of_look fun _ _ hcd => by rw [hcd.check_eq, hcd.peekKind?_eq]

/-! ### Generate constructs -/

section Nested

variable {item : NestedItem}

theorem generateBlockOf (h : k.Agrees item item (k.Same BodyItem.map)) :
    k.Agrees (SystemVerilog.generateBlockOf item) (SystemVerilog.generateBlockOf item)
      (k.Same BodyItem.mapBlock) :=
  tagged <| step (lift (check _)) fun found => by
    cases found with
    | true =>
      refine bind (R := fun r r' => r.1 = r'.1 ∧ List.Forall₂ (k.Same BodyItem.map) r.2 r'.2)
        (enclosed <| step (lift blockLabel) fun _ => bind (untilEnd h) fun _ _ his => pure ⟨rfl, his⟩) ?_
      rintro ⟨label, is⟩ ⟨_, is'⟩ ⟨rfl, his⟩
      exact step (lift (endLabel label)) fun _ => pure fun _ _ hs => by
        simp [Same, BodyItem.mapBlock, hs, BodyItem.mapAll_eq_map, map_eq his]
    | false =>
      exact bind h fun _ _ hi => pure fun _ _ hs => by
        simp [Same, BodyItem.mapBlock, BodyItem.mapAll, hs, hi.eq]

theorem generateRegionOf (h : k.Agrees item item (k.Same BodyItem.map)) :
    k.Agrees (SystemVerilog.generateRegionOf item) (SystemVerilog.generateRegionOf item)
      (k.Same BodyItem.map) :=
  tagged <| enclosed <| bind (untilEnd h) fun _ _ his => pure fun _ _ hs => by
    simp [Same, BodyItem.map, hs, BodyItem.mapAll_eq_map, map_eq his]

theorem generateIfOf (h : k.Agrees item item (k.Same BodyItem.map)) :
    k.Agrees (SystemVerilog.generateIfOf item) (SystemVerilog.generateIfOf item) (k.Same BodyItem.map) :=
  tagged <| bind (lift consume) fun _ _ _ => bind (lift condition) fun _ _ hcondition =>
    bind (generateBlockOf h) fun _ _ hthen => step (lift (eat _)) fun found => by
      cases found with
      | true =>
        exact bind (generateBlockOf h) fun _ _ helse => pure fun _ _ hs => by
          simp [Same, BodyItem.map, BodyItem.mapOption, hs, hcondition.eq, hthen.eq, helse.eq]
      | false =>
        exact pure fun _ _ hs => by simp [Same, BodyItem.map, BodyItem.mapOption, hs, hcondition.eq, hthen.eq]

theorem generateForOf (h : k.Agrees item item (k.Same BodyItem.map)) :
    k.Agrees (SystemVerilog.generateForOf item) (SystemVerilog.generateForOf item) (k.Same BodyItem.map) :=
  tagged <| bind (lift consume) fun _ _ _ => bind (lift loopHeader) fun _ _ hheader =>
    bind (generateBlockOf h) fun _ _ hbody =>
      pure fun _ _ hs => by simp [Same, BodyItem.map, hs, hheader.eq, hbody.eq]

theorem generateCaseOf (h : k.Agrees item item (k.Same BodyItem.map)) :
    k.Agrees (SystemVerilog.generateCaseOf item) (SystemVerilog.generateCaseOf item)
      (k.Same BodyItem.map) := by
  refine tagged <| enclosed <| bind (lift condition) fun selector selector' hselector =>
    bind (caseItems (generateBlockOf h)) ?_
  rintro ⟨items, fallback⟩ ⟨items', fallback'⟩ ⟨hitems, hfallback⟩
  exact pure fun _ _ hs => by
    simp [Same, BodyItem.map, hs, hselector.eq, BodyItem.mapItems_eq_map, BodyItem.mapOption_eq_map,
      map_eq hitems, option_map_eq hfallback]

/-! ### Any item -/

/-- A token that starts no item is refused in both sources. -/
theorem unimplemented {α β : Type} {Q : α → β → Prop} {t u : Token} (h : k.token t u) :
    k.Agrees (Parser.fail (.unimplemented t.toLexeme) t.location : Parser α)
      (Parser.fail (.unimplemented u.toLexeme) u.location : Parser β) Q := by
  rw [k.lexeme h]
  exact fail (k.location h)

theorem wordItemOf (h : k.Agrees item item (k.Same BodyItem.map)) (word : Keyword) {t u : Token}
    (htoken : k.token t u) : k.Agrees (SystemVerilog.wordItemOf item word t) (SystemVerilog.wordItemOf item word u)
      (k.Same BodyItem.map) := by
  unfold SystemVerilog.wordItemOf
  split
  · exact bind (lift (alwaysBlock _)) fun _ _ ha => pure (by simp [Same, BodyItem.map, ha.eq])
  · split
    · exact bind (lift portDeclaration) fun _ _ hg => pure (by simp [Same, BodyItem.map, hg.eq])
    · split
      · exact bind (lift signalDeclaration) fun _ _ hg => pure (by simp [Same, BodyItem.map, hg.eq])
      · split
        · exact bind (lift parameterDeclaration) fun _ _ hg => pure (by simp [Same, BodyItem.map, hg.eq])
        · exact bind (lift parameterDeclaration) fun _ _ hg => pure (by simp [Same, BodyItem.map, hg.eq])
        · exact bind (lift genvarDeclaration) fun _ _ hg => pure (by simp [Same, BodyItem.map, hg.eq])
        · exact bind (lift continuousAssign) fun _ _ hg => pure (by simp [Same, BodyItem.map, hg.eq])
        · exact bind (lift initialBlock) fun _ _ hi => pure (by simp [Same, BodyItem.map, hi.eq])
        · exact bind (generateBlockOf h) fun _ _ hb => pure (by simp [Same, BodyItem.map, hb.eq])
        · exact generateRegionOf h
        · exact generateIfOf h
        · exact generateForOf h
        · exact generateCaseOf h
        · exact lift (unimplemented htoken)

theorem bodyItemOf (h : k.Agrees item item (k.Same BodyItem.map)) :
    k.Agrees (SystemVerilog.bodyItemOf item) (SystemVerilog.bodyItemOf item) (k.Same BodyItem.map) :=
  bind (lift current?) fun token token' htoken => by
    cases htoken with
    | none => exact lift unexpectedEnd
    | @some token token' htoken =>
      refine step (lift startsInstantiation) fun starts => ?_
      rw [← kind_eq htoken]
      split
      · exact bind (lift instantiation) fun _ _ hi => pure (by simp [Same, BodyItem.map, hi.eq])
      · split
        · exact wordItemOf h _ htoken
        · exact bind directive fun _ _ hd => pure (by simp [Same, BodyItem.map, hd.eq])
        · exact lift emptyItem
        · exact lift (unimplemented htoken)

end Nested

theorem bodyItemWithin (n : Nat) : k.Agrees (SystemVerilog.bodyItemWithin n) (SystemVerilog.bodyItemWithin n)
    (k.Same BodyItem.map) := by
  induction n with
  | zero => exact lift bottomless
  | succ n ih => exact bodyItemOf ih

theorem bodyItem : k.Agrees SystemVerilog.bodyItem SystemVerilog.bodyItem (k.Same BodyItem.map) :=
  bind get fun c d hcd => by
    rw [budget, budget, hcd.length_eq]
    exact bodyItemWithin _

/-! ### Modules -/

theorem moduleBody (depth : Depth) : k.Agrees (SystemVerilog.moduleBody depth)
    (SystemVerilog.moduleBody depth) (List.Forall₂ (k.Same BodyItem.map)) := by
  cases depth with
  | headers => exact pure .nil
  | bodies => exact untilEnd bodyItem

theorem moduleParameters : k.Agrees Parser.moduleParameters Parser.moduleParameters
    (List.Forall₂ (k.Same ParameterGroup.map)) :=
  step (eat _) fun found => by
    cases found with
    | true => exact enclosed headerParameters
    | false => exact pure .nil

theorem modulePorts : k.Agrees Parser.modulePorts Parser.modulePorts (k.Same PortList.map) :=
  step (check _) fun found => by
    cases found with
    | true => exact enclosed portList
    | false => exact pure rfl

end Agrees

/-- The same headers up to corresponding sites. -/
structure SameHeader (k : Correspondence τ) (a b : ModuleHeader) : Prop where
  name : a.name = b.name
  params : List.Forall₂ (k.Same ParameterGroup.map) a.params b.params
  ports : k.Same PortList.map a.ports b.ports

namespace Agrees

/-- Behind its word a module header does not depend on the token of the word. -/
theorem behindModule : ∃ rest : Parser ModuleHeader,
    Parser.moduleHeader = (Parser.expect (.word .kwModule) >>= fun _ => rest) ∧
      ∀ {τ : Type} (k : Correspondence τ), k.Agrees rest rest k.SameHeader :=
  ⟨_, rfl, fun _ => step name fun _ => bind moduleParameters fun _ _ hparams =>
    bind modulePorts fun _ _ hports => bind (expectAs _ _) fun _ _ _ => pure ⟨rfl, hparams, hports⟩⟩

theorem moduleHeader : k.Agrees Parser.moduleHeader Parser.moduleHeader k.SameHeader := by
  obtain ⟨rest, hheader, hrest⟩ := behindModule
  rw [hheader]
  exact bind (expect _) fun _ _ _ => hrest k

theorem moduleItem (depth : Depth) : k.Agrees (SystemVerilog.moduleItem depth) (SystemVerilog.moduleItem depth)
    (k.Same Module.map) := by
  refine tagged <| bind (lift spanToCloser) fun part part' hpart =>
    bind (R := fun r r' => k.SameHeader r.1 r'.1 ∧ List.Forall₂ (k.Same BodyItem.map) r.2 r'.2)
      (within hpart <| bind (lift moduleHeader) fun _ _ hheader => bind (moduleBody depth) fun _ _ hbody =>
        pure ⟨hheader, hbody⟩) ?_
  rintro ⟨header, body⟩ ⟨header', body'⟩ ⟨hheader, hbody⟩
  dsimp only at hheader hbody ⊢
  rw [← hheader.name]
  exact step (lift (endLabel _)) fun _ => step (notice _ _) fun _ => pure fun _ _ hs => by
    simp [Same, Module.map, hs, map_eq hheader.params, hheader.ports.eq, map_eq hbody]

theorem item (depth : Depth) :
    k.Agrees (SystemVerilog.item depth) (SystemVerilog.item depth) (k.Same Item.map) :=
  bind (lift current?) fun token token' htoken => by
    cases htoken with
    | none => exact lift unexpectedEnd
    | @some token token' htoken =>
      dsimp only
      rw [← kind_eq htoken]
      split
      · exact bind (moduleItem depth) fun _ _ hm => pure (by simp [Same, Item.map, hm.eq])
      · exact bind directive fun _ _ hd => pure (by simp [Same, Item.map, hd.eq])
      · exact lift (unimplemented htoken)

theorem items (depth : Depth) : k.Agrees (SystemVerilog.items depth) (SystemVerilog.items depth)
    (List.Forall₂ (k.Same Item.map)) := untilEnd (item depth)

end Agrees

/-! ### What starts with a token -/

/-- From cursors that are abreast, what starts by reading a token goes on with alike cursors. -/
theorem Abreast.bind_expect {α β : Type} {f : Token → Parser α} {g : Token → Parser β} {Q : α → β → Prop}
    {kind : TokenKind} {a : α} (h : k.Abreast c d) (hf : ∀ t u, k.token t u → k.Agrees (f t) (g u) Q)
    (hread : (Parser.expect kind >>= f) c = .ok (a, c')) :
    ∃ b d', (Parser.expect kind >>= g) d = .ok (b, d') ∧ Q a b ∧ k.Alike c' d' := by
  obtain ⟨t, c₁, ht, hreadf⟩ := bind_eq_ok.1 hread
  obtain ⟨ts, hc, hkind, rfl⟩ := expect_eq_ok.1 ht
  rcases h.cases with ⟨hnil, -⟩ | ⟨t', ts', u, us, hc', hd, htoken⟩
  · rw [hnil] at hc
    cases hc
  · obtain ⟨rfl, rfl⟩ := List.cons.inj (hc.symm.trans hc')
    have hskip : k.Onward c d (c.skip 1) (d.skip 1) := h.skip (List.ne_nil_iff_exists_cons.2 ⟨_, _, hc⟩) 0
    obtain ⟨b, d', hyields, hab, hcd'⟩ := (hf t u htoken hskip.toAlike).gives hreadf
    exact ⟨b, d', bind_eq_ok.2 ⟨u, d.skip 1, expect_eq_ok.2 ⟨us, hd, by rw [← kind_eq htoken, hkind], rfl⟩, hyields⟩,
      hab, hcd'.toAlike⟩

theorem Abreast.moduleHeader {header : ModuleHeader} (h : k.Abreast c d)
    (hread : Parser.moduleHeader c = .ok (header, c')) :
    ∃ header' d', Parser.moduleHeader d = .ok (header', d') ∧ k.SameHeader header header' ∧ k.Alike c' d' := by
  obtain ⟨rest, hheader, hrest⟩ := Agrees.behindModule
  rw [hheader] at hread ⊢
  exact h.bind_expect (fun _ _ _ => hrest k) hread

theorem Abreast.moduleItem {depth : Depth} {m : Module Site} (h : k.Abreast c d)
    (hread : Reader.Gives (SystemVerilog.moduleItem depth) c m c') :
    ∃ m' d', Reader.Yields (SystemVerilog.moduleItem depth) d m' d' ∧ k.Same Module.map m m' ∧ k.Alike c' d' := by
  obtain ⟨n, header, c₁, body, c₂, hn, hheader, hbody, hlabel, rfl⟩ := moduleItem_inv hread
  obtain ⟨-, hne, -⟩ := closerDistance_inv hn
  obtain ⟨header', d₁, hheader', hsame, hcd₁⟩ := (h.ahead n).moduleHeader hheader
  obtain ⟨body', d₂, hbody', hsame', -⟩ := (Agrees.moduleBody depth hcd₁).gives hbody
  obtain ⟨_, d', hlabel', rfl, hcd'⟩ := (Agrees.endLabel (some header.name) (h.skip hne n).toAlike).gives hlabel
  rw [hsame.name] at hlabel'
  refine ⟨_, d', yields_moduleItem (Abreast.closerDistance h hn) hheader' hbody' hlabel', ?_, hcd'.toAlike⟩
  have htag := k.site (h.location hne) h.index hcd'.index
  simp [Same, Module.map, Cursor.rangeFrom, htag, hsame.name, map_eq hsame.params, hsame.ports.eq, map_eq hsame']

theorem Abreast.directive {x : Directive Site} (h : k.Abreast c d)
    (hread : Reader.Gives SystemVerilog.directive c x c') :
    ∃ x' d', Reader.Yields SystemVerilog.directive d x' d' ∧ k.Same Directive.map x x' ∧ k.Alike c' d' := by
  obtain ⟨t, rest, kind, hc, hkind, harguments, rfl⟩ := directive_inv hread
  rcases h.cases with ⟨hnil, -⟩ | ⟨t', ts', u, us, hc', hd, htoken⟩
  · rw [hnil] at hc
    cases hc
  · obtain ⟨rfl, rfl⟩ := List.cons.inj (hc.symm.trans hc')
    have hne : c.after ≠ [] := List.ne_nil_iff_exists_cons.2 ⟨_, _, hc⟩
    obtain ⟨kind', d', harguments', hsame, hcd'⟩ :=
      (Agrees.directiveArguments htoken (h.skip hne 0).toAlike).gives harguments
    refine ⟨_, d', yields_directive hd (by rw [← kind_eq htoken, hkind]) harguments', ?_, hcd'.toAlike⟩
    have htag := k.site (h.location hne) h.index hcd'.index
    simp [Same, Directive.map, Cursor.rangeFrom, htag, hsame.eq]

/-- Items are read alike from cursors that are abreast. -/
theorem Abreast.item {depth : Depth} {i : Item Site} (h : k.Abreast c d)
    (hread : Reader.Gives (SystemVerilog.item depth) c i c') :
    ∃ i' d', Reader.Yields (SystemVerilog.item depth) d i' d' ∧ k.Same Item.map i i' ∧ k.Alike c' d' := by
  rcases item_inv hread with ⟨hcheck, m, hm, rfl⟩ | ⟨hcheck, x, hx, rfl⟩
  · obtain ⟨m', d', hm', hsame, hcd'⟩ := h.moduleItem hm
    rw [h.check_eq] at hcheck
    exact ⟨.design m', d', yields_item_design hcheck hm', by simp [Same, Item.map, hsame.eq], hcd'⟩
  · obtain ⟨x', d', hx', hsame, hcd'⟩ := h.directive hx
    rw [h.check_eq] at hcheck
    exact ⟨.directive x', d', yields_item_directive hcheck hx', by simp [Same, Item.map, hsame.eq], hcd'⟩

/-- So are chains of items. -/
theorem Abreast.items {depth : Depth} {is : List (Item Site)} (h : k.Abreast c d)
    (hchain : Chain (Reader.Gives (SystemVerilog.item depth)) c is c') :
    ∃ is' d', Chain (Reader.Yields (SystemVerilog.item depth)) d is' d' ∧
      List.Forall₂ (k.Same Item.map) is is' := by
  induction hchain generalizing d with
  | done hend =>
    refine ⟨[], d, .done ?_, .nil⟩
    rcases h.cases with ⟨-, hd⟩ | ⟨t, ts, u, us, hc, -⟩
    · exact hd
    · rw [hend] at hc
      cases hc
  | next hne hi _ ih =>
    obtain ⟨i', d₁, hi', hsame, hcd₁⟩ := h.item hi
    obtain ⟨is', d', hchain', hsames⟩ := ih hcd₁.toAbreast
    refine ⟨i' :: is', d', .next ?_ hi' hchain', .cons hsame hsames⟩
    rcases h.cases with ⟨hc, -⟩ | ⟨t, ts, u, us, -, hd, -⟩
    · exact absurd hc hne
    · rw [hd]
      exact List.cons_ne_nil _ _

end Correspondence

end SystemVerilog
