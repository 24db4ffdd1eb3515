import SystemVerilog.Proofs.Layout.Writing
import SystemVerilog.Proofs.Ranges.Texts
import SystemVerilog.Proofs.Roots.Declarations

/-!
# The expressions of statements, items and sources are read as expressions
-/

namespace SystemVerilog

open SystemVerilog.Parser

variable {ts : List Token} {c : Cursor}

namespace Opens

/-! ### Labels -/

theorem blockLabel : Settles ts c Parser.blockLabel :=
  silent (eat rfl) fun _ _ => by
    split
    · exact silent name fun _ _ => .pure trivial
    · exact .pure trivial

theorem endLabel (opening : Option String) : Settles ts c (Parser.endLabel opening) :=
  silent (eat? rfl) fun _ _ => by
    split
    · exact .pure trivial
    · refine silent expectName fun _ _ => ?_
      split
      · exact fail
      · split
        · exact .pure trivial
        · exact fail

/-! ### Conditions, loop headers and event controls -/

theorem condition : Opens ts c Parser.condition (Expr.ReadFrom ts) := enclosed rfl rfl fun _ => filling expression

theorem loopInit : Opens ts c Parser.loopInit fun init => Rooted ts init.expressions :=
  .tagged <| silent (eat rfl) fun _ _ => bind dataType fun _ _ htype => bind (filling statementExpression) fun _ _ he =>
    .pure fun _ => htype.append (.one he)

theorem optionally {α : Type} {p : Parser α} {P : α → Prop} {part : Cursor} (hpart : part.Ready ts)
    (hp : Opens ts part p P) : Opens ts c (Parser.optionally part p) fun o => ∀ a ∈ o, P a := by
  unfold Parser.optionally
  split
  · exact .pure nofun
  · exact bind (within hpart hp) fun _ _ ha => .pure fun _ hmem => Option.some.inj hmem ▸ ha

theorem loopStep : Opens ts c Parser.loopStep fun step => Rooted ts step.toList :=
  look rfl <| by
    split
    · exact .pure .nil
    · exact bind (filling statementExpression) fun _ _ he => .pure (.one he)

theorem loopClause : Opens ts c Parser.loopClause fun part => part.Ready ts :=
  spanBefore fun _ _ h => plain_of_found (distanceAtDepth?_found h) rfl

theorem loopHeader : Opens ts c Parser.loopHeader fun header => Rooted ts header.expressions := by
  rw [loopHeader_eq]
  exact .tagged <| enclosed rfl rfl fun _ => bind loopClause fun _ _ hfirst => bind loopClause fun _ _ hsecond =>
    bind (optionally hfirst loopInit) fun _ _ hinit =>
      bind (optionally hsecond (filling expression)) fun _ _ hcondition => bind loopStep fun _ _ hstep => .pure fun _ =>
        .append (.flatMap fun init h => hinit init (Option.mem_toList.1 h)) <|
          .append (fun e h => hcondition e (Option.mem_toList.1 h)) hstep

theorem event : Opens ts c Parser.event fun event => Rooted ts event.expressions :=
  .tagged <| silent (tryBy fun _ _ => TokenKind.isQualifier_of_edge) fun _ _ => bind expression fun _ _ he =>
    .pure fun _ => .one he

theorem eventSeparator : Settles ts c Parser.eventSeparator :=
  silent (eat rfl) fun _ _ => by
    split
    · exact .pure trivial
    · exact comma

theorem sensitivity : Opens ts c Parser.sensitivity fun s => Rooted ts s.expressions :=
  .tagged <| silent (expect rfl) fun _ _ => silent (eat rfl) fun _ _ => by
    split
    · exact .pure fun _ => .nil
    · refine look rfl ?_
      split
      · refine enclosed rfl rfl fun _ => look rfl ?_
        split
        · exact .pure fun _ => .nil
        · exact bind (listBy (fun _ => eventSeparator) fun _ => event) fun _ _ hevents =>
            .pure fun _ => .flatMap hevents
      · refine bind (P := fun event => Rooted ts event.expressions) ?_ fun only _ honly => .pure fun _ => ?_
        · exact .tagged <| bind operand fun _ _ he => .pure fun _ => .one he
        · exact .flatMap (List.forall_mem_singleton.2 honly)

/-! ### Case items -/

theorem caseLabels : Opens ts c Parser.caseLabels (Rooted ts) :=
  look rfl <| bind (spanBefore fun _ _ h => plain_of_found (distanceAtTop?_found h) rfl) fun _ _ hpart =>
    bind (within hpart expressionList) fun labels _ hlabels => by
      cases labels with
      | nil => exact fail
      | cons _ _ => exact .pure hlabels

theorem defaultLabel (seen : Bool) : Settles ts c (Parser.defaultLabel seen) :=
  look rfl <| silent (eat rfl) fun _ _ => by
    split
    · refine silent (eat rfl) fun _ _ => ?_
      split
      · exact fail
      · exact .pure trivial
    · exact .pure trivial

section Generic

variable {m : Type → Type} [Monad m] [MonadStateOf Cursor m] [MonadLiftT Parser m] [Reader m]
  {α : Type} {p : m α} {P : α → Prop}

/-- The labelled items and the default that are read, with the default that was read before. -/
structure CasesOpen (ts : List Token) (P : α → Prop) (items : List (CaseItem Site α)) (fallback : Option α) :
    Prop where
  items : ∀ i ∈ items, Rooted ts i.labels ∧ P i.body
  fallback : ∀ a ∈ fallback, P a

theorem caseItemsUpTo (hp : ∀ c₁, Opens ts c₁ p P) (n : Nat) {fallback : Option α} (hfallback : ∀ a ∈ fallback, P a) :
    Opens ts c (SystemVerilog.caseItemsUpTo p n fallback) fun found => CasesOpen ts P found.1 found.2 := by
  induction n generalizing c fallback with
  | zero =>
    refine lookLifted rfl ?_
    split
    · exact .pure ⟨List.forall_mem_nil _, hfallback⟩
    · exact lift (of_error fun _ _ => bottomless_ne_ok)
  | succ n ih =>
    refine lookLifted rfl ?_
    split
    · exact .pure ⟨List.forall_mem_nil _, hfallback⟩
    · refine silent (lift (defaultLabel _)) fun isDefault _ => ?_
      split
      · refine bind (hp _) fun only _ honly => ih ?_
        rintro _ ⟨⟩
        exact honly
      · refine bind (P := fun i => Rooted ts i.labels ∧ P i.body) ?_ fun item _ hitem => ?_
        · exact .tagged <| bind (lift caseLabels) fun _ _ hlabels => bind (hp _) fun _ _ hbody => .pure fun _ =>
            ⟨hlabels, hbody⟩
        · exact bind (ih hfallback) fun found _ hfound =>
            .pure ⟨List.forall_mem_cons.2 ⟨hitem, hfound.items⟩, hfound.fallback⟩

theorem caseItems (hp : ∀ c₁, Opens ts c₁ p P) :
    Opens ts c (SystemVerilog.caseItems p) fun found => CasesOpen ts P found.1 found.2 :=
  get (caseItemsUpTo hp _ fun _ h => by cases h)

theorem CasesOpen.rooted {out : α → List (Expr Site)} {items : List (CaseItem Site α)} {fallback : Option α}
    (h : CasesOpen ts (fun a => Rooted ts (out a)) items fallback) :
    Rooted ts (items.flatMap fun i => i.labels ++ out i.body) ∧ Rooted ts (fallback.toList.flatMap out) := by
  refine ⟨.flatMap fun i hi => ?_, .flatMap fun a ha => h.fallback a (Option.mem_toList.1 ha)⟩
  obtain ⟨hlabels, hbody⟩ := h.items i hi
  exact hlabels.append hbody

end Generic

/-! ### Statements -/

section Nested

variable {statement : Parser (Statement Site)}

theorem emptyStatement (hsemicolon : c.currentKind? = some (.op .semicolon)) :
    Opens ts c Parser.emptyStatement fun s => Rooted ts s.expressions := by
  obtain ⟨t, rest, hafter, hkind⟩ := Cursor.after_of_kind hsemicolon
  exact .tagged <| silent (advance? hafter (by rw [hkind]; rfl)) fun _ _ => .pure fun _ => .nil

theorem expressionStatement : Opens ts c Parser.expressionStatement fun s => Rooted ts s.expressions :=
  .tagged <| beforeSemicolon fun _ => bind (filling statementExpression) fun _ _ he => .pure fun _ => .one he

variable (hs : ∀ c₁, Opens ts c₁ statement fun s => Rooted ts s.expressions)

include hs

theorem blockOf : Opens ts c (Parser.blockOf statement) fun s => Rooted ts s.expressions := by
  refine .tagged <| bind (P := fun r => Rooted ts (r.2.flatMap Statement.expressions)) ?_ fun r _ hr =>
    silent (endLabel _) fun _ _ => .pure fun _ => ?_
  · exact enclosed rfl rfl fun _ => silent blockLabel fun _ _ => bind (untilEnd hs) fun _ _ hstatements =>
      .pure (.flatMap hstatements)
  · rw [Statement.expressions, Statement.expressionsAll_eq]
    exact hr

theorem ifElseOf : Opens ts c (Parser.ifElseOf statement) fun s => Rooted ts s.expressions :=
  .tagged <| silent (expect rfl) fun _ _ => bind condition fun _ _ hcondition => bind (hs _) fun _ _ hthen =>
    silent (eat rfl) fun _ _ => by
      split
      · exact bind (hs _) fun _ _ helse => .pure fun _ => .cons hcondition (.append hthen helse)
      · exact .pure fun _ => .cons hcondition (.append hthen .nil)

theorem caseOf (kind : CaseKind) : Opens ts c (Parser.caseOf statement kind) fun s => Rooted ts s.expressions := by
  refine .tagged <| enclosed rfl rfl fun _ => bind condition fun _ _ hselector => bind (caseItems hs) fun _ _ hfound =>
    .pure fun _ => ?_
  rw [Statement.expressions, Statement.expressionsItems_eq, Statement.expressionsOption_eq]
  exact .cons hselector (.append hfound.rooted.1 hfound.rooted.2)

theorem loopOf : Opens ts c (Parser.loopOf statement) fun s => Rooted ts s.expressions :=
  .tagged <| silent (expect rfl) fun _ _ => bind loopHeader fun _ _ hheader => bind (hs _) fun _ _ hbody =>
    .pure fun _ => .append hheader hbody

theorem delayedOf : Opens ts c (Parser.delayedOf statement) fun s => Rooted ts s.expressions :=
  .tagged <| bind delay fun _ _ hdelay => bind (hs _) fun _ _ hbody => .pure fun _ => .append hdelay hbody

theorem eventOf : Opens ts c (Parser.eventOf statement) fun s => Rooted ts s.expressions :=
  .tagged <| bind sensitivity fun _ _ hevents => bind (hs _) fun _ _ hbody => .pure fun _ => .append hevents hbody

theorem statementOf : Opens ts c (Parser.statementOf statement) fun s => Rooted ts s.expressions :=
  look rfl <| by
    split
    · exact of_error fun _ _ => unexpectedEnd_ne_ok
    · rename_i hkind
      split
      · exact caseOf hs _
      · split
        · exact blockOf hs
        · exact ifElseOf hs
        · exact loopOf hs
        · exact delayedOf hs
        · exact eventOf hs
        · exact emptyStatement hkind
        · exact expressionStatement

end Nested

theorem statementWithin (budget : Nat) :
    Opens ts c (Parser.statementWithin budget) fun s => Rooted ts s.expressions := by
  induction budget generalizing c with
  | zero => exact of_error fun _ _ => bottomless_ne_ok
  | succ budget ih => exact statementOf fun _ => ih

theorem statement : Opens ts c Parser.statement fun s => Rooted ts s.expressions :=
  fun hc _ _ hread => statementWithin (budget c) hc hread

/-! ### Directives -/

theorem stringArgument (expected : String) : Settles ts c (Parser.stringArgument expected) :=
  silent (expectAs rfl) fun _ _ => .pure trivial

theorem timeValue : Settles ts c Parser.timeValue :=
  silent (expectAs rfl) fun token _ => by
    split
    · exact fail
    · refine silent (demandBy fun _ _ h => ?_) fun _ _ => .pure trivial
      exact TokenKind.isQualifier_of_isName (TokenKind.isName_of_unit h)

theorem notice (n : Notice) : Settles ts c (SystemVerilog.notice n) := by
  rintro hc a c' ⟨ns, ns', hread⟩
  cases hread
  exact ⟨hc, trivial⟩

/-- A region ends with the directive that closes it. -/
theorem conditionalRegion (negated : Bool) (here : Location) :
    Settles ts c (SystemVerilog.conditionalRegion negated here) := by
  refine silent (lift name) fun _ _ => silent (lift (spanBefore? fun us n h => ?_).settles)
    fun part _ => ?_
  · obtain ⟨skipped, u, rest, rfl, rfl, -, hu⟩ := distanceToRegionEnd?_eq_some_iff.1 h
    refine ⟨u, by simp, ?_⟩
    rw [eq_of_beq (Bool.and_eq_true_iff.1 hu).1]
    rfl
  · split
    · exact lift fail
    · exact silent (notice _) fun _ _ => .pure trivial

theorem directiveArguments (token : Token) : Settles ts c (SystemVerilog.directiveArguments token) := by
  unfold SystemVerilog.directiveArguments
  dsimp only
  split
  case h_4 | h_5 | h_8 => exact silent (lift (stringArgument _)) fun _ _ => .pure trivial
  case h_9 =>
    exact silent (lift timeValue) fun _ _ => silent (lift (expectAs rfl)) fun _ _ => silent (lift timeValue) fun _ _ =>
      .pure trivial
  case h_10 => exact silent (lift (demandWith fun _ => TokenKind.isQualifier_of_isWord)) fun _ _ => .pure trivial
  case h_11 => exact silent (lift (demandBy fun _ _ => TokenKind.isQualifier_of_keywordIn)) fun _ _ => .pure trivial
  case h_13 | h_14 => exact conditionalRegion _ _
  case h_15 | h_16 | h_17 | h_18 | h_19 | h_20 | h_21 => exact lift fail
  all_goals exact .pure trivial

theorem directive : Settles ts c SystemVerilog.directive :=
  .tagged <| silent (lift (expect rfl)) fun _ _ => silent (directiveArguments _) fun _ _ => .pure fun _ => trivial

/-! ### Items without items inside -/

theorem continuousAssignment : Opens ts c Parser.continuousAssignment (Expr.ReadFrom ts) :=
  bind statementExpression fun _ _ he => by
    split
    · exact .pure he
    · exact fail

theorem optionalDelay : Opens ts c Parser.optionalDelay fun d => Rooted ts (d.toList.flatMap Delay.expressions) :=
  look rfl <| by
    split
    · refine bind delay fun _ _ hdelay => .pure ?_
      rwa [Option.toList_some, List.flatMap_singleton]
    · exact .pure .nil

theorem continuousAssign : Opens ts c Parser.continuousAssign fun g => Rooted ts g.expressions :=
  .tagged <| beforeSemicolon fun _ => silent (expect rfl) fun _ _ => bind optionalDelay fun _ _ hdelay =>
    bind (listBy (fun _ => comma) fun _ => continuousAssignment) fun _ _ hassignments => .pure fun _ =>
      hdelay.append hassignments

theorem optionalSensitivity :
    Opens ts c Parser.optionalSensitivity fun s => Rooted ts (s.toList.flatMap Sensitivity.expressions) :=
  look rfl <| by
    split
    · refine bind sensitivity fun _ _ hevents => .pure ?_
      rwa [Option.toList_some, List.flatMap_singleton]
    · exact .pure .nil

theorem initialBlock : Opens ts c Parser.initialBlock fun i => Rooted ts i.expressions :=
  .tagged <| silent (expect rfl) fun _ _ => bind statement fun _ _ hbody => .pure fun _ => hbody

theorem emptyItem {P : BodyItem Site → Prop} (hP : ∀ tag, P (.empty tag))
    (hsemicolon : c.currentKind? = some (.op .semicolon)) : Opens ts c Parser.emptyItem P := by
  obtain ⟨t, rest, hafter, hkind⟩ := Cursor.after_of_kind hsemicolon
  exact .tagged <| silent (advance? hafter (by rw [hkind]; rfl)) fun _ _ => .pure hP

/-! ### Items that start with a word -/

section Words

variable {word : Keyword} (hword : c.currentKind? = some (.word word))

include hword

theorem consumeWord : Settles ts c Parser.consume := by
  refine consume fun t rest hafter => ?_
  rw [Cursor.currentKind?_of_after hafter rfl] at hword
  rw [Option.some.inj hword]
  rfl

theorem alwaysBlock (kind : AlwaysKind) : Opens ts c (Parser.alwaysBlock kind) fun a => Rooted ts a.expressions :=
  .tagged <| silent (consumeWord hword) fun _ _ => bind optionalSensitivity fun _ _ hevents =>
    bind statement fun _ _ hbody => .pure fun _ => hevents.append hbody

end Words

/-! ### Generate constructs -/

section Nested

variable {nested : NestedItem} (hi : ∀ c₁, Opens ts c₁ nested fun i => Rooted ts i.expressions) {word : Keyword}

include hi

theorem generateBlockOf :
    Opens ts c (SystemVerilog.generateBlockOf nested) fun b => Rooted ts (BodyItem.expressionsBlock b) := by
  refine .tagged <| lookLifted rfl ?_
  cases c.check (.word .kwBegin) with
  | true =>
    refine bind (P := fun r => Rooted ts (r.2.flatMap BodyItem.expressions)) ?_ fun r _ hr =>
      silent (lift (endLabel _)) fun _ _ => .pure fun _ => ?_
    · exact enclosed rfl rfl fun _ => silent (lift blockLabel) fun _ _ => bind (untilEnd hi) fun _ _ hitems =>
        .pure (.flatMap hitems)
    · rw [BodyItem.expressionsBlock, BodyItem.expressionsAll_eq]
      exact hr
  | false =>
    refine bind (hi _) fun only _ honly => .pure fun _ => ?_
    rw [BodyItem.expressionsBlock, BodyItem.expressionsAll_eq, List.flatMap_singleton]
    exact honly

theorem generateRegionOf : Opens ts c (SystemVerilog.generateRegionOf nested) fun i => Rooted ts i.expressions := by
  refine .tagged <| enclosed rfl rfl fun _ => bind (untilEnd hi) fun _ _ hitems => .pure fun _ => ?_
  rw [BodyItem.expressions, BodyItem.expressionsAll_eq]
  exact .flatMap hitems

theorem generateIfOf (hword : c.currentKind? = some (.word word)) :
    Opens ts c (SystemVerilog.generateIfOf nested) fun i => Rooted ts i.expressions :=
  .tagged <| silent (lift (consumeWord hword)) fun _ _ => bind (lift condition) fun _ _ hcondition =>
    bind (generateBlockOf hi) fun _ _ hthen => silent (lift (eat rfl)) fun _ _ => by
      split
      · exact bind (generateBlockOf hi) fun _ _ helse => .pure fun _ => .cons hcondition (.append hthen helse)
      · exact .pure fun _ => .cons hcondition (.append hthen .nil)

theorem generateForOf (hword : c.currentKind? = some (.word word)) :
    Opens ts c (SystemVerilog.generateForOf nested) fun i => Rooted ts i.expressions :=
  .tagged <| silent (lift (consumeWord hword)) fun _ _ => bind (lift loopHeader) fun _ _ hheader =>
    bind (generateBlockOf hi) fun _ _ hbody => .pure fun _ => .append hheader hbody

theorem generateCaseOf : Opens ts c (SystemVerilog.generateCaseOf nested) fun i => Rooted ts i.expressions := by
  refine .tagged <| enclosed rfl rfl fun _ => bind (lift condition) fun _ _ hselector =>
    bind (caseItems fun _ => generateBlockOf hi) fun _ _ hfound => .pure fun _ => ?_
  rw [BodyItem.expressions, BodyItem.expressionsItems_eq, BodyItem.expressionsOption_eq]
  exact .cons hselector (.append hfound.rooted.1 hfound.rooted.2)

/-! ### Any item -/

theorem wordItemOf (hword : c.currentKind? = some (.word word)) (token : Token) :
    Opens ts c (SystemVerilog.wordItemOf nested word token) fun i => Rooted ts i.expressions := by
  unfold SystemVerilog.wordItemOf
  split
  · exact bind (lift (alwaysBlock hword _)) fun _ _ h => .pure h
  · split
    · exact bind (lift portDeclaration) fun _ _ h => .pure h
    · split
      · exact bind (lift signalDeclaration) fun _ _ h => .pure h
      · split
        · exact bind (lift (parameterDeclaration hword)) fun _ _ h => .pure h
        · exact bind (lift (parameterDeclaration hword)) fun _ _ h => .pure h
        · exact silent (lift genvarDeclaration) fun _ _ => .pure .nil
        · exact bind (lift continuousAssign) fun _ _ h => .pure h
        · exact bind (lift initialBlock) fun _ _ h => .pure h
        · exact bind (generateBlockOf hi) fun _ _ h => .pure h
        · exact generateRegionOf hi
        · exact generateIfOf hi hword
        · exact generateForOf hi hword
        · exact generateCaseOf hi
        · exact lift fail

theorem bodyItemOf : Opens ts c (SystemVerilog.bodyItemOf nested) fun i => Rooted ts i.expressions :=
  lookLifted rfl <| by
    split
    · exact lift (of_error fun _ _ => unexpectedEnd_ne_ok)
    · rename_i token htoken
      refine lookLifted rfl ?_
      split
      · exact bind (lift instantiation) fun _ _ h => .pure h
      · split
        · rename_i word hkind
          refine wordItemOf hi ?_ token
          rw [Cursor.currentKind?, htoken, Option.map_some, hkind]
        · exact silent directive fun _ _ => .pure .nil
        · rename_i hkind
          refine lift (emptyItem (fun _ => .nil) ?_)
          rw [Cursor.currentKind?, htoken, Option.map_some, hkind]
        · exact lift fail

end Nested

theorem bodyItemWithin (budget : Nat) :
    Opens ts c (SystemVerilog.bodyItemWithin budget) fun i => Rooted ts i.expressions := by
  induction budget generalizing c with
  | zero => exact lift (of_error fun _ _ => bottomless_ne_ok)
  | succ budget ih => exact bodyItemOf fun _ => ih

theorem bodyItem : Opens ts c SystemVerilog.bodyItem fun i => Rooted ts i.expressions := get (bodyItemWithin _)

/-! ### Modules and sources -/

theorem moduleParameters :
    Opens ts c Parser.moduleParameters fun gs => Rooted ts (gs.flatMap ParameterGroup.expressions) :=
  silent (eat rfl) fun _ _ => by
    split
    · exact enclosed rfl rfl fun _ => headerParameters
    · exact .pure .nil

theorem modulePorts : Opens ts c Parser.modulePorts fun ports => Rooted ts ports.expressions :=
  look rfl <| by
    split
    · exact enclosed rfl rfl fun _ => portList
    · exact .pure .nil

theorem moduleHeader : Opens ts c Parser.moduleHeader fun header =>
    Rooted ts (header.params.flatMap ParameterGroup.expressions) ∧ Rooted ts header.ports.expressions :=
  silent (expect rfl) fun _ _ => silent name fun _ _ => bind moduleParameters fun _ _ hparams =>
    bind modulePorts fun _ _ hports => silent (expectAs rfl) fun _ _ => .pure ⟨hparams, hports⟩

theorem moduleBody (depth : Depth) :
    Opens ts c (SystemVerilog.moduleBody depth) fun items => Rooted ts (items.flatMap BodyItem.expressions) := by
  cases depth with
  | headers => exact .pure .nil
  | bodies => exact (untilEnd fun _ => bodyItem).mono fun _ => .flatMap

theorem moduleItem (depth : Depth) : Opens ts c (SystemVerilog.moduleItem depth) fun m => Rooted ts m.expressions := by
  refine .tagged <| bind (lift (spanToCloser rfl)) fun part _ hpart => ?_
  refine bind (within hpart (P := fun r => (Rooted ts (r.1.params.flatMap ParameterGroup.expressions) ∧
      Rooted ts r.1.ports.expressions) ∧ Rooted ts (r.2.flatMap BodyItem.expressions)) ?_) fun r _ hr => ?_
  · exact bind (lift moduleHeader) fun _ _ hheader => bind (moduleBody depth) fun _ _ hbody => .pure ⟨hheader, hbody⟩
  · exact silent (lift (endLabel _)) fun _ _ => silent (notice _) fun _ _ => .pure fun _ =>
      .append hr.1.1 (.append hr.1.2 hr.2)

theorem item (depth : Depth) : Opens ts c (SystemVerilog.item depth) fun i => Rooted ts i.expressions :=
  lookLifted rfl <| by
    split
    · exact lift (of_error fun _ _ => unexpectedEnd_ne_ok)
    · split
      · exact bind (moduleItem depth) fun _ _ h => .pure h
      · exact silent directive fun _ _ => .pure .nil
      · exact lift fail

end Opens

/-- The cursor in front of the tokens of an arena sees them all. -/
theorem Arena.ready_root {source : Source} {arena : Arena} (h : ofSource source = .ok arena) :
    (Cursor.root arena.tokens).Ready arena.code := by
  obtain ⟨-, -, hafter⟩ := code_of_ofSource h
  exact hafter ▸ Cursor.ready_root arena.tokens

/-- Every expression in the tree of a text was read as an expression. -/
theorem readText_rooted {text : String} {options : ReadOptions} {unit : SourceUnit}
    (h : (readText text options).result = .ok unit) :
    Arena.ofSource (options.source text) = .ok unit.toArena ∧
      Rooted unit.code (unit.items.flatMap Item.expressions) := by
  obtain ⟨tokens, htokens, hread⟩ := readText_eq_ok h
  obtain ⟨is, c', hgives, rfl⟩ := Arena.read_eq_ok hread
  have harena := Arena.ofSource_of_tokens htokens
  obtain ⟨-, hitems⟩ := Opens.untilEnd (fun _ => Opens.item options.depth) (Arena.ready_root harena) hgives
  exact ⟨harena, .flatMap hitems⟩

end SystemVerilog
