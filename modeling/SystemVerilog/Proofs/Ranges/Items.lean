import SystemVerilog.Proofs.Reading.Brackets
import SystemVerilog.Proofs.Reading.Modules
import SystemVerilog.Proofs.Ranges.Statements

/-!
# Items cover what they are read from

Directives, the items of module bodies, modules and the items of a source are nodes over the tokens that
are read for them, generate constructs at any depth included.
-/

namespace SystemVerilog

open SystemVerilog.Parser

variable {ts : List Token} {c c' : Cursor}

/-! ### Directives -/

theorem Lays.spanBefore? (find : List Token → Option Nat) :
    Lays ts c (Parser.spanBefore? find) fun _ => [] :=
  .of_skip fun part c' h => by
    unfold Parser.spanBefore? at h
    split at h
    · rename_i n _
      cases h
      exact ⟨n + 1, rfl⟩
    · cases h
      exact ⟨0, rfl⟩

theorem Lays.notice (n : Notice) : Lays ts c (SystemVerilog.notice n) fun _ => [] := by
  rintro _ a c' ⟨ns, ns', hread⟩
  cases hread
  exact ⟨[], .refl _, rfl⟩

theorem Lays.stringArgument (expected : String) :
    Lays ts c (Parser.stringArgument expected) fun _ => [] :=
  .silent (Takes.expectAs _ _).lays fun _ _ => .pure rfl

theorem Lays.timeValue : Lays ts c Parser.timeValue fun _ => [] :=
  .silent (Takes.expectAs _ _).lays fun token _ => by
    split
    · exact .fail _ _
    · exact .silent (Takes.demandBy _ _).lays fun _ _ => .pure rfl

theorem Lays.conditionalRegion (negated : Bool) (here : Location) :
    Lays ts c (SystemVerilog.conditionalRegion negated here) fun _ => [] :=
  .silent (Lays.lift Takes.name.lays) fun _ _ => .silent (Lays.lift (.spanBefore? _)) fun part _ => by
    split
    · exact .lift (.fail _ _)
    · exact .silent (.notice _) fun _ _ => .pure rfl

theorem Lays.directiveArguments (token : Token) :
    Lays ts c (SystemVerilog.directiveArguments token) fun _ => [] := by
  unfold SystemVerilog.directiveArguments
  dsimp only
  split
  case h_4 | h_5 | h_8 => exact .silent (Lays.lift (.stringArgument _)) fun _ _ => .pure rfl
  case h_9 =>
    exact .silent (Lays.lift .timeValue) fun _ _ => .silent (Lays.lift (Takes.expectAs _ _).lays) fun _ _ =>
      .silent (Lays.lift .timeValue) fun _ _ => .pure rfl
  case h_10 => exact .silent (Lays.lift (Takes.demandWith _ _).lays) fun _ _ => .pure rfl
  case h_11 => exact .silent (Lays.lift (Takes.demandBy _ _).lays) fun _ _ => .pure rfl
  case h_13 | h_14 => exact .conditionalRegion _ _
  case h_15 | h_16 | h_17 | h_18 | h_19 | h_20 | h_21 => exact .lift (.fail _ _)
  all_goals exact .pure rfl

theorem Forms.directive : Forms ts c SystemVerilog.directive Directive.outline :=
  .tagged <| .token (Takes.lift (.expect _)) fun _ _ => .silent (.directiveArguments _) fun _ _ =>
    .pure (.of_eq fun _ => rfl)

/-! ### Items without items inside -/

theorem Forms.continuousAssignment : Forms ts c Parser.continuousAssignment Expr.outline :=
  .forward .statementExpression fun e c₁ e' c' h => by
    split at h
    · obtain ⟨rfl, rfl⟩ := pure_eq_ok.1 h
      exact ⟨rfl, rfl⟩
    · exact absurd h fail_ne_ok

theorem Lays.optionalDelay : Lays ts c Parser.optionalDelay (optionOutlines Delay.outline) :=
  .silent (.check _) fun _ _ => by
    split
    · exact .node .delay fun _ _ => .pure rfl
    · exact .pure rfl

theorem Forms.continuousAssign : Forms ts c Parser.continuousAssign ContinuousAssign.outline :=
  .tagged <| .beforeSemicolon fun _ => .silent (Takes.expect _).lays fun _ _ => .step .optionalDelay fun _ _ =>
    .step (Lays.of_flatMap (.listBy (fun _ => (Takes.comma _).lays) fun _ => Forms.continuousAssignment.lays))
      fun _ _ => .pure (.of_eq fun _ => rfl)

theorem Lays.optionalSensitivity :
    Lays ts c Parser.optionalSensitivity (optionOutlines Sensitivity.outline) :=
  .silent (.check _) fun _ _ => by
    split
    · exact .node .sensitivity fun _ _ => .pure rfl
    · exact .pure rfl

theorem Forms.alwaysBlock (kind : AlwaysKind) : Forms ts c (Parser.alwaysBlock kind) AlwaysBlock.outline :=
  .tagged <| .token .consume fun _ _ => .step .optionalSensitivity fun _ _ => .node .statement fun _ _ =>
    .pure (.of_eq fun _ => rfl)

theorem Forms.initialBlock : Forms ts c Parser.initialBlock InitialBlock.outline :=
  .tagged <| .token (.expect _) fun _ _ => .node .statement fun _ _ => .pure (.of_eq fun _ => rfl)

theorem Forms.emptyItem (hc : c.after ≠ []) : Forms ts c Parser.emptyItem BodyItem.outline :=
  .tagged <| .token (.advance? hc) fun _ _ => .pure (.of_eq fun _ => rfl)

/-! ### Generate constructs -/

section Nested

variable {nested : NestedItem}

theorem Forms.generateBlockOf (hi : ∀ c, Forms ts c nested BodyItem.outline) :
    Forms ts c (SystemVerilog.generateBlockOf nested) BodyItem.outlineBlock := by
  refine .tagged <| .silent (Lays.lift (.check _)) fun opens c₁ => ?_
  cases opens with
  | true =>
    refine .part (g := fun r => r.2.map BodyItem.outline) ?_ fun r _ =>
      .silent (Lays.lift (.endLabel _)) fun _ _ => .pure (.of_eq fun _ => ?_)
    · exact .enclosed fun _ => .silent (Lays.lift .blockLabel) fun _ _ => .step (.untilEnd hi) fun _ _ => .pure rfl
    · rw [BodyItem.outlineBlock, BodyItem.outlineAll_eq_map]
      rfl
  | false => exact .node (hi _) fun _ _ => .pure (.of_eq fun _ => rfl)

theorem Forms.generateRegionOf (hi : ∀ c, Forms ts c nested BodyItem.outline) :
    Forms ts c (SystemVerilog.generateRegionOf nested) BodyItem.outline := by
  refine .tagged <| .enclosed fun _ => .step (.untilEnd hi) fun _ _ => .pure (.of_eq fun _ => ?_)
  rw [BodyItem.outline, BodyItem.outlineAll_eq_map]
  rfl

theorem Forms.generateIfOf (hi : ∀ c, Forms ts c nested BodyItem.outline) :
    Forms ts c (SystemVerilog.generateIfOf nested) BodyItem.outline :=
  .tagged <| .token (Takes.lift .consume) fun _ _ => .step (Lays.lift Builds.condition.gathers) fun _ _ =>
    .node (.generateBlockOf hi) fun _ _ => .silent (Lays.lift (.eat _)) fun _ _ => by
      split
      · exact .node (.generateBlockOf hi) fun _ _ => .pure (.of_eq fun _ => rfl)
      · exact .pure (.of_eq fun _ => rfl)

theorem Forms.generateForOf (hi : ∀ c, Forms ts c nested BodyItem.outline) :
    Forms ts c (SystemVerilog.generateForOf nested) BodyItem.outline :=
  .tagged <| .token (Takes.lift .consume) fun _ _ => .node (Forms.lift .loopHeader) fun _ _ =>
    .node (.generateBlockOf hi) fun _ _ => .pure (.of_eq fun _ => rfl)

theorem Forms.generateCaseOf (hi : ∀ c, Forms ts c nested BodyItem.outline) :
    Forms ts c (SystemVerilog.generateCaseOf nested) BodyItem.outline := by
  refine .tagged <| .enclosed fun _ => .step (Lays.lift Builds.condition.gathers) fun selector _ =>
    .bind (.caseItems fun _ => .generateBlockOf hi) fun found os _ hperm =>
      .pure ⟨_, hperm.cons selector.outline, fun tag => ?_⟩
  rw [BodyItem.outline, BodyItem.outlineItems_eq_map, BodyItem.outlineOption_eq]
  rfl

/-! ### Any item -/

/-- A node that a parser reads is an item. -/
theorem Forms.item_of {α : Type} {p : Parser α} {out : α → Outline} {f : α → BodyItem Site}
    (hp : ∀ c, Forms ts c p out) (hf : ∀ a, (f a).outline = out a) :
    Forms ts c (do return f (← p) : Recorder (BodyItem Site)) BodyItem.outline :=
  .forward (Forms.lift (hp c)) fun a c₁ b c' h => by
    obtain ⟨rfl, rfl⟩ := Reader.pure_inv h
    exact ⟨rfl, hf a⟩

theorem Forms.wordItemOf (hi : ∀ c, Forms ts c nested BodyItem.outline) (word : Keyword) (token : Token) :
    Forms ts c (SystemVerilog.wordItemOf nested word token) BodyItem.outline := by
  unfold SystemVerilog.wordItemOf
  split
  · exact .item_of (fun _ => .alwaysBlock _) fun _ => rfl
  · split
    · exact .item_of (fun _ => .portDeclaration) fun _ => rfl
    · split
      · exact .item_of (fun _ => .signalDeclaration) fun _ => rfl
      · split
        · exact .item_of (fun _ => .parameterDeclaration) fun _ => rfl
        · exact .item_of (fun _ => .parameterDeclaration) fun _ => rfl
        · exact .item_of (fun _ => .genvarDeclaration) fun _ => rfl
        · exact .item_of (fun _ => .continuousAssign) fun _ => rfl
        · exact .item_of (fun _ => .initialBlock) fun _ => rfl
        · refine .forward (Forms.generateBlockOf hi) fun b c₁ item c' h => ?_
          obtain ⟨rfl, rfl⟩ := Reader.pure_inv h
          exact ⟨rfl, rfl⟩
        · exact .generateRegionOf hi
        · exact .generateIfOf hi
        · exact .generateForOf hi
        · exact .generateCaseOf hi
        · exact Forms.lift (.of_error nofun)

theorem Forms.bodyItemOf (hi : ∀ c, Forms ts c nested BodyItem.outline) :
    Forms ts c (SystemVerilog.bodyItemOf nested) BodyItem.outline := by
  refine .peek (a := c.current?) rfl ?_
  cases hafter : c.after with
  | nil =>
    rw [Cursor.current?, hafter]
    exact Forms.lift (.of_error fun _ _ => unexpectedEnd_ne_ok)
  | cons token rest =>
    have hc : c.after ≠ [] := List.ne_nil_iff_exists_cons.2 ⟨token, rest, hafter⟩
    rw [Cursor.current?, hafter]
    refine .peek rfl ?_
    split
    · exact .item_of (fun _ => .instantiation) fun _ => rfl
    · split
      · exact .wordItemOf hi _ _
      · refine .forward .directive fun d c₁ item c' h => ?_
        obtain ⟨rfl, rfl⟩ := Reader.pure_inv h
        exact ⟨rfl, rfl⟩
      · exact Forms.lift (.emptyItem hc)
      · exact Forms.lift (.of_error fun _ _ => fail_ne_ok)

end Nested

theorem Forms.bodyItemWithin (budget : Nat) :
    Forms ts c (SystemVerilog.bodyItemWithin budget) BodyItem.outline := by
  induction budget generalizing c with
  | zero => exact Forms.lift (.of_error nofun)
  | succ budget ih => exact .bodyItemOf fun _ => ih

theorem Forms.bodyItem : Forms ts c SystemVerilog.bodyItem BodyItem.outline := by
  intro hc item c' hread
  obtain ⟨c₀, c₁, hget, hwithin⟩ := Reader.bind_inv hread
  obtain ⟨rfl, rfl⟩ := Reader.get_inv hget
  exact Forms.bodyItemWithin _ hc hwithin

/-! ### Modules -/

theorem Lays.moduleParameters :
    Lays ts c Parser.moduleParameters fun gs => gs.map ParameterGroup.outline :=
  .silent (.eat _) fun _ _ => by
    split
    · exact (Builds.enclosed fun _ => Lays.headerParameters).gathers
    · exact .pure rfl

theorem Lays.modulePorts : Lays ts c Parser.modulePorts PortList.outlines :=
  .silent (.check _) fun _ _ => by
    split
    · exact (Builds.enclosed fun _ => Lays.portList).gathers
    · exact .pure rfl

/-- The children of a module that its header holds. -/
def ModuleHeader.outlines (header : ModuleHeader) : List Outline :=
  header.params.map ParameterGroup.outline ++ header.ports.outlines

theorem Lays.moduleHeader : Lays ts c Parser.moduleHeader ModuleHeader.outlines :=
  .silent (Takes.expect _).lays fun _ _ => .silent Takes.name.lays fun _ _ => .step .moduleParameters fun _ _ =>
    .step .modulePorts fun _ _ => .silent (Takes.expectAs _ _).lays fun _ _ => .pure rfl

theorem Lays.moduleBody (depth : Depth) :
    Lays ts c (SystemVerilog.moduleBody depth) fun items => items.map BodyItem.outline := by
  cases depth with
  | headers => exact .pure rfl
  | bodies => exact .untilEnd fun _ => .bodyItem

theorem Forms.moduleItem (depth : Depth) : Forms ts c (SystemVerilog.moduleItem depth) Module.outline := by
  intro hc m c' hread
  obtain ⟨n, header, c₁, body, c₂, hdistance, hheader, hbody, hlabel, rfl⟩ := moduleItem_inv hread
  obtain ⟨-, -, hn⟩ := closerDistance_inv hdistance
  have hheader' := Lays.moduleHeader.advance (hc.ahead n) hheader
  have hbody' := (Lays.moduleBody depth).advance (hheader'.sees (hc.ahead n)) hbody
  have hpart : Advance ts c (c.skip (n + 1)) (header.outlines ++ body.map BodyItem.outline) :=
    .of_ahead (k := 0) (hheader'.trans hbody') (by omega)
  have hlabel' := (Lays.endLabel _).advance (hc.skip (n + 1)) hlabel
  have hall := hpart.trans hlabel'
  rw [List.append_nil, ModuleHeader.outlines, List.append_assoc] at hall
  have hlt : c.position < (c.skip (n + 1)).position := by
    obtain ⟨us, t, vs, hafter, -⟩ := closer_of_distance hn
    rw [Cursor.position_skip, hafter, List.length_append, List.length_cons]
    omega
  have hlt' : c.position < c'.position := Nat.lt_of_lt_of_le hlt hlabel'.position_le
  exact ⟨hall.moved, rfl, hall.node hc (.refl _) hlt'⟩

theorem Forms.item (depth : Depth) : Forms ts c (SystemVerilog.item depth) Item.outline := by
  refine .peek (a := c.current?) rfl ?_
  cases hafter : c.after with
  | nil =>
    rw [Cursor.current?, hafter]
    exact Forms.lift (.of_error fun _ _ => unexpectedEnd_ne_ok)
  | cons token rest =>
    rw [Cursor.current?, hafter]
    dsimp only [List.head?]
    split
    · refine .forward (Forms.moduleItem depth) fun m c₁ i c' h => ?_
      obtain ⟨rfl, rfl⟩ := Reader.pure_inv h
      exact ⟨rfl, rfl⟩
    · refine .forward .directive fun d c₁ i c' h => ?_
      obtain ⟨rfl, rfl⟩ := Reader.pure_inv h
      exact ⟨rfl, rfl⟩
    · exact Forms.lift (.of_error fun _ _ => fail_ne_ok)

end SystemVerilog
