import SystemVerilog.Proofs.Termination.Expressions

/-!
# Reading a declaration ends

Declarations hold expressions but no declarations, so each of their readers is compared with itself only. Every
entry of a list holds a token, so the list is no longer than the span.
-/

namespace SystemVerilog

open SystemVerilog.Parser

/-- A token that is found outside all brackets stands before the end. -/
theorem distanceAtTop?_lt {kind : TokenKind} {level questions n : Nat} {ts : List Token}
    (h : distanceAtTop? kind level questions ts = some n) : n < ts.length := by
  obtain ⟨t, ht, -⟩ := distanceAtTop?_found h
  exact (List.getElem?_eq_some_iff.1 ht).1

namespace EndsAt

variable {α : Type} {c : Cursor} {p : Parser α}

/-! ### Lists of elements that hold tokens everywhere -/

theorem bracketed_self (hp : ∀ c, EndsAt 1 c p p) : EndsAt 0 c (Parser.bracketed p) (Parser.bracketed p) :=
  bracketed (fun c _ => hp c) (Nat.lt_succ_self _)

theorem commaList {expected : String} (hp : ∀ c, EndsAt 1 c p p) :
    EndsAt 1 c (Parser.listBy (Parser.comma expected) p) (Parser.listBy (Parser.comma expected) p) :=
  listBy (fun _ => comma _) (fun c _ => hp c) (Nat.lt_succ_self _)

theorem entries_self {expected : String} (hp : ∀ c, EndsAt 1 c p p) :
    EndsAt 0 c (Parser.entries expected p) (Parser.entries expected p) :=
  entries (fun c _ => hp c) (Nat.lt_succ_self _)

/-! ### Dimensions and data types -/

theorem dimensionInterior : EndsAt 0 c Parser.dimensionInterior Parser.dimensionInterior := by
  refine .step (spanBefore? fun _ => distanceAtTop?_lt) fun part? c₁ _ => ?_
  cases part? with
  | none => exact .step (filling _ expression).uncounted fun _ _ _ => .pure _
  | some part =>
    exact .step (.within (filling _ expression).uncounted) fun _ _ _ =>
      .step (filling _ expression).uncounted fun _ _ _ => .pure _

theorem dimension : EndsAt 1 c Parser.dimension Parser.dimension :=
  .tagged <| .enclosed fun _ _ => dimensionInterior

theorem packedBounds : EndsAt 1 c Parser.packedBounds Parser.packedBounds :=
  look (m := Parser) (t := Parser.location) (s := c.location) rfl <| .lead dimension fun d _ _ => by
    cases d with
    | bounds b => exact .pure b
    | size tag index => exact of_lands (.failed nofun)

theorem typeParts : EndsAt 0 c Parser.typeParts Parser.typeParts := by
  refine .step (tryBy _) fun keyword c₁ _ => .step (?_ : EndsAt 0 c₁ (signingOf keyword) _) fun signing c₂ _ =>
    .step (?_ : EndsAt 0 c₂ (packedOf keyword) _) fun packed _ _ => .pure _
  · unfold signingOf
    split
    · exact tryBy _
    · exact .pure none
  · unfold packedOf
    split
    · exact bracketed_self fun _ => packedBounds
    · exact .pure []

theorem dataType : EndsAt 0 c Parser.dataType Parser.dataType := by
  rw [dataType_eq]
  refine look (m := Parser) (t := Parser.currentKind?) (s := c.currentKind?) rfl ?_
  split
  · exact .pure none
  · split
    · exact .tagged typeParts
    · exact .pure none

/-! ### Declarators and headers -/

theorem declarator : EndsAt 1 c Parser.declarator Parser.declarator := by
  refine .tagged <| .lead name fun _ _ _ => .step (bracketed_self fun _ => dimension) fun _ _ _ =>
    .step (eat _) fun found c₁ _ => ?_
  split
  · exact .step expression.uncounted fun _ _ _ => .pure _
  · exact .pure _

theorem declarators : EndsAt 1 c Parser.declarators Parser.declarators := commaList fun _ => declarator

theorem parameterKeyword : EndsAt 0 c Parser.parameterKeyword Parser.parameterKeyword := by
  refine .step (eat _) fun found c₁ _ => ?_
  split
  · exact .pure _
  · refine .step (eat _) fun found c₁ _ => ?_
    split
    · exact .pure _
    · exact .pure _

theorem parameterEntry : EndsAt 1 c Parser.parameterEntry Parser.parameterEntry :=
  .tagged <| .step parameterKeyword fun _ _ _ => .step dataType fun _ _ _ => .lead declarator fun _ _ _ => .pure _

theorem portEntry : EndsAt 1 c Parser.portEntry Parser.portEntry :=
  .tagged <| .step (tryBy _) fun _ _ _ => .step (tryBy _) fun _ _ _ => .step dataType fun _ _ _ =>
    .lead declarator fun _ _ _ => .pure _

theorem headerParameters : EndsAt 0 c Parser.headerParameters Parser.headerParameters :=
  .step (entries_self fun _ => parameterEntry) fun _ _ _ => .pure _

theorem headerPorts : EndsAt 0 c Parser.headerPorts Parser.headerPorts := by
  refine .step (entries_self fun _ => portEntry) fun es _ _ => ?_
  cases es with
  | nil => exact .pure []
  | cons e es =>
    dsimp only
    split
    · exact .pure _
    · exact of_lands (.failed nofun)

theorem portNames : EndsAt 1 c Parser.portNames Parser.portNames :=
  commaList fun _ => .tagged <| .lead name fun _ _ _ => .pure _

theorem portList : EndsAt 0 c Parser.portList Parser.portList := by
  refine look (m := Parser) (t := Parser.currentKind?) (s := c.currentKind?) rfl ?_
  split
  · exact .pure _
  · split
    · exact .step headerPorts fun _ _ _ => .pure _
    · exact .step portNames.uncounted fun _ _ _ => .pure _

/-! ### Declarations of a body -/

theorem parameterDeclaration : EndsAt 1 c Parser.parameterDeclaration Parser.parameterDeclaration :=
  .tagged <| beforeSemicolon fun _ => .step (demandWith _ _).uncounted fun _ _ _ => .step dataType fun _ _ _ =>
    .step declarators.uncounted fun _ _ _ => .pure _

theorem portDeclaration : EndsAt 1 c Parser.portDeclaration Parser.portDeclaration :=
  .tagged <| beforeSemicolon fun _ => .step (demandBy _ _).uncounted fun _ _ _ => .step (tryBy _) fun _ _ _ =>
    .step dataType fun _ _ _ => .step declarators.uncounted fun _ _ _ => .pure _

theorem signalDeclaration : EndsAt 1 c Parser.signalDeclaration Parser.signalDeclaration :=
  .tagged <| beforeSemicolon fun _ => .step (tryBy _) fun _ _ _ => .step dataType fun _ _ _ =>
    .step declarators.uncounted fun _ _ _ => .pure _

theorem genvarDeclaration : EndsAt 1 c Parser.genvarDeclaration Parser.genvarDeclaration :=
  .tagged <| beforeSemicolon fun _ => .step (expectAs _ _).uncounted fun _ _ _ =>
    .step (commaList fun _ => name).uncounted fun _ _ _ => .pure _

/-! ### Instances -/

theorem connectedValue : EndsAt 0 c Parser.connectedValue Parser.connectedValue :=
  .atEnd (fun _ => .pure none) fun _ => .step (filling _ expression).uncounted fun _ _ _ => .pure _

/-- A connection by name holds its dot, and one by position its expression. -/
theorem connection : EndsAt 1 c Parser.connection Parser.connection := by
  refine .tagged <| .step (eat _) fun found c₁ _ => ?_
  split
  · exact .lead name fun _ _ _ => .step (.uncounted <| .enclosed fun _ _ => connectedValue) fun _ _ _ => .pure _
  · exact .lead expression fun _ _ _ => .pure _

theorem connections : EndsAt 1 c Parser.connections Parser.connections :=
  .enclosed fun _ _ => entries_self fun _ => connection

theorem instantiation : EndsAt 1 c Parser.instantiation Parser.instantiation := by
  have hparameters {c : Cursor} : EndsAt 0 c instanceParameters instanceParameters := by
    refine .step (eat _) fun found c₁ _ => ?_
    split
    · exact connections.uncounted
    · exact .pure []
  rw [instantiation_eq]
  exact .tagged <| beforeSemicolon fun _ => .step name.uncounted fun _ _ _ => .step hparameters fun _ _ _ =>
    .step name.uncounted fun _ _ _ => .step connections.uncounted fun _ _ _ => .step (expectEnd _) fun _ _ _ =>
      .pure _

end EndsAt

end SystemVerilog
