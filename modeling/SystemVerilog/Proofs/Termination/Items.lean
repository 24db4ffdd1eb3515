import SystemVerilog.Grammar.Module
import SystemVerilog.Proofs.Reading.Regions
import SystemVerilog.Proofs.Termination.Statements

/-!
# Reading a source ends

An item of a module body may stand inside another one, and a generate scope is an item where it is a bare one. So
there are two ways to go on without a token read: from an item to the scope that it is, and from a bare scope to its
only item. An item is such a scope only at `begin`, where the scope is not bare, so no way leads back to an item at
the same place (`bodyItemStep_founded`).
-/

namespace SystemVerilog

open SystemVerilog.Parser

/-- The end of a region stands before the end. -/
theorem distanceToRegionEnd?_lt {inner n : Nat} {ts : List Token} (h : distanceToRegionEnd? inner ts = some n) :
    n < ts.length := by
  obtain ⟨skipped, u, rest, rfl, rfl, -⟩ := distanceToRegionEnd?_eq_some_iff.1 h
  rw [List.length_append, List.length_cons]
  omega

namespace EndsAt

variable {c : Cursor}

/-! ### Directives -/

theorem notice (n : Notice) : EndsAt 0 c (SystemVerilog.notice n) (SystemVerilog.notice n) :=
  fun _ => ⟨rfl, .read () (Nat.le_refl 0) (Nat.zero_le _)⟩

theorem stringArgument (expected : String) :
    EndsAt 0 c (Parser.stringArgument expected) (Parser.stringArgument expected) :=
  .step (expectAs _ _).uncounted fun _ _ _ => .pure _

theorem timeValue : EndsAt 0 c Parser.timeValue Parser.timeValue := by
  refine .step (expectAs _ _).uncounted fun token _ _ => ?_
  split
  · exact of_lands (.failed nofun)
  · exact .step (demandBy _ _).uncounted fun _ _ _ => .pure _

theorem conditionalRegion (negated : Bool) (here : Location) :
    EndsAt 0 c (SystemVerilog.conditionalRegion negated here) (SystemVerilog.conditionalRegion negated here) := by
  refine .step (lift name.uncounted) fun macroName _ _ =>
    .step (lift (spanBefore? fun _ => distanceToRegionEnd?_lt)) fun part? _ _ => ?_
  cases part? with
  | none => exact lift (of_lands (.failed nofun))
  | some part => exact .step (notice _) fun _ _ _ => .pure _

theorem directiveArguments (token : Token) :
    EndsAt 0 c (SystemVerilog.directiveArguments token) (SystemVerilog.directiveArguments token) := by
  unfold SystemVerilog.directiveArguments
  dsimp only
  split
  · exact .pure _
  · exact .pure _
  · exact .pure _
  · exact .step (lift (stringArgument _)) fun _ _ _ => .pure _
  · exact .step (lift (stringArgument _)) fun _ _ _ => .pure _
  · exact .pure _
  · exact .pure _
  · exact .step (lift (stringArgument _)) fun _ _ _ => .pure _
  · exact .step (lift timeValue) fun _ _ _ => .step (lift (expectAs _ _).uncounted) fun _ _ _ =>
      .step (lift timeValue) fun _ _ _ => .pure _
  · exact .step (lift (demandWith _ _).uncounted) fun _ _ _ => .pure _
  · exact .step (lift (demandBy _ _).uncounted) fun _ _ _ => .pure _
  · exact .pure _
  · exact conditionalRegion _ _
  · exact conditionalRegion _ _
  all_goals exact lift (of_lands (.failed nofun))

theorem directive : EndsAt 1 c SystemVerilog.directive SystemVerilog.directive :=
  .tagged <| .lead (lift (expectAs _ _)) fun token _ _ => .step (directiveArguments token) fun _ _ _ => .pure _

/-! ### Items without items inside -/

theorem continuousAssignment : EndsAt 1 c Parser.continuousAssignment Parser.continuousAssignment := by
  refine .lead statementExpression fun expr _ _ => ?_
  split
  · exact .pure expr
  · exact of_lands (.failed nofun)

theorem continuousAssign : EndsAt 1 c Parser.continuousAssign Parser.continuousAssign := by
  have hdelay {c : Cursor} : EndsAt 0 c optionalDelay optionalDelay :=
    .check (fun _ _ => .step delay.uncounted fun _ _ _ => .pure _) fun _ => .pure none
  exact .tagged <| beforeSemicolon fun _ => .step (expectAs _ _).uncounted fun _ _ _ => .step hdelay fun _ _ _ =>
    .step (commaList fun _ => continuousAssignment).uncounted fun _ _ _ => .pure _

theorem alwaysBlock (kind : AlwaysKind) : EndsAt 1 c (Parser.alwaysBlock kind) (Parser.alwaysBlock kind) := by
  have hsensitivity {c : Cursor} : EndsAt 0 c optionalSensitivity optionalSensitivity :=
    .check (fun _ _ => .step sensitivity.uncounted fun _ _ _ => .pure _) fun _ => .pure none
  exact .tagged <| .lead (demandWith _ _) fun _ _ _ => .step hsensitivity fun _ _ _ =>
    .step statement.uncounted fun _ _ _ => .pure _

theorem initialBlock : EndsAt 1 c Parser.initialBlock Parser.initialBlock :=
  .tagged <| .lead (expectAs _ _) fun _ _ _ => .step statement.uncounted fun _ _ _ => .pure _

/-! ### Generate constructs -/

section Nested

variable {bound : Nat} {item item' : NestedItem}

/-- Behind `begin`, a scope reads items on fewer tokens. -/
theorem generateBlockOf_begin (hi : EndsBelow bound item item') (hc : c.after.length ≤ bound)
    (hbegin : c.check (.word .kwBegin) = true) : EndsAt 1 c (generateBlockOf item) (generateBlockOf item') := by
  refine .tagged <| .check (fun _ _ => ?_) fun hbare => absurd (hbegin.symm.trans hbare) nofun
  refine .lead (.enclosed fun _ _ => .step (lift blockLabel) fun _ _ _ => ?_) fun _ _ _ => ?_
  · exact .step (.untilEnd hi (by omega)) fun _ _ _ => .pure _
  · exact .step (lift (endLabel _)) fun _ _ _ => .pure _

/-- A bare scope reads its item where it stands itself. -/
theorem generateBlockOf_bare (hi : EndsAt 1 c item item') (hbare : c.check (.word .kwBegin) = false) :
    EndsAt 1 c (generateBlockOf item) (generateBlockOf item') :=
  .tagged <| .check (fun _ hbegin => absurd (hbare.symm.trans hbegin) nofun) fun _ => .lead hi fun _ _ _ => .pure _

theorem generateBlockOf (hi : EndsBelow bound item item') (hc : c.after.length < bound) :
    EndsAt 1 c (SystemVerilog.generateBlockOf item) (SystemVerilog.generateBlockOf item') := by
  cases hcheck : c.check (.word .kwBegin) with
  | true => exact generateBlockOf_begin hi (Nat.le_of_lt hc) hcheck
  | false => exact generateBlockOf_bare (hi hc) hcheck

theorem generateRegionOf (hi : EndsBelow bound item item') (hc : c.after.length ≤ bound) :
    EndsAt 1 c (SystemVerilog.generateRegionOf item) (SystemVerilog.generateRegionOf item') :=
  .tagged <| .enclosed fun _ _ => .step (.untilEnd hi (by omega)) fun _ _ _ => .pure _

theorem generateIfOf (hi : EndsBelow bound item item') (hc : c.after.length ≤ bound) :
    EndsAt 1 c (SystemVerilog.generateIfOf item) (SystemVerilog.generateIfOf item') := by
  refine .tagged <| .lead (lift (demandWith _ _)) fun _ _ _ => .step (lift condition.uncounted) fun _ _ _ =>
    .step (generateBlockOf hi (by omega)).uncounted fun _ _ _ => .step (lift (eat _)) fun _ _ _ => ?_
  split
  · exact .step (generateBlockOf hi (by omega)).uncounted fun _ _ _ => .pure _
  · exact .pure _

theorem generateForOf (hi : EndsBelow bound item item') (hc : c.after.length ≤ bound) :
    EndsAt 1 c (SystemVerilog.generateForOf item) (SystemVerilog.generateForOf item') :=
  .tagged <| .lead (lift (demandWith _ _)) fun _ _ _ => .step (lift loopHeader.uncounted) fun _ _ _ =>
    .step (generateBlockOf hi (by omega)).uncounted fun _ _ _ => .pure _

theorem generateCaseOf (hi : EndsBelow bound item item') (hc : c.after.length ≤ bound) :
    EndsAt 1 c (SystemVerilog.generateCaseOf item) (SystemVerilog.generateCaseOf item') := by
  have hscope : EndsBelow bound (SystemVerilog.generateBlockOf item) (SystemVerilog.generateBlockOf item') :=
    fun c hlt => generateBlockOf hi hlt
  exact .tagged <| .enclosed fun _ _ => .step (lift condition.uncounted) fun _ _ _ =>
    .step (caseItems hscope (by omega)) fun _ _ _ => .pure _

/-! ### Any item -/

theorem wordItemOf (hi : EndsBelow bound item item') (hc : c.after.length ≤ bound) {word : Keyword} {token : Token}
    (hword : c.currentKind? = some (.word word)) :
    EndsAt 1 c (SystemVerilog.wordItemOf item word token) (SystemVerilog.wordItemOf item' word token) := by
  unfold SystemVerilog.wordItemOf
  split
  · exact .lead (lift (alwaysBlock _)) fun _ _ _ => .pure _
  · split
    · exact .lead (lift portDeclaration) fun _ _ _ => .pure _
    · split
      · exact .lead (lift signalDeclaration) fun _ _ _ => .pure _
      · split
        · exact .lead (lift parameterDeclaration) fun _ _ _ => .pure _
        · exact .lead (lift parameterDeclaration) fun _ _ _ => .pure _
        · exact .lead (lift genvarDeclaration) fun _ _ _ => .pure _
        · exact .lead (lift continuousAssign) fun _ _ _ => .pure _
        · exact .lead (lift initialBlock) fun _ _ _ => .pure _
        · exact .lead (generateBlockOf_begin hi hc (by rw [Cursor.check, hword]; rfl)) fun _ _ _ => .pure _
        · exact generateRegionOf hi hc
        · exact generateIfOf hi hc
        · exact generateForOf hi hc
        · exact generateCaseOf hi hc
        · exact lift (unimplemented _ _)

theorem bodyItemOf (hi : EndsBelow bound item item') (hc : c.after.length ≤ bound) :
    EndsAt 1 c (SystemVerilog.bodyItemOf item) (SystemVerilog.bodyItemOf item') := by
  refine .current? (fun token rest hafter => ?_) (lift (unexpectedEnd _))
  refine look (t := startsInstantiation) rfl ?_
  split
  · exact .lead (lift instantiation) fun _ _ _ => .pure _
  · split
    · rename_i word hword
      exact wordItemOf hi hc (Cursor.currentKind?_of_after hafter hword)
    · exact .lead directive fun _ _ _ => .pure _
    · refine lift (.tagged <| .lead (advance? ?_) fun _ _ _ => .pure _)
      exact List.ne_nil_iff_exists_cons.2 ⟨token, rest, hafter⟩
    · exact lift (unimplemented _ _)

end Nested

end EndsAt

/-- The recursion of items. -/
def bodyItemStep (reader : Unit → NestedItem) (_ : Unit) : Recorder (BodyItem Site) := bodyItemOf (reader ())

theorem bodyItemStep_founded : Founded bodyItemStep :=
  fun _ _ _ hinner _ => .bodyItemOf (hinner ()) (Nat.le_refl _)

/-- An item is read by reading the items in it as items. -/
theorem bodyItem_eq : bodyItem = bodyItemOf bodyItem :=
  bodyItemStep_founded.solved (r := fun n _ => bodyItemWithin n) (s := fun _ => bodyItem)
    (fun _ => rfl) (fun _ => Runs.run_get_bind _) ()

namespace EndsAt

variable {c : Cursor}

/-- Two budgets of more nestings than tokens are as good as each other. -/
theorem bodyItemWithin {n n' : Nat} (hn : c.after.length < n) (hn' : c.after.length < n') :
    EndsAt 1 c (SystemVerilog.bodyItemWithin n) (SystemVerilog.bodyItemWithin n') :=
  bodyItemStep_founded.of_budget (r := fun n _ => SystemVerilog.bodyItemWithin n) (fun _ => rfl) hn hn' ()

/-- Any such budget is as good as the one that the tokens left give. -/
theorem bodyItem_bodyItemWithin {n : Nat} (hn : c.after.length < n) :
    EndsAt 1 c bodyItem (SystemVerilog.bodyItemWithin n) :=
  (bodyItemWithin (Nat.lt_succ_self _) hn).of_run (Runs.run_get_bind _ c) fun _ => rfl

theorem bodyItem : EndsAt 1 c bodyItem bodyItem :=
  (bodyItemWithin (Nat.lt_succ_self _) (Nat.lt_succ_self _)).of_run (Runs.run_get_bind _ c) (Runs.run_get_bind _ c)

/-! ### Modules and sources -/

theorem moduleParameters : EndsAt 0 c Parser.moduleParameters Parser.moduleParameters := by
  refine .step (eat _) fun found _ _ => ?_
  split
  · exact .uncounted <| .enclosed fun _ _ => headerParameters
  · exact .pure []

theorem modulePorts : EndsAt 0 c Parser.modulePorts Parser.modulePorts :=
  .check (fun _ _ => .uncounted <| .enclosed fun _ _ => portList) fun _ => .pure _

theorem moduleHeader : EndsAt 1 c Parser.moduleHeader Parser.moduleHeader :=
  .lead (expectAs _ _) fun _ _ _ => .step name.uncounted fun _ _ _ => .step moduleParameters fun _ _ _ =>
    .step modulePorts fun _ _ _ => .step (expectAs _ _).uncounted fun _ _ _ => .pure _

theorem moduleBody (depth : Depth) : EndsAt 0 c (SystemVerilog.moduleBody depth) (SystemVerilog.moduleBody depth) := by
  cases depth with
  | headers => exact .pure []
  | bodies => exact .untilEnd (fun _ _ => bodyItem) (Nat.lt_succ_self _)

theorem moduleItem (depth : Depth) :
    EndsAt 1 c (SystemVerilog.moduleItem depth) (SystemVerilog.moduleItem depth) := by
  refine .tagged <| .lead (lift (spanToCloser _ _)) fun part _ _ => .step (.within ?_) fun _ _ _ =>
    .step (lift (endLabel _)) fun _ _ _ => .step (notice _) fun _ _ _ => .pure _
  exact .step (lift moduleHeader.uncounted) fun _ _ _ => .step (moduleBody depth) fun _ _ _ => .pure _

theorem item (depth : Depth) : EndsAt 1 c (SystemVerilog.item depth) (SystemVerilog.item depth) := by
  refine .current? (fun token rest hafter => ?_) (lift (unexpectedEnd _))
  dsimp only
  split
  · exact .lead (moduleItem depth) fun _ _ _ => .pure _
  · exact .lead directive fun _ _ _ => .pure _
  · exact lift (unimplemented _ _)

theorem items (depth : Depth) : EndsAt 0 c (SystemVerilog.items depth) (SystemVerilog.items depth) :=
  .untilEnd (fun _ _ => item depth) (Nat.lt_succ_self _)

end EndsAt

end SystemVerilog
