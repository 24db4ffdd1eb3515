import SystemVerilog.Proofs.Termination.Declarations

/-!
# Reading a statement ends

A statement inside a statement stands behind the word, the condition or the control of the outer one, so the
recursion is founded on the tokens left (`statementStep_founded`). The items of a case are read in turns, each of
which holds a body.
-/

namespace SystemVerilog

open SystemVerilog.Parser

/-- A token that is found between brackets of a depth stands before the end. -/
theorem distanceAtDepth?_lt {opening closing kind : TokenKind} {depth level n : Nat} {ts : List Token}
    (h : distanceAtDepth? opening closing kind depth level ts = some n) : n < ts.length := by
  obtain ⟨t, ht, -⟩ := distanceAtDepth?_found h
  exact (List.getElem?_eq_some_iff.1 ht).1

namespace EndsAt

/-! ### Parts without statements -/

section Parts

variable {α : Type} {c : Cursor}

theorem blockLabel : EndsAt 0 c Parser.blockLabel Parser.blockLabel := by
  refine .step (eat _) fun found c₁ _ => ?_
  split
  · exact .step name.uncounted fun _ _ _ => .pure _
  · exact .pure none

theorem endLabel (opening : Option String) : EndsAt 0 c (Parser.endLabel opening) (Parser.endLabel opening) := by
  refine .step (eat? _) fun colon c₁ _ => ?_
  cases colon with
  | none => exact .pure ()
  | some colon =>
    refine .step (demandWith _ _).uncounted fun label c₂ _ => ?_
    split
    · exact of_lands (.failed nofun)
    · split
      · exact .pure ()
      · exact of_lands (.failed nofun)

theorem condition : EndsAt 1 c Parser.condition Parser.condition :=
  .enclosed fun _ _ => filling _ expression.uncounted

theorem optionally {part : Cursor} {p : Parser α} (h : EndsAt 0 part p p) :
    EndsAt 0 c (Parser.optionally part p) (Parser.optionally part p) := by
  unfold Parser.optionally
  split
  · exact .pure none
  · exact .step (.within h) fun _ _ _ => .pure _

theorem loopInit : EndsAt 0 c Parser.loopInit Parser.loopInit :=
  .tagged <| .step (eat _) fun _ _ _ => .step dataType fun _ _ _ =>
    .step (filling _ statementExpression).uncounted fun _ _ _ => .pure _

theorem loopHeader : EndsAt 1 c Parser.loopHeader Parser.loopHeader := by
  have hclause {c : Cursor} : EndsAt 1 c loopClause loopClause := spanBefore fun _ => distanceAtDepth?_lt
  have hstep {c : Cursor} : EndsAt 0 c loopStep loopStep :=
    .atEnd (fun _ => .pure none) fun _ => .step (filling _ statementExpression).uncounted fun _ _ _ => .pure _
  rw [loopHeader_eq]
  exact .tagged <| .enclosed fun _ _ => .step hclause.uncounted fun _ _ _ => .step hclause.uncounted fun _ _ _ =>
    .step (optionally loopInit) fun _ _ _ => .step (optionally (filling _ expression).uncounted) fun _ _ _ =>
      .step hstep fun _ _ _ => .pure _

/-! ### Event controls -/

theorem event : EndsAt 1 c Parser.event Parser.event :=
  .tagged <| .step (tryBy _) fun _ _ _ => .lead expression fun _ _ _ => .pure _

/-- Two events are separated by a token, `or` or a comma. -/
theorem eventSeparator : EndsAt 1 c Parser.eventSeparator Parser.eventSeparator := by
  cases hnext : c.check (.word .kwOr) with
  | false =>
    have hcomma : Parser.eventSeparator c = Parser.comma "'or', ',' or ')'" c :=
      bind_of_ok (eat_of_check hnext)
    exact (comma _).of_run (fun ns => congrArg (·, ns) hcomma) (fun ns => congrArg (·, ns) hcomma)
  | true =>
    obtain ⟨t, rest, hafter, ht⟩ := Cursor.after_of_check hnext
    have hor : Parser.eventSeparator c = .ok ((), c.skip 1) := bind_of_ok (eat_of_after hafter ht)
    exact of_lands (hor ▸ .read () (Nat.le_refl 1) (by rw [hafter]; exact Nat.succ_pos _))

theorem sensitivity : EndsAt 1 c Parser.sensitivity Parser.sensitivity := by
  refine .tagged <| .lead (expectAs _ _) fun _ _ _ => .step (eat _) fun star c₁ _ => ?_
  split
  · exact .pure _
  · refine .check (fun _ _ => .uncounted <| .enclosed fun part _ => ?_) fun _ => ?_
    · refine look (m := Parser) (t := onlyStar) rfl ?_
      split
      · exact .pure _
      · exact .step (.uncounted <| listBy (fun _ => eventSeparator) (fun _ _ => event) (Nat.lt_succ_self _))
          fun _ _ _ => .pure _
    · exact .step (.uncounted <| .tagged <| .lead operand fun _ _ _ => .pure _) fun _ _ _ => .pure _

/-! ### Labels of case items -/

theorem caseLabels : EndsAt 1 c Parser.caseLabels Parser.caseLabels := by
  refine look (m := Parser) (t := Parser.location) (s := c.location) rfl ?_
  refine .lead (spanBefore fun _ => distanceAtTop?_lt) fun part _ _ => .step (.within expressionList)
    fun labels _ _ => ?_
  cases labels with
  | nil => exact of_lands (.failed nofun)
  | cons e es => exact .pure _

theorem defaultLabel (seen : Bool) : EndsAt 0 c (Parser.defaultLabel seen) (Parser.defaultLabel seen) := by
  refine look (m := Parser) (t := Parser.location) (s := c.location) rfl <| .step (eat _) fun found c₁ _ => ?_
  split
  · refine .step (eat _) fun _ _ _ => ?_
    split
    · exact of_lands (.failed nofun)
    · exact .pure true
  · exact .pure false

end Parts

section CaseItems

variable {m : Type → Type} [Monad m] [MonadStateOf Cursor m] [MonadLiftT Parser m] [Runs m]
  {α : Type} {bound : Nat} {c : Cursor} {p q : m α}

/-- An item holds its body, whether it has labels or is the default. -/
theorem caseItemsUpTo (hp : EndsBelow bound p q) (hc : c.after.length < bound) {n n' : Nat}
    (hn : c.after.length ≤ n) (hn' : c.after.length ≤ n') (fallback : Option α) :
    EndsAt 0 c (SystemVerilog.caseItemsUpTo p n fallback) (SystemVerilog.caseItemsUpTo q n' fallback) := by
  refine of_turns ?_ ?_ fallback hn hn'
  · intro n n' fallback c hafter
    cases n <;> cases n' <;> exact .atEnd (fun _ => .pure _) fun hmore => absurd hafter hmore
  · intro n n' fallback c hmore hle hrest
    refine .atEnd (fun hafter => absurd hafter hmore) fun _ => .step (lift (defaultLabel _)) fun isDefault c₁ hle => ?_
    have hpos := List.length_pos_iff.2 hmore
    split
    · exact .uncounted <| .lead (hp (by omega)) fun only c₂ hlt => hrest (some only) c₂ (by omega)
    · refine .uncounted <| .lead (.tagged <| .lead (lift caseLabels) fun _ c₂ hlt => ?_) fun item c₂ hlt => ?_
      · exact .step (hp (by omega)).uncounted fun _ _ _ => .pure _
      · exact .step (hrest fallback c₂ (by omega)) fun _ _ _ => .pure _

theorem caseItems (hp : EndsBelow bound p q) (hc : c.after.length < bound) :
    EndsAt 0 c (SystemVerilog.caseItems p) (SystemVerilog.caseItems q) :=
  .get (caseItemsUpTo hp hc (Nat.le_refl _) (Nat.le_refl _) none)

end CaseItems

/-! ### Statements -/

section Nested

variable {bound : Nat} {c : Cursor} {s s' : Parser (Statement Site)} (hs : EndsBelow bound s s')
  (hc : c.after.length ≤ bound)

include hs hc

theorem blockOf : EndsAt 1 c (Parser.blockOf s) (Parser.blockOf s') := by
  refine .tagged <| .lead (.enclosed fun _ _ => ?_) fun _ _ _ => .step (endLabel _) fun _ _ _ => .pure _
  exact .step blockLabel fun _ _ _ => .step (.untilEnd hs (by omega)) fun _ _ _ => .pure _

theorem ifElseOf : EndsAt 1 c (Parser.ifElseOf s) (Parser.ifElseOf s') := by
  refine .tagged <| .lead (expectAs _ _) fun _ _ _ => .step condition.uncounted fun _ _ _ =>
    .step (hs (by omega)).uncounted fun _ _ _ => .step (eat _) fun _ _ _ => ?_
  split
  · exact .step (hs (by omega)).uncounted fun _ _ _ => .pure _
  · exact .pure _

theorem caseOf (kind : CaseKind) : EndsAt 1 c (Parser.caseOf s kind) (Parser.caseOf s' kind) :=
  .tagged <| .enclosed fun _ _ => .step condition.uncounted fun _ _ _ => .step (caseItems hs (by omega)) fun _ _ _ =>
    .pure _

theorem loopOf : EndsAt 1 c (Parser.loopOf s) (Parser.loopOf s') :=
  .tagged <| .lead (expectAs _ _) fun _ _ _ => .step loopHeader.uncounted fun _ _ _ =>
    .step (hs (by omega)).uncounted fun _ _ _ => .pure _

theorem delayedOf : EndsAt 1 c (Parser.delayedOf s) (Parser.delayedOf s') :=
  .tagged <| .lead delay fun _ _ _ => .step (hs (by omega)).uncounted fun _ _ _ => .pure _

theorem eventOf : EndsAt 1 c (Parser.eventOf s) (Parser.eventOf s') :=
  .tagged <| .lead sensitivity fun _ _ _ => .step (hs (by omega)).uncounted fun _ _ _ => .pure _

theorem statementOf : EndsAt 1 c (Parser.statementOf s) (Parser.statementOf s') := by
  refine look (m := Parser) (t := Parser.currentKind?) (s := c.currentKind?) rfl ?_
  cases hkind : c.currentKind? with
  | none => exact unexpectedEnd _
  | some kind =>
    dsimp only
    split
    · exact caseOf hs hc _
    · split
      · exact blockOf hs hc
      · exact ifElseOf hs hc
      · exact loopOf hs hc
      · exact delayedOf hs hc
      · exact eventOf hs hc
      · obtain ⟨t, rest, hafter, -⟩ := Cursor.after_of_kind hkind
        exact .tagged <| .lead (advance? (List.ne_nil_iff_exists_cons.2 ⟨t, rest, hafter⟩)) fun _ _ _ => .pure _
      · exact .tagged <| beforeSemicolon fun _ => .step (filling _ statementExpression).uncounted fun _ _ _ => .pure _

end Nested

end EndsAt

/-! ### Whole statements -/

namespace Parser

/-- The recursion of statements. -/
def statementStep (reader : Unit → Parser (Statement Site)) (_ : Unit) : Parser (Statement Site) :=
  statementOf (reader ())

theorem statementStep_founded : Founded statementStep :=
  fun _ _ _ hinner _ => .statementOf (hinner ()) (Nat.le_refl _)

/-- A statement is read by reading the statements in it as statements. -/
theorem statement_eq : statement = statementOf statement :=
  statementStep_founded.solved (r := fun n _ => statementWithin n) (s := fun _ => statement)
    (fun _ => rfl) (fun _ _ _ => rfl) ()

end Parser

namespace EndsAt

variable {c : Cursor}

/-- Two budgets of more nestings than tokens are as good as each other. -/
theorem statementWithin {n n' : Nat} (hn : c.after.length < n) (hn' : c.after.length < n') :
    EndsAt 1 c (Parser.statementWithin n) (Parser.statementWithin n') :=
  statementStep_founded.of_budget (r := fun n _ => Parser.statementWithin n) (fun _ => rfl) hn hn' ()

theorem statement : EndsAt 1 c Parser.statement Parser.statement :=
  of_length (p := fun n => Parser.statementWithin (n + 1)) (q := fun n => Parser.statementWithin (n + 1))
    (statementWithin (Nat.lt_succ_self _) (Nat.lt_succ_self _))

end EndsAt

end SystemVerilog
