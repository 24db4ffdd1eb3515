import SystemVerilog.Proofs.Reading.Choices
import SystemVerilog.Proofs.Termination.Judgement

/-!
# Reading an expression ends

Every nested expression stands behind a token of the outer one, so the recursion is founded on the tokens left
(`expressionStep_founded`) and a budget of more nestings than tokens is never used up. A routine that starts with a
token may have as many tokens before it as the nested expressions are known for, plus one; any other routine must
have fewer.
-/

namespace SystemVerilog

open SystemVerilog.Parser

/-- On fewer tokens than a bound, nested expressions are read alike and end. -/
abbrev NestedEnds (bound : Nat) (nested nested' : Nested) : Prop :=
  ∀ floor, EndsBelow bound (nested floor) (nested' floor)

variable {bound : Nat} {c : Cursor} {nested nested' : Nested}

namespace EndsAt

/-! ### Lists and delays -/

theorem listOf (hn : NestedEnds bound nested nested') (hc : c.after.length < bound) :
    EndsAt 0 c (Parser.listOf nested) (Parser.listOf nested') :=
  .atEnd (fun _ => .pure []) fun _ => .uncounted (listBy (fun _ => comma _) (hn 0) hc)

theorem delayUnit : EndsAt 0 c Parser.delayUnit Parser.delayUnit := by
  refine of_option (delayUnit_eq c) ?_
  cases hafter : c.after with
  | nil =>
    have hnone : unitBehind c.last? c.current? = none := by
      rw [Cursor.current?, hafter]
      cases c.last? <;> rfl
    rw [hnone]
    exact Nat.zero_le _
  | cons t ts =>
    rw [List.length_cons]
    exact Nat.le_trans (Bool.toNat_le _) (Nat.le_add_left 1 _)

theorem delayOf (hn : NestedEnds bound nested nested') (hc : c.after.length ≤ bound) :
    EndsAt 1 c (Parser.delayOf nested) (Parser.delayOf nested') :=
  .tagged <| .lead (expectAs _ _) fun _ c₁ hlt => .step (hn _ (by omega)).uncounted fun _ _ _ =>
    .step delayUnit fun _ _ _ => .pure _

/-! ### Operands -/

theorem callOf (hn : NestedEnds bound nested nested') (hc : c.after.length ≤ bound) (callee : Expr Site) :
    EndsAt 0 c (Parser.callOf nested callee) (Parser.callOf nested' callee) := by
  refine .check (fun _ _ => ?_) fun _ => .pure callee
  refine .step (.uncounted <| .tagged <| .lead (.enclosed fun _ hlt => ?_) fun _ _ _ => .pure _) fun r _ _ => ?_
  · exact listOf hn (by omega)
  · exact .step (since _) fun _ _ _ => .pure _

theorem bracesOf (hn : NestedEnds bound nested nested') (hc : c.after.length ≤ bound) :
    EndsAt 1 c (Parser.bracesOf nested) (Parser.bracesOf nested') := by
  refine .tagged <| .enclosed fun c₁ hlt => .step (hn 0 (by omega)).uncounted fun first c₂ hle => ?_
  refine .check (fun _ _ => ?_) fun _ => ?_
  · exact .step (.uncounted <| .enclosed fun _ _ => listOf hn (by omega)) fun _ _ _ =>
      .step (expectEnd _) fun _ _ _ => .pure _
  · exact .step (followers (fun _ => comma _) (hn 0) (by omega)) fun _ _ _ => .pure _

theorem systemIdentifier : EndsAt 1 c Parser.systemIdentifier Parser.systemIdentifier := by
  have hinvalid {found : Token} {c : Cursor} : EndsAt (α := Site → Expr Site) 0 c (Parser.invalidInExpression found)
      (Parser.invalidInExpression found) := of_lands (.failed nofun)
  refine .tagged <| .lead (demandWith _ _) fun dollar c₁ _ => .current? (fun word rest hafter => ?_) hinvalid
  dsimp only
  split
  · exact .step (.uncounted <| advance? (List.ne_nil_iff_exists_cons.2 ⟨word, rest, hafter⟩)) fun _ _ _ => .pure _
  · exact hinvalid

theorem primaryOf (hn : NestedEnds bound nested nested') (hc : c.after.length ≤ bound) {token : Token}
    (hmore : c.after ≠ []) : EndsAt 1 c (Parser.primaryOf nested token) (Parser.primaryOf nested' token) := by
  have hinvalid : EndsAt (α := Expr Site) 1 c (Parser.invalidInExpression token)
      (Parser.invalidInExpression token) := of_lands (.failed nofun)
  unfold Parser.primaryOf
  split
  · exact .tagged <| .lead (.enclosed fun _ hlt => filling _ (hn 0 (by omega)).uncounted) fun _ _ _ => .pure _
  · exact bracesOf hn hc
  · refine look (m := Parser) (t := Parser.peekKind? 1) (s := c.peekKind? 1) rfl ?_
    split
    · refine .tagged <| .lead (advance? hmore) fun _ c₁ hlt => ?_
      exact .step (.uncounted <| .enclosed fun _ _ => listOf hn (by omega)) fun _ _ _ => .pure _
    · exact hinvalid
  · exact .tagged <| .lead (advance? hmore) fun _ _ _ => .pure _
  · exact .tagged <| .lead (advance? hmore) fun _ _ _ => .pure _
  · exact .lead systemIdentifier fun _ _ hlt => callOf hn (by omega) _
  · split
    · exact .lead (.tagged <| .lead (advance? hmore) fun _ _ _ => .pure _) fun _ _ hlt => callOf hn (by omega) _
    · exact hinvalid

theorem operandOf (hn : NestedEnds bound nested nested') (hc : c.after.length ≤ bound) :
    EndsAt 1 c (Parser.operandOf nested) (Parser.operandOf nested') := by
  refine .current? (fun token rest hafter => ?_) (unexpectedEnd _)
  have hmore : c.after ≠ [] := List.ne_nil_iff_exists_cons.2 ⟨token, rest, hafter⟩
  dsimp only
  split
  · exact .tagged <| .lead (advance? hmore) fun _ c₁ hlt =>
      .step (hn _ (by omega)).uncounted fun _ _ _ => .pure _
  · exact primaryOf hn hc hmore

/-! ### Connectives -/

theorem selectorOf (hn : NestedEnds bound nested nested') (hc : c.after.length < bound) (target : Expr Site) :
    EndsAt 0 c (Parser.selectorOf nested target) (Parser.selectorOf nested' target) := by
  refine .step (hn 0 hc).uncounted fun first c₁ hle => .current? (fun separator rest hafter => ?_) (.pure _)
  dsimp only
  split
  · exact unexpected _ _
  · refine .step (.uncounted <| advance? (List.ne_nil_iff_exists_cons.2 ⟨separator, rest, hafter⟩)) fun _ _ _ => ?_
    exact .step (filling _ (hn 0 (by omega)).uncounted) fun _ _ _ => .pure _

theorem assignmentOf (hn : NestedEnds bound nested nested') (hc : c.after.length < bound) (op : AssignOp)
    (target : Expr Site) :
    EndsAt 0 c (Parser.assignmentOf nested op target) (Parser.assignmentOf nested' op target) := by
  refine .check (fun _ _ => ?_) fun _ => ?_
  · exact .step (delayOf hn (by omega)).uncounted fun _ _ _ => .step (hn _ (by omega)).uncounted fun _ _ _ => .pure _
  · exact .step (hn _ hc).uncounted fun _ _ _ => .pure _

theorem connectiveOf (hn : NestedEnds bound nested nested') (hc : c.after.length ≤ bound) (k : Connective)
    (lhs : Expr Site) (hmore : c.after ≠ []) :
    EndsAt 1 c (Parser.connectiveOf nested k lhs) (Parser.connectiveOf nested' k lhs) := by
  cases k with
  | select => exact .enclosed fun _ hlt => selectorOf hn (by omega) lhs
  | scope => exact .lead (advance? hmore) fun _ _ _ => .step name.uncounted fun _ _ _ => .pure _
  | member => exact .lead (advance? hmore) fun _ _ _ => .step name.uncounted fun _ _ _ => .pure _
  | postfixOp op => exact .lead (advance? hmore) fun _ _ _ => .pure _
  | conditional =>
    exact .lead (advance? hmore) fun _ c₁ hlt => .step (hn _ (by omega)).uncounted fun _ _ _ =>
      .step (expectAs _ _).uncounted fun _ c₃ _ => .step (hn _ (by omega)).uncounted fun _ _ _ => .pure _
  | assignment op => exact .lead (advance? hmore) fun _ _ hlt => assignmentOf hn (by omega) op lhs
  | binary op =>
    exact .lead (advance? hmore) fun _ c₁ hlt => .step (hn _ (by omega)).uncounted fun _ _ _ => .pure _

/-- Every turn of the loop reads a connective, which is the next token. -/
theorem climbUpTo (hn : NestedEnds bound nested nested') (hc : c.after.length ≤ bound) (reading : LessEqualReading)
    (floor : Nat) {l l' : Nat} (hl : c.after.length ≤ l) (hl' : c.after.length ≤ l') (lhs : Expr Site) :
    EndsAt 0 c (Parser.climbUpTo nested reading floor l lhs) (Parser.climbUpTo nested' reading floor l' lhs) := by
  have hquiet {lhs : Expr Site} {l : Nat} {c : Cursor} {nested : Nested} (hafter : c.after = []) :
      Parser.climbUpTo nested reading floor l lhs c = .ok (lhs, c) := by
    cases l with
    | zero =>
      rw [Parser.climbUpTo, atEnd_bind, Cursor.atEnd_eq_true_iff.2 hafter]
      rfl
    | succ l =>
      rw [Parser.climbUpTo, currentKind?_bind, Cursor.currentKind?, Cursor.current?, hafter]
      rfl
  refine of_turns (p := Parser.climbUpTo nested reading floor) (q := Parser.climbUpTo nested' reading floor) ?_ ?_ lhs
    hl hl'
  · intro l l' lhs c hafter ns
    show (_, ns) = (_, ns) ∧ c.Lands 0 (Parser.climbUpTo nested reading floor l lhs c)
    rw [hquiet hafter, hquiet hafter]
    exact ⟨rfl, .read lhs (Nat.le_refl 0) (Nat.zero_le _)⟩
  · intro l l' lhs c hmore hle hrest
    refine look (m := Parser) (t := Parser.currentKind?) (s := c.currentKind?) rfl ?_
    dsimp only
    split
    · exact .pure lhs
    · split
      · exact .pure lhs
      · refine .uncounted <| .lead (connectiveOf hn (by omega) _ lhs hmore) fun node c₁ hlt => ?_
        exact .step (since _) fun site c₂ hle' => hrest (node site) c₂ (by omega)

theorem climb (hn : NestedEnds bound nested nested') (hc : c.after.length ≤ bound) (reading : LessEqualReading)
    (floor : Nat) (lhs : Expr Site) :
    EndsAt 0 c (Parser.climb nested reading floor lhs) (Parser.climb nested' reading floor lhs) :=
  climbUpTo hn hc reading floor (Nat.le_refl _) (Nat.le_refl _) lhs

theorem expressionOf (hn : NestedEnds bound nested nested') (hc : c.after.length ≤ bound)
    (reading : LessEqualReading) (floor : Nat) :
    EndsAt 1 c (Parser.expressionOf nested reading floor) (Parser.expressionOf nested' reading floor) :=
  .lead (operandOf hn hc) fun lhs _ hlt => climb hn (by omega) reading floor lhs

end EndsAt

/-! ### Whole expressions -/

namespace Parser

/-- The recursion of expressions: the outermost expression has its own reading of `<=`, and in all others it
compares. -/
def expressionStep (reader : LessEqualReading × Nat → Parser (Expr Site)) (i : LessEqualReading × Nat) :
    Parser (Expr Site) :=
  expressionOf (fun floor => reader (.compares, floor)) i.1 i.2

theorem expressionStep_founded : Founded expressionStep :=
  fun _ _ _ hinner i => .expressionOf (fun floor => hinner (.compares, floor)) (Nat.le_refl _) i.1 i.2

/-- Reads an expression with the budget that the tokens left give. -/
def expressionFrom (i : LessEqualReading × Nat) : Parser (Expr Site) := fun c =>
  expressionWithin (budget c) i.1 i.2 c

theorem expressionFrom_solves (i : LessEqualReading × Nat) : expressionFrom i = expressionStep expressionFrom i :=
  expressionStep_founded.solved (r := fun n i => expressionWithin n i.1 i.2) (fun _ => rfl) (fun _ _ _ => rfl) i

end Parser

namespace EndsAt

/-- Two budgets of more nestings than tokens are as good as each other. -/
theorem expressionWithin {n n' : Nat} (hn : c.after.length < n) (hn' : c.after.length < n')
    (reading : LessEqualReading) (floor : Nat) :
    EndsAt 1 c (Parser.expressionWithin n reading floor) (Parser.expressionWithin n' reading floor) :=
  expressionStep_founded.of_budget (r := fun n i => Parser.expressionWithin n i.1 i.2) (fun _ => rfl) hn hn'
    (reading, floor)

theorem nestedEnds {n : Nat} (reading : LessEqualReading) :
    NestedEnds n (Parser.expressionWithin n reading) (Parser.expressionWithin n reading) :=
  fun floor _ hlt => expressionWithin hlt hlt reading floor

/-- The budget that the tokens left give is enough. -/
theorem expressionFrom (i : LessEqualReading × Nat) : EndsAt 1 c (Parser.expressionFrom i) (Parser.expressionFrom i) :=
  of_length (p := fun n => Parser.expressionWithin (n + 1) i.1 i.2)
    (q := fun n => Parser.expressionWithin (n + 1) i.1 i.2)
    (expressionWithin (Nat.lt_succ_self _) (Nat.lt_succ_self _) i.1 i.2)

theorem expression : EndsAt 1 c Parser.expression Parser.expression := expressionFrom (.compares, 0)

theorem statementExpression : EndsAt 1 c Parser.statementExpression Parser.statementExpression :=
  expressionFrom (.assigns, 0)

theorem operand : EndsAt 1 c Parser.operand Parser.operand := expressionFrom (.compares, prefixPower)

theorem expressionList : EndsAt 0 c Parser.expressionList Parser.expressionList :=
  of_length (p := fun n => Parser.listOf (Parser.expressionWithin (n + 1) .compares))
    (q := fun n => Parser.listOf (Parser.expressionWithin (n + 1) .compares))
    (listOf (nestedEnds .compares) (Nat.lt_succ_self _))

theorem delay : EndsAt 1 c Parser.delay Parser.delay :=
  of_length (p := fun n => Parser.delayOf (Parser.expressionWithin (n + 1) .compares))
    (q := fun n => Parser.delayOf (Parser.expressionWithin (n + 1) .compares))
    (delayOf (nestedEnds .compares) (Nat.le_succ _))

end EndsAt

end SystemVerilog
