import SystemVerilog.Proofs.Expression.Climbing
import SystemVerilog.Proofs.Narrowing.Judgement
import SystemVerilog.Proofs.Reading.Choices

/-!
# Expressions do not depend on what stands behind them

What an expression reader reads from a span it reads from every shorter span that holds it. A cut of the span
needs a budget of no more nestings than it has tokens.
-/

namespace SystemVerilog

open SystemVerilog.Parser

/-- Every nested expression holds a token, and is read alike within the bound. -/
def NestedNarrows (bound : Nat) (nested nested' : Nested) : Prop :=
  ∀ floor c, NarrowsAt bound 1 c (nested floor) (nested' floor)

variable {bound : Nat} {c : Cursor} {nested nested' : Nested}

theorem NestedNarrows.mono {bound' : Nat} (hn : NestedNarrows bound nested nested') (h : bound' ≤ bound) :
    NestedNarrows bound' nested nested' := fun floor c => (hn floor c).mono h (Nat.le_refl 1)

namespace NarrowsAt

/-! ### Lists and delays -/

theorem listOf (hn : NestedNarrows bound nested nested') :
    NarrowsAt bound 0 c (Parser.listOf nested) (Parser.listOf nested') :=
  .atEnd (fun _ => .pure []) fun _ => listBy (fun _ _ => comma _) (hn 0)

/-- The unit of a delay is told from the last token before it and from itself. -/
theorem delayUnit : NarrowsAt bound 0 c Parser.delayUnit Parser.delayUnit :=
  of_option delayUnit_eq fun last? => by cases last? <;> rfl

theorem delayOf (hn : NestedNarrows (bound - 1) nested nested') :
    NarrowsAt bound 1 c (Parser.delayOf nested) (Parser.delayOf nested') :=
  .tagged <| .lead (expectAs _ _) fun _ c₁ => .step (hn _ c₁).uncounted fun _ _ =>
    .step delayUnit fun _ _ => .pure _

/-! ### Operands -/

theorem callOf (hn : NestedNarrows (bound - 1) nested nested') (callee : Expr Site) :
    NarrowsAt bound 0 c (Parser.callOf nested callee) (Parser.callOf nested' callee) := by
  refine .check (fun _ => ?_) (.pure callee)
  refine .lead (.tagged <| .lead (.enclosed fun _ => listOf hn) fun _ _ => .pure _) fun r _ => ?_
  exact .step (since _) fun _ _ => .pure _

theorem bracesOf (hn : NestedNarrows (bound - 1) nested nested') :
    NarrowsAt bound 1 c (Parser.bracesOf nested) (Parser.bracesOf nested') := by
  refine .tagged <| .enclosed fun c₁ => .step (hn 0 c₁).uncounted fun first c₂ => ?_
  refine .check (fun _ => ?_) ?_
  · exact .lead (.enclosed fun _ => listOf (hn.mono (Nat.sub_le _ 1))) fun _ _ =>
      .step (expectEnd _) fun _ _ => .pure _
  · exact .step (followers (fun _ _ => comma _) fun c => (hn 0 c).uncounted) fun _ _ =>
      .pure _

theorem systemIdentifier : NarrowsAt bound 1 c Parser.systemIdentifier Parser.systemIdentifier := by
  refine .tagged <| .lead (demandWith _ _) fun dollar c₁ => .current? (Nat.zero_le 1) (fun t rest hafter => ?_)
    fun _ => .of_error nofun
  dsimp only
  split
  · exact .lead (advance? (List.ne_nil_iff_exists_cons.2 ⟨t, rest, hafter⟩)) fun _ _ => .pure _
  · exact .of_error nofun

theorem primaryOf (hn : NestedNarrows (bound - 1) nested nested') {token : Token} (hc : c.after ≠ []) :
    NarrowsAt bound 1 c (Parser.primaryOf nested token) (Parser.primaryOf nested' token) := by
  unfold Parser.primaryOf
  split
  · exact .tagged <| .lead (.enclosed fun _ => filling _ (hn 0 _).uncounted) fun _ _ =>
      .pure _
  · exact bracesOf hn
  · refine (peekKind? ?_).mono (Nat.le_refl _) (Nat.le_succ 1)
    split
    · exact .tagged <| .lead (advance? hc) fun _ _ =>
        .lead (.enclosed fun _ => listOf (hn.mono (Nat.sub_le _ 1))) fun _ _ => .pure _
    · exact .of_error nofun
  · exact .tagged <| .lead (advance? hc) fun _ _ => .pure _
  · exact .tagged <| .lead (advance? hc) fun _ _ => .pure _
  · exact .lead systemIdentifier fun _ _ => callOf (hn.mono (Nat.sub_le _ 1)) _
  · split
    · exact .lead (.tagged <| .lead (advance? hc) fun _ _ => .pure _) fun _ _ => callOf (hn.mono (Nat.sub_le _ 1)) _
    · exact .of_error nofun

theorem operandOf (hn : NestedNarrows (bound - 1) nested nested') :
    NarrowsAt bound 1 c (Parser.operandOf nested) (Parser.operandOf nested') := by
  refine .current? (Nat.le_refl 1) (fun token rest hafter => ?_) fun _ => .of_error fun _ _ => unexpectedEnd_ne_ok
  have hc : c.after ≠ [] := List.ne_nil_iff_exists_cons.2 ⟨token, rest, hafter⟩
  dsimp only
  split
  · exact .tagged <| .lead (advance? hc) fun _ c₁ =>
      .step (hn _ c₁).uncounted fun _ _ => .pure _
  · exact primaryOf hn hc

/-! ### Connectives -/

theorem selectorOf (hn : NestedNarrows bound nested nested') (target : Expr Site) :
    NarrowsAt bound 0 c (Parser.selectorOf nested target) (Parser.selectorOf nested' target) := by
  have hnested (floor : Nat) (c : Cursor) : NarrowsAt bound 0 c (nested floor) (nested' floor) :=
    (hn floor c).uncounted
  refine .step (hnested 0 c) fun first c₁ => .current? (Nat.zero_le 1) (fun separator rest hafter => ?_) fun _ =>
    .pure _
  dsimp only
  split
  · exact .of_error fun _ _ => unexpected_ne_ok
  · refine .lead (advance? (List.ne_nil_iff_exists_cons.2 ⟨separator, rest, hafter⟩)) fun _ c₃ => ?_
    exact .step ((filling _ (hnested 0 c₃)).mono (Nat.sub_le _ 1) (Nat.le_refl 0)) fun _ _ => .pure _

theorem assignmentOf (hn : NestedNarrows bound nested nested') (op : AssignOp) (target : Expr Site) :
    NarrowsAt bound 0 c (Parser.assignmentOf nested op target) (Parser.assignmentOf nested' op target) := by
  have hvalue (bound' : Nat) (hle : bound' ≤ bound) (c : Cursor) :
      NarrowsAt bound' 0 c (nested (assignPower - 1)) (nested' (assignPower - 1)) :=
    (hn _ c).mono hle (Nat.zero_le 1)
  refine .check (fun _ => ?_) ?_
  · exact .lead (delayOf (hn.mono (Nat.sub_le _ 1))) fun _ c₁ => .step (hvalue _ (Nat.sub_le _ 1) c₁) fun _ _ => .pure _
  · exact .step (hvalue bound (Nat.le_refl _) c) fun _ _ => .pure _

theorem connectiveOf (hn : NestedNarrows (bound - 1) nested nested') (k : Connective) (lhs : Expr Site)
    (hc : c.after ≠ []) :
    NarrowsAt bound 1 c (Parser.connectiveOf nested k lhs) (Parser.connectiveOf nested' k lhs) := by
  have hnested (floor : Nat) (c : Cursor) : NarrowsAt (bound - 1) 0 c (nested floor) (nested' floor) :=
    (hn floor c).uncounted
  cases k with
  | select => exact .enclosed fun _ => selectorOf hn lhs
  | scope => exact .lead (advance? hc) fun _ _ => .step name.uncounted fun _ _ => .pure _
  | member => exact .lead (advance? hc) fun _ _ => .step name.uncounted fun _ _ => .pure _
  | postfixOp op => exact .lead (advance? hc) fun _ _ => .pure _
  | conditional =>
    exact .lead (advance? hc) fun _ c₁ => .step (hnested 0 c₁) fun _ _ =>
      .step (expectAs _ _).uncounted fun _ c₃ => .step (hnested _ c₃) fun _ _ => .pure _
  | assignment op => exact .lead (advance? hc) fun _ _ => assignmentOf hn op lhs
  | binary op => exact .lead (advance? hc) fun _ c₁ => .step (hnested _ c₁) fun _ _ => .pure _

/-- The loop reads the same connectives, however many more it might have read. -/
theorem climbUpTo (hn : NestedNarrows (bound - 1) nested nested') (reading : LessEqualReading) (floor : Nat)
    {l l' : Nat} (hl : bound ≤ l') (lhs : Expr Site) : NarrowsAt bound 0 c
      (Parser.climbUpTo nested reading floor l lhs) (Parser.climbUpTo nested' reading floor l' lhs) := by
  intro e c' hread
  replace hread := climbUpTo_eq_ok.1 hread
  induction hread generalizing bound l' with
  | stop hquiet _ =>
    exact ⟨0, Nat.le_refl 0, Nat.zero_le _, rfl, fun n _ hb hle =>
      climbUpTo_stop (hquiet.take n) (by rw [Cursor.cut_length hle]; omega)⟩
  | @turn _ t rest k node lhs e c c₁ c' hafter hk hfloor hnode _ ih =>
    have hne : c.after ≠ [] := List.ne_nil_iff_exists_cons.2 ⟨t, rest, hafter⟩
    obtain ⟨i, hi, hlen, rfl, hconnective⟩ := connectiveOf hn k lhs hne hnode
    have hl' : bound - 1 ≤ l' - 1 := Nat.sub_le_sub_right hl 1
    obtain ⟨j, -, hlen', rfl, hloop⟩ := ih (hn.mono (Nat.sub_le _ 1)) hl'
    rw [Cursor.skip_after, List.length_drop] at hlen' hloop
    refine ⟨i + j, Nat.zero_le _, by omega, Cursor.skip_skip i j c, fun n hn hb hle => ?_⟩
    obtain ⟨l', rfl⟩ : ∃ l, l' = l + 1 := ⟨l' - 1, by omega⟩
    obtain ⟨n, rfl⟩ : ∃ l, n = l + 1 := ⟨n - 1, by omega⟩
    have hnext : (c.cut (n + 1)).after = t :: rest.take n := by rw [Cursor.cut_after, hafter, List.take_succ_cons]
    have hgrown : grown lhs node ((c.cut (n + 1)).skip i) = grown lhs node (c.skip i) := by
      rw [grown, grown, Cursor.cut_skip_position (by omega)]
    have hloop' := hloop (n + 1 - i) (by omega) (by omega) (by omega)
    rw [← Cursor.cut_skip (by omega), Cursor.skip_skip] at hloop'
    refine (climbUpTo_connective hnext hk hfloor (hconnective (n + 1) (by omega) hb hle)).trans ?_
    rw [hgrown]
    exact hloop'

theorem climb (hn : NestedNarrows (bound - 1) nested nested') (reading : LessEqualReading) (floor : Nat)
    (lhs : Expr Site) :
    NarrowsAt bound 0 c (Parser.climb nested reading floor lhs) (Parser.climb nested' reading floor lhs) :=
  of_length (p := fun n => Parser.climbUpTo nested reading floor n lhs)
    (q := fun n => Parser.climbUpTo nested' reading floor n lhs) fun n hle =>
      climbUpTo (hn.mono (by omega)) reading floor (Nat.le_refl n) lhs

theorem expressionOf (hn : NestedNarrows (bound - 1) nested nested') (reading : LessEqualReading) (floor : Nat) :
    NarrowsAt bound 1 c (Parser.expressionOf nested reading floor) (Parser.expressionOf nested' reading floor) :=
  .lead (operandOf hn) fun lhs _ => climb (hn.mono (Nat.sub_le _ 1)) reading floor lhs

/-! ### Whole expressions -/

/-- A budget of as many nestings as a cut has tokens is enough for what is read from it. -/
theorem expressionWithin (budget : Nat) {budget' : Nat} (h : bound ≤ budget') (reading : LessEqualReading)
    (floor : Nat) : NarrowsAt bound 1 c (Parser.expressionWithin budget reading floor)
      (Parser.expressionWithin budget' reading floor) := by
  induction budget generalizing bound c budget' reading floor with
  | zero => exact .of_error nofun
  | succ budget ih =>
    cases budget' with
    | zero => exact (expressionOf (fun _ _ => ih (Nat.le_refl _) .compares _) reading floor).starved (by omega)
    | succ budget' => exact expressionOf (fun _ _ => ih (by omega) .compares _) reading floor

end NarrowsAt

/-- With any budget of as many nestings as tokens, the same expression is read. -/
theorem Parser.expressionWithin_of_budget {budget budget' floor : Nat} {reading : LessEqualReading} {e : Expr Site}
    {c' : Cursor} (hread : expressionWithin budget reading floor c = .ok (e, c')) (h : c.after.length ≤ budget') :
    expressionWithin budget' reading floor c = .ok (e, c') := by
  obtain ⟨-, -, hagain⟩ := (NarrowsAt.expressionWithin budget h reading floor).keeps hread
  exact hagain (Nat.le_refl _)

end SystemVerilog
