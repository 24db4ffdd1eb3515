import SystemVerilog.Proofs.Narrowing.Declarations
import SystemVerilog.Proofs.Ranges.Statements

/-!
# Statements do not depend on what stands behind them

What a statement reader reads from a span it reads from every shorter span that holds it, and with any budget of as
many nestings as there are tokens. Only the outermost part of a statement can reach the end of its span: what stands
between brackets or closing words, or before a semicolon, is read from a span of its own, which every cut keeps.
-/

namespace SystemVerilog

open SystemVerilog.Parser

namespace KeepsAt

variable {m : Type → Type} [Monad m] [MonadStateOf Cursor m] [MonadLiftT Parser m] [Reader m]
  {α β : Type} {bound : Nat} {c : Cursor}

/-- A parser that lays anything out moves forward. -/
theorem of_lays {p : Parser α} {out : α → List Outline} (h : ∀ ts, Lays ts c p out) : KeepsAt bound c p p := by
  intro a c' hread
  obtain ⟨ts, hc⟩ := c.exists_sees
  obtain ⟨os, hos, -⟩ := h ts hc hread
  obtain ⟨k, hk⟩ := hos.moved
  exact ⟨k, hk, fun _ => hread⟩

theorem bottomless : KeepsAt bound c (Parser.bottomless : Parser α) Parser.bottomless :=
  fun _ _ hread => absurd hread bottomless_ne_ok

theorem atEnd : KeepsAt bound c Parser.atEnd Parser.atEnd := of_lays fun _ => .atEnd

theorem defaultLabel (seen : Bool) : KeepsAt bound c (Parser.defaultLabel seen) (Parser.defaultLabel seen) :=
  of_lays fun _ => (Gathers.defaultLabel seen).mono fun _ _ h => h.1

/-! ### Up to the end of the span -/

variable {p q : m α} (hp : ∀ c, KeepsAt bound c p q)

include hp

theorem untilEndUpTo (n : Nat) :
    KeepsAt bound c (SystemVerilog.untilEndUpTo p n) (SystemVerilog.untilEndUpTo q n) := by
  induction n generalizing c with
  | zero =>
    refine bind (lift atEnd) fun _ _ => ?_
    split
    · exact pure _
    · exact lift bottomless
  | succ n ih =>
    refine bind (lift atEnd) fun _ _ => ?_
    split
    · exact pure _
    · exact bind (hp _) fun _ _ => bind ih fun _ _ => pure _

theorem untilEnd : KeepsAt bound c (SystemVerilog.untilEnd p) (SystemVerilog.untilEnd q) := get (untilEndUpTo hp _)

theorem caseItemsUpTo (n : Nat) (fallback : Option α) :
    KeepsAt bound c (SystemVerilog.caseItemsUpTo p n fallback) (SystemVerilog.caseItemsUpTo q n fallback) := by
  induction n generalizing c fallback with
  | zero =>
    refine bind (lift atEnd) fun _ _ => ?_
    split
    · exact pure _
    · exact lift bottomless
  | succ n ih =>
    refine bind (lift atEnd) fun _ _ => ?_
    split
    · exact pure _
    · refine bind (lift (defaultLabel _)) fun _ _ => ?_
      split
      · exact bind (hp _) fun _ _ => ih _
      · refine bind (tagged <| bind (lift (of_lays fun _ => .caseLabels)) fun _ _ => ?_) fun _ _ => ?_
        · exact bind (hp _) fun _ _ => pure _
        · exact bind (ih _) fun _ _ => pure _

theorem caseItems : KeepsAt bound c (SystemVerilog.caseItems p) (SystemVerilog.caseItems q) :=
  get (caseItemsUpTo hp _ none)

end KeepsAt

namespace NarrowsAt

variable {α : Type} {bound : Nat} {c : Cursor} {s s' : Parser (Statement Site)}

/-! ### Parts without statements -/

theorem enclosed_self {opening closing : TokenKind} (p : Parser α) :
    NarrowsAt bound 1 c (SystemVerilog.enclosed opening closing p) (SystemVerilog.enclosed opening closing p) :=
  .enclosed_of fun _ _ _ _ hread => hread

/-- A cut that keeps the semicolon keeps what stands before it. -/
theorem beforeSemicolon_of {least : Nat} (p : Parser α)
    (hleast : ∀ n, distanceTo? (.op .semicolon) c.after = some n → least ≤ n + 1) :
    NarrowsAt bound least c (Parser.beforeSemicolon p) (Parser.beforeSemicolon p) := by
  intro a c' hread
  obtain ⟨part, c₁, hpart, hrest⟩ := bind_eq_ok.1 hread
  obtain ⟨n, hn, rfl, rfl⟩ := spanBefore_inv hpart
  obtain ⟨⟨c₂, hinner⟩, rfl⟩ := within_eq_ok.1 hrest
  have hlt : n < c.after.length := (List.findIdx?_eq_some_iff_findIdx_eq.1 hn).1
  refine ⟨n + 1, hleast n hn, hlt, rfl, fun l hl _ _ => ?_⟩
  have hfound : distanceTo? (.op .semicolon) (c.cut l).after = some n := by
    unfold distanceTo? at hn ⊢
    rw [Cursor.cut_after, List.findIdx?_take, hn, Option.bind_some, Option.guard_eq_some_iff]
    exact ⟨rfl, decide_eq_true hl⟩
  have hspan : spanBefore (distanceTo? (.op .semicolon)) (TokenKind.op .semicolon).describe (c.cut l) =
      .ok (c.ahead n, (c.cut l).skip (n + 1)) := by
    rw [spanBefore, hfound]
    dsimp only
    rw [Cursor.cut_ahead (Nat.le_of_lt hl)]
  exact bind_eq_ok.2 ⟨_, _, hspan, within_eq_ok.2 ⟨⟨c₂, hinner⟩, rfl⟩⟩

theorem beforeSemicolon (p : Parser α) :
    NarrowsAt bound 1 c (Parser.beforeSemicolon p) (Parser.beforeSemicolon p) :=
  beforeSemicolon_of p fun n _ => Nat.le_add_left 1 n

theorem endLabel (opening : Option String) :
    NarrowsAt bound 0 c (Parser.endLabel opening) (Parser.endLabel opening) :=
  .step (eat? _) fun colon c₁ => by
    cases colon with
    | none => exact .pure ()
    | some colon =>
      refine .step (demandWith _ _).uncounted fun label c₂ => ?_
      split
      · exact .of_error fun _ _ => fail_ne_ok
      · split
        · exact .pure ()
        · exact .of_error fun _ _ => fail_ne_ok

theorem condition : NarrowsAt bound 1 c Parser.condition Parser.condition := enclosed_self _

theorem loopHeader : NarrowsAt bound 1 c Parser.loopHeader Parser.loopHeader := .tagged (enclosed_self _)

theorem operand : NarrowsAt bound 1 c Parser.operand Parser.operand :=
  of_length (p := fun n => Parser.expressionWithin (n + 1) .compares prefixPower)
    (q := fun n => Parser.expressionWithin (n + 1) .compares prefixPower) fun _ _ =>
      expressionWithin _ (Nat.le_succ _) .compares prefixPower

theorem delay : NarrowsAt bound 1 c Parser.delay Parser.delay :=
  of_length (p := fun n => Parser.delayOf (Parser.expressionWithin (n + 1) .compares))
    (q := fun n => Parser.delayOf (Parser.expressionWithin (n + 1) .compares)) fun n _ =>
      delayOf fun _ _ => expressionWithin _ (by omega) .compares _

theorem sensitivity : NarrowsAt bound 1 c Parser.sensitivity Parser.sensitivity := by
  refine .tagged <| .lead (expectAs _ _) fun _ _ => .step (eat _) fun star c₁ => ?_
  split
  · exact .pure _
  · refine .check (fun _ => enclosed_self _) ?_
    exact .step (uncounted <| .tagged <| .lead operand fun _ _ => .pure _) fun _ _ => .pure _

theorem emptyStatement (h : c.after ≠ []) : NarrowsAt bound 1 c Parser.emptyStatement Parser.emptyStatement :=
  .tagged <| .lead (advance? h) fun _ _ => .pure _

theorem expressionStatement : NarrowsAt bound 1 c Parser.expressionStatement Parser.expressionStatement :=
  .tagged (beforeSemicolon _)

/-! ### Statements -/

section Nested

variable (hs : ∀ c, NarrowsAt (bound - 1) 1 c s s')

include hs

theorem blockOf : NarrowsAt bound 1 c (Parser.blockOf s) (Parser.blockOf s') := by
  refine .tagged <| .lead (.enclosed_of_keeps fun _ => ?_) fun _ _ => .step (endLabel _) fun _ _ => .pure _
  exact .bind (.of_lays fun _ => .blockLabel) fun _ _ => .bind (.untilEnd fun c => (hs c).keeps) fun _ _ => .pure _

theorem ifElseOf : NarrowsAt bound 1 c (Parser.ifElseOf s) (Parser.ifElseOf s') := by
  refine .tagged <| .lead (expectAs _ _) fun _ _ => .step condition.uncounted fun _ _ =>
    .step (hs _).uncounted fun _ _ => .step (eat _) fun _ _ => ?_
  split
  · exact .step (hs _).uncounted fun _ _ => .pure _
  · exact .pure _

theorem caseOf (kind : CaseKind) : NarrowsAt bound 1 c (Parser.caseOf s kind) (Parser.caseOf s' kind) :=
  .tagged <| .enclosed_of_keeps fun _ => .bind condition.keeps fun _ _ =>
    .bind (.caseItems fun c => (hs c).keeps) fun _ _ => .pure _

theorem loopOf : NarrowsAt bound 1 c (Parser.loopOf s) (Parser.loopOf s') :=
  .tagged <| .lead (expectAs _ _) fun _ _ => .step loopHeader.uncounted fun _ _ => .step (hs _).uncounted fun _ _ =>
    .pure _

theorem delayedOf : NarrowsAt bound 1 c (Parser.delayedOf s) (Parser.delayedOf s') :=
  .tagged <| .lead delay fun _ _ => .step (hs _).uncounted fun _ _ => .pure _

theorem eventOf : NarrowsAt bound 1 c (Parser.eventOf s) (Parser.eventOf s') :=
  .tagged <| .lead sensitivity fun _ _ => .step (hs _).uncounted fun _ _ => .pure _

/-- Every form of statement holds a token, so the look at the first one is the same from every cut. -/
theorem statementOf : NarrowsAt bound 1 c (Parser.statementOf s) (Parser.statementOf s') := by
  refine look (fun _ => rfl) (fun _ hn _ => Cursor.cut_currentKind? hn) (absurd · Nat.one_ne_zero) ?_
  cases hkind : c.currentKind? with
  | none => exact .of_error fun _ _ => unexpectedEnd_ne_ok
  | some kind =>
    dsimp only
    split
    · exact caseOf hs _
    · split
      · exact blockOf hs
      · exact ifElseOf hs
      · exact loopOf hs
      · exact delayedOf hs
      · exact eventOf hs
      · obtain ⟨t, rest, hafter, -⟩ := Cursor.after_of_kind hkind
        exact emptyStatement (List.ne_nil_iff_exists_cons.2 ⟨t, rest, hafter⟩)
      · exact expressionStatement

end Nested

/-- A budget of as many nestings as a cut has tokens is enough for what is read from it. -/
theorem statementWithin (budget : Nat) {budget' : Nat} (h : bound ≤ budget') :
    NarrowsAt bound 1 c (Parser.statementWithin budget) (Parser.statementWithin budget') := by
  induction budget generalizing bound c budget' with
  | zero => exact .of_error nofun
  | succ budget ih =>
    cases budget' with
    | zero => exact (statementOf fun _ => ih (Nat.le_refl _)).starved (by omega)
    | succ budget' => exact statementOf fun _ => ih (by omega)

theorem statement : NarrowsAt bound 1 c Parser.statement Parser.statement :=
  of_length (p := fun n => Parser.statementWithin (n + 1)) (q := fun n => Parser.statementWithin (n + 1))
    fun _ _ => statementWithin _ (Nat.le_succ _)

end NarrowsAt

/-- With any budget of as many nestings as tokens, the same statement is read. -/
theorem Parser.statementWithin_of_budget {budget budget' : Nat} {s : Statement Site} {c c' : Cursor}
    (hread : statementWithin budget c = .ok (s, c')) (h : c.after.length ≤ budget') :
    statementWithin budget' c = .ok (s, c') := by
  obtain ⟨-, -, hagain⟩ := (NarrowsAt.statementWithin budget h).keeps hread
  exact hagain (Nat.le_refl _)

end SystemVerilog
