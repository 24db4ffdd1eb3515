import SystemVerilog.Proofs.Concatenation.Items
import SystemVerilog.Proofs.Narrowing.Expressions
import SystemVerilog.Proofs.Expression.Complete

/-!
# Expressions in front of more tokens

What is read from a span is read again if more tokens follow the span. A pair of brackets does not look behind
its closer, so an operand is read again unless its arguments could follow it, and so is what binds tightest. A
whole expression is read again in front of tokens that it cannot go on with (`Severs`): the loop over the
connectives stops at the end of the span, and then it stops at them too. So what a part of a span holds as an
expression (`Cursor.Holds`) is read from the whole span.
-/

namespace SystemVerilog

open SystemVerilog.Parser

/-! ### The judgement -/

/-- What the parser reads from the cursor it reads again in front of more tokens. -/
def WidensAt {α : Type} (more : List Token) (c : Cursor) (p : Parser α) : Prop :=
  ∀ ⦃a c'⦄, p c = .ok (a, c') → p (c.followedBy more) = .ok (a, c'.followedBy more)

namespace WidensAt

variable {α β : Type} {more : List Token} {c : Cursor} {p : Parser α}

theorem of_local (h : Local more p) : WidensAt more c p := fun _ _ hread => h hread

theorem of_error (h : ∀ a c', p c ≠ .ok (a, c')) : WidensAt more c p := fun a c' hread => absurd hread (h a c')

theorem pure (a : α) : WidensAt more c (Pure.pure a : Parser α) := of_local (.pure a)

theorem bind {f : α → Parser β} (hp : WidensAt more c p) (hf : ∀ a c₁, WidensAt more c₁ (f a)) :
    WidensAt more c (p >>= f) := by
  intro b c' hread
  obtain ⟨a, c₁, hreadp, hreadf⟩ := bind_eq_ok.1 hread
  exact bind_eq_ok.2 ⟨a, _, hp hreadp, hf a c₁ hreadf⟩

/-- Where there is a token, it gives the place of what is read. -/
theorem tagged {p : Parser (Site → α)} (hne : c.after ≠ []) (hp : WidensAt more c p) :
    WidensAt more c (SystemVerilog.tagged p) := by
  intro a c' hread
  obtain ⟨node, hnode, rfl⟩ := tagged_eq_ok.1 hread
  refine tagged_eq_ok.2 ⟨node, hp hnode, ?_⟩
  rw [Cursor.followedBy_location hne]
  rfl

theorem since (first : Site) : WidensAt more c (Parser.since first) := by
  intro s c' hread
  cases hread
  rfl

/-! ### Looking -/

theorem current? {f : Option Token → Parser β}
    (hsome : ∀ t rest, c.after = t :: rest → WidensAt more c (f (some t))) (hnone : ∀ b c', f none c ≠ .ok (b, c')) :
    WidensAt more c (Parser.current? >>= f) := by
  intro b c' hread
  have hread' : f c.after.head? c = .ok (b, c') := hread
  cases hafter : c.after with
  | nil =>
    rw [hafter] at hread'
    exact absurd hread' (hnone b c')
  | cons t rest =>
    rw [hafter] at hread'
    show f (c.after ++ more).head? (c.followedBy more) = _
    rw [hafter]
    exact hsome t rest hafter hread'

/-- A kind that none of the further tokens has at the head is looked for with the same answer. -/
theorem check {kind : TokenKind} {f : Bool → Parser β} (hmore : ∀ t rest, more = t :: rest → t.kind ≠ kind)
    (hf : WidensAt more c (f (c.check kind))) : WidensAt more c (Parser.check kind >>= f) := by
  intro b c' hread
  have hsame : (c.followedBy more).check kind = c.check kind := by
    cases hafter : c.after with
    | nil =>
      have hout : c.check kind = false := Cursor.check_eq_false fun t rest ht => by
        rw [hafter] at ht
        cases ht
      rw [hout]
      exact Cursor.check_eq_false fun t rest ht => hmore t rest (by simpa [hafter] using ht)
    | cons t rest => simp [Cursor.check, Cursor.currentKind?, Cursor.current?, hafter]
  show f ((c.followedBy more).check kind) (c.followedBy more) = _
  rw [hsame]
  exact hf hread

/-! ### Reading -/

theorem advance? (hne : c.after ≠ []) : WidensAt more c Parser.advance? := by
  intro t c' hread
  cases hread
  cases hafter : c.after with
  | nil => exact absurd hafter hne
  | cons t rest =>
    have hskip : (c.followedBy more).skip 1 = (c.skip 1).followedBy more := Cursor.followedBy_skip (by simp [hafter])
    show Except.ok ((c.after ++ more).head?, (c.followedBy more).skip 1) = _
    rw [hskip, Cursor.current?, hafter]
    rfl

/-- A pair ends at its closer, whatever follows. -/
theorem enclosed (opening closing : TokenKind) (p : Parser α) :
    WidensAt more c (SystemVerilog.enclosed opening closing p) := by
  intro a c' hread
  obtain ⟨o, ts, cl, c₁, hsteps, ho, -, hn, hinner⟩ := enclosed_eq_ok hread
  have hafter : (c.followedBy more).after = o :: (ts ++ [cl] ++ c'.after ++ more) := by
    rw [Cursor.followedBy_after, hsteps.after]
    rfl
  have hlength : ts.length + 2 ≤ c.after.length := by
    rw [hsteps.after]
    simp
  have hinside : ts.length ≤ (c.skip 1).after.length := by
    rw [Cursor.skip_after, List.length_drop]
    omega
  refine (enclosed_eq_ok_of_found hafter ho (distanceToCloser?_append hn more)).2 ⟨⟨c₁, ?_⟩, ?_⟩
  · rw [Cursor.followedBy_skip (by omega), Cursor.followedBy_ahead hinside]
    exact hinner
  · rw [Cursor.followedBy_skip hlength, hsteps.eq_skip]
    simp

/-! ### Operands -/

section Operands

variable {nested : Nested}

theorem callOf (hmore : ∀ t rest, more = t :: rest → t.kind ≠ .op .lParen) (callee : Expr Site) :
    WidensAt more c (Parser.callOf nested callee) := by
  refine .check hmore ?_
  split
  · rename_i hopen
    obtain ⟨t, rest, hafter, -⟩ := Cursor.after_of_check hopen
    have hne : c.after ≠ [] := List.ne_nil_iff_exists_cons.2 ⟨t, rest, hafter⟩
    exact .bind (.tagged hne <| .bind (.enclosed _ _ _) fun _ _ => .pure _) fun _ _ =>
      .bind (.since _) fun _ _ => .pure _
  · exact .pure callee

theorem systemIdentifier (hne : c.after ≠ []) : WidensAt more c Parser.systemIdentifier := by
  refine .tagged hne <| .bind (of_local (.demandWith _ _)) fun dollar c₁ => .current? (fun t rest hafter => ?_) nofun
  dsimp only
  split
  · exact .bind (.advance? (List.ne_nil_iff_exists_cons.2 ⟨t, rest, hafter⟩)) fun _ _ => .pure _
  · exact .of_error nofun

/-- An operand without operators before it ends with a bracket or a word, unless arguments follow. -/
theorem primaryOf (hmore : ∀ t rest, more = t :: rest → t.kind ≠ .op .lParen) {token : Token} (hne : c.after ≠ []) :
    WidensAt more c (Parser.primaryOf nested token) := by
  unfold Parser.primaryOf
  split
  · exact .tagged hne <| .bind (.enclosed _ _ _) fun _ _ => .pure _
  · exact .tagged hne (.enclosed _ _ _)
  · intro e c' hread
    rw [peekKind?_bind] at hread
    split at hread
    · rename_i hbrace
      have hagain : (c.followedBy more).peekKind? 1 = some (.op .lBrace) := by
        rw [Cursor.peekKind?, Cursor.peek?] at hbrace ⊢
        obtain ⟨t, ht, hkind⟩ := Option.map_eq_some_iff.1 hbrace
        rw [Cursor.followedBy_after, List.getElem?_append_left (List.getElem?_eq_some_iff.1 ht).1, ht, Option.map_some,
          hkind]
      rw [peekKind?_bind, if_pos hagain]
      exact WidensAt.tagged hne (.bind (.advance? hne) fun _ _ => .bind (.enclosed _ _ _) fun _ _ => .pure _) hread
    · exact absurd hread fail_ne_ok
  · exact .tagged hne <| .bind (.advance? hne) fun _ _ => .pure _
  · exact .tagged hne <| .bind (.advance? hne) fun _ _ => .pure _
  · exact .bind (.systemIdentifier hne) fun _ _ => .callOf hmore _
  · split
    · exact .bind (.tagged hne <| .bind (.advance? hne) fun _ _ => .pure _) fun _ _ => .callOf hmore _
    · exact .of_error fun _ _ => fail_ne_ok

/-- What binds tightest ends with a bracket, a word or the operator itself. -/
theorem connectiveOf_tight {k : Connective} (hk : k.power = postfixPower) (lhs : Expr Site) (hne : c.after ≠ []) :
    WidensAt more c (Parser.connectiveOf nested k lhs) := by
  cases k with
  | select => exact .enclosed _ _ _
  | scope => exact .bind (.advance? hne) fun _ _ => .bind (of_local .name) fun _ _ => .pure _
  | member => exact .bind (.advance? hne) fun _ _ => .bind (of_local .name) fun _ _ => .pure _
  | postfixOp op => exact .bind (.advance? hne) fun _ _ => .pure _
  | conditional => cases hk
  | assignment op => cases hk
  | binary op => cases op <;> cases hk

end Operands

end WidensAt

/-! ### Whole expressions -/

/-- An expression that ends before these tokens cannot go on with them. -/
structure Severs (more : List Token) : Prop extends Stops 0 more where
  undelayed : ∀ t rest, more = t :: rest → t.kind ≠ .op .sharp
  unitless : ∀ t rest, more = t :: rest → TimeUnit.ofKind? t.kind = none

/-- A colon separates the expressions on both its sides. -/
theorem Severs.of_colon {m : Token} {us : List Token} (hm : m.kind = .op .colon) : Severs (m :: us) where
  toStops := .of_kind (by rw [hm]; rfl) (by rw [hm]; decide)
  undelayed t rest h := by
    obtain ⟨rfl, -⟩ := List.cons.inj h
    rw [hm]
    decide
  unitless t rest h := by
    obtain ⟨rfl, -⟩ := List.cons.inj h
    rw [hm]
    rfl

theorem Quiet.append {reading : LessEqualReading} {floor : Nat} {ts more : List Token} (h : Quiet reading floor ts)
    (hmore : Quiet .compares 0 more) : Quiet reading floor (ts ++ more) := by
  cases ts with
  | nil => exact (Quiet.of_compares hmore).mono (Nat.zero_le floor)
  | cons t ts =>
    intro u us k hu hk
    obtain ⟨rfl, -⟩ := List.cons.inj hu
    exact h t ts k rfl hk

namespace WidensAt

variable {more : List Token} {c : Cursor} {nested : Nested}

/-- A unit stands behind its magnitude, or the next token is none. -/
theorem delayUnit (hmore : Severs more) : WidensAt more c Parser.delayUnit := by
  intro unit c' hread
  rw [delayUnit_eq] at hread ⊢
  obtain ⟨rfl, rfl⟩ := Prod.mk.inj (Except.ok.inj hread)
  cases hafter : c.after with
  | nil =>
    have hnone : unitBehind c.last? c.current? = none := by
      rw [Cursor.current?, hafter]
      cases c.last? <;> rfl
    have hnone' : unitBehind (c.followedBy more).last? (c.followedBy more).current? = none := by
      rw [Cursor.current?, Cursor.followedBy_after, hafter, List.nil_append]
      cases hlast : (c.followedBy more).last? with
      | none => rfl
      | some last =>
        cases hm : more with
        | nil => rfl
        | cons t rest =>
          have hunit := hmore.unitless t rest hm
          simp [unitBehind, hunit]
    rw [hnone, hnone']
    rfl
  | cons t rest =>
    have hcurrent : (c.followedBy more).current? = c.current? := by
      rw [Cursor.current?, Cursor.current?, Cursor.followedBy_after, hafter]
      rfl
    have hlast : (c.followedBy more).last? = c.last? := rfl
    have hone : (unitBehind c.last? c.current?).isSome.toNat ≤ c.after.length := by
      rw [hafter, List.length_cons]
      exact Nat.le_trans (Bool.toNat_le _) (Nat.le_add_left 1 _)
    rw [hcurrent, hlast, Cursor.followedBy_skip hone]

variable (hmore : Severs more) (hn : ∀ floor c, WidensAt more c (nested floor))

include hmore hn

theorem delayOf (hne : c.after ≠ []) : WidensAt more c (Parser.delayOf nested) :=
  .tagged hne <| .bind (of_local (.expectAs _ _)) fun _ c₁ => .bind (hn _ c₁) fun _ _ =>
    .bind (.delayUnit hmore) fun _ _ => .pure _

theorem operandOf : WidensAt more c (Parser.operandOf nested) := by
  refine .current? (fun token rest hafter => ?_) fun _ _ => unexpectedEnd_ne_ok
  have hne : c.after ≠ [] := List.ne_nil_iff_exists_cons.2 ⟨token, rest, hafter⟩
  dsimp only
  split
  · exact .tagged hne <| .bind (.advance? hne) fun _ c₁ => .bind (hn _ c₁) fun _ _ => .pure _
  · exact .primaryOf hmore.uncalled hne

theorem assignmentOf (op : AssignOp) (target : Expr Site) :
    WidensAt more c (Parser.assignmentOf nested op target) := by
  refine .check hmore.undelayed ?_
  split
  · rename_i hsharp
    obtain ⟨t, rest, hafter, -⟩ := Cursor.after_of_check hsharp
    have hne : c.after ≠ [] := List.ne_nil_iff_exists_cons.2 ⟨t, rest, hafter⟩
    exact .bind (.delayOf hmore hn hne) fun _ c₁ => .bind (hn _ c₁) fun _ _ => .pure _
  · exact .bind (hn _ c) fun _ _ => .pure _

theorem connectiveOf (k : Connective) (lhs : Expr Site) (hne : c.after ≠ []) :
    WidensAt more c (Parser.connectiveOf nested k lhs) := by
  cases k with
  | select | scope | member | postfixOp => exact .connectiveOf_tight rfl lhs hne
  | conditional =>
    exact .bind (.advance? hne) fun _ c₁ => .bind (hn 0 c₁) fun _ _ => .bind (of_local (.expectAs _ _)) fun _ c₃ =>
      .bind (hn _ c₃) fun _ _ => .pure _
  | assignment op => exact .bind (.advance? hne) fun _ _ => .assignmentOf hmore hn op lhs
  | binary op => exact .bind (.advance? hne) fun _ c₁ => .bind (hn _ c₁) fun _ _ => .pure _

/-- The loop ends in front of the further tokens; there may be rounds to spare. -/
theorem climbUpTo {reading : LessEqualReading} {floor l l' : Nat} {lhs e : Expr Site} {c' : Cursor}
    (hread : Parser.climbUpTo nested reading floor l lhs c = .ok (e, c')) (hl : l + more.length ≤ l') :
    Parser.climbUpTo nested reading floor l' lhs (c.followedBy more) = .ok (e, c'.followedBy more) := by
  replace hread := climbUpTo_eq_ok.1 hread
  induction hread generalizing l' with
  | @stop l e c hquiet hspent =>
    refine climbUpTo_eq_ok.2 (.stop (hquiet.append hmore.quiet) fun hzero => ?_)
    rw [Cursor.followedBy_after, hspent (by omega), List.length_eq_zero_iff.1 (show more.length = 0 by omega)]
    rfl
  | @turn l t rest k node lhs e c c₁ c' hafter hk hfloor hnode _ ih =>
    obtain ⟨l', rfl⟩ : ∃ n, l' = n + 1 := ⟨l' - 1, by omega⟩
    have hne : c.after ≠ [] := List.ne_nil_iff_exists_cons.2 ⟨t, rest, hafter⟩
    have hafter' := Cursor.followedBy_after_cons hafter more
    exact (climbUpTo_connective hafter' hk hfloor (connectiveOf hmore hn k lhs hne hnode)).trans (ih (by omega))

theorem climb (reading : LessEqualReading) (floor : Nat) (lhs : Expr Site) :
    WidensAt more c (Parser.climb nested reading floor lhs) := by
  intro e c' hread
  exact climbUpTo hmore hn hread (Nat.le_of_eq List.length_append.symm)

theorem expressionOf (reading : LessEqualReading) (floor : Nat) :
    WidensAt more c (Parser.expressionOf nested reading floor) :=
  .bind (.operandOf hmore hn) fun lhs _ => .climb hmore hn reading floor lhs

omit hn in
/-- Every expression is read again in front of tokens that it cannot go on with. -/
theorem expressionWithin (budget : Nat) (reading : LessEqualReading) (floor : Nat) :
    WidensAt more c (Parser.expressionWithin budget reading floor) := by
  induction budget generalizing c reading floor with
  | zero => exact .of_error nofun
  | succ budget ih => exact .expressionOf hmore (fun floor _ => ih .compares floor) reading floor

end WidensAt

/-! ### What a span holds -/

/-- All of the span is read as the expression. -/
def Cursor.Holds (c : Cursor) (e : Expr Site) : Prop := ∃ c', expression c = .ok (e, c') ∧ c'.after = []

namespace Cursor

variable {c c' : Cursor} {budget : Nat} {e : Expr Site} {expected : String}

theorem holds_iff_filling : c.Holds e ↔ ∃ c', filling expected expression c = .ok (e, c') := by
  simp only [Holds, filling_eq_ok]

/-- Any budget of as many nestings as tokens will do. -/
theorem holds_iff_expressionWithin (h : c.after.length ≤ budget) :
    c.Holds e ↔ ∃ c', expressionWithin budget .compares 0 c = .ok (e, c') ∧ c'.after = [] := by
  constructor
  · rintro ⟨c', hread, hend⟩
    exact ⟨c', expressionWithin_of_budget hread h, hend⟩
  · rintro ⟨c', hread, hend⟩
    exact ⟨c', expressionWithin_of_budget hread (Nat.le_succ _), hend⟩

/-- What has been read of a span leads to the place behind it. -/
theorem eq_skip_of_read {reading : LessEqualReading} {floor : Nat} {ts : List Token}
    (h : expressionWithin budget reading floor c = .ok (e, c')) (hafter : c.after = ts ++ c'.after) :
    c' = c.skip ts.length := by
  have hnarrows : NarrowsAt 0 1 c (expressionWithin budget reading floor) (expressionWithin budget reading floor) :=
    .expressionWithin budget (Nat.zero_le budget) reading floor
  obtain ⟨k, -, hk, rfl, -⟩ := hnarrows h
  have hlength := congrArg List.length hafter
  rw [skip_after, List.length_append, List.length_drop] at hlength
  have hread : k = ts.length := by omega
  rw [hread]

section Parts

variable {ts us : List Token} (hafter : c.after = ts ++ us)

include hafter

theorem cut_append_after : (c.cut ts.length).after = ts := by rw [cut_after, hafter, List.take_left]

/-- The part of a span before some tokens, with these tokens behind it, is the span. -/
theorem cut_followedBy : (c.cut ts.length).followedBy us = c := by
  show { c with after := c.after.take ts.length ++ us } = c
  rw [hafter, List.take_left, ← hafter]

theorem cut_skip_followedBy : ((c.cut ts.length).skip ts.length).followedBy us = c.skip ts.length := by
  rw [← followedBy_skip (Nat.le_of_eq (congrArg List.length (cut_append_after hafter)).symm), cut_followedBy hafter]

/-- What is read from a span is held by the part that has been read. -/
theorem holds_cut_of_read (h : expressionWithin budget .compares 0 c = .ok (e, c')) (hrest : c'.after = us) :
    (c.cut ts.length).Holds e := by
  obtain rfl := eq_skip_of_read h (hrest ▸ hafter)
  have hlength : ts.length ≤ c.after.length := by
    rw [hafter, List.length_append]
    omega
  have hnarrows : NarrowsAt ts.length 1 c (expressionWithin budget .compares 0)
      (expressionWithin (ts.length + 1) .compares 0) := .expressionWithin budget (Nat.le_succ _) .compares 0
  have hcut := hnarrows.at_cut h (Nat.le_refl _) hlength
  refine ⟨(c.cut ts.length).skip ts.length, ?_, cut_skip_after _ _⟩
  show expressionWithin ((c.cut ts.length).after.length + 1) _ _ _ = _
  rw [cut_length hlength]
  exact hcut

/-- What a part of a span holds is read from the whole span, if it cannot go on with what follows. -/
theorem read_of_holds_cut (h : (c.cut ts.length).Holds e) (hsevers : Severs us) (hbudget : c.after.length ≤ budget) :
    expressionWithin budget .compares 0 c = .ok (e, c.skip ts.length) := by
  have hcut := cut_append_after hafter
  have hshort : (c.cut ts.length).after.length ≤ budget := by
    rw [hafter, List.length_append] at hbudget
    rw [hcut]
    omega
  obtain ⟨c', hread, hend⟩ := (holds_iff_expressionWithin hshort).1 h
  have hagain := WidensAt.expressionWithin hsevers budget .compares 0 hread
  have hbehind : c' = (c.cut ts.length).skip ts.length := eq_skip_of_read hread (by rw [hcut, hend, List.append_nil])
  rw [cut_followedBy hafter, hbehind, cut_skip_followedBy hafter] at hagain
  exact hagain

end Parts

end Cursor

end SystemVerilog
