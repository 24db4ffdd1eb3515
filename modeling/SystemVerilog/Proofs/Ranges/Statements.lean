import SystemVerilog.Grammar.Statement
import SystemVerilog.Proofs.Ranges.Declarations

/-!
# Statements cover what they are read from

A statement is one node over the tokens that are read for it, and so are loop headers, event controls and
case items. Two readers do not follow the order of the tree: the clauses of a loop header are cut out
before they are read, and the default of a case may stand between its items.
-/

namespace SystemVerilog

open SystemVerilog.Parser

variable {ts : List Token} {c c' : Cursor} {α : Type}

/-! ### Labels -/

theorem Lays.blockLabel : Lays ts c Parser.blockLabel fun _ => [] :=
  .silent (.eat _) fun _ _ => by
    split
    · exact .silent Takes.name.lays fun _ _ => .pure rfl
    · exact .pure rfl

theorem Lays.endLabel (opening : Option String) : Lays ts c (Parser.endLabel opening) fun _ => [] :=
  .silent (.eat? _) fun _ _ => by
    split
    · exact .pure rfl
    · refine .silent (Takes.demandWith _ _).lays fun _ _ => ?_
      split
      · exact .fail _ _
      · split
        · exact .pure rfl
        · exact .fail _ _

/-! ### Conditions and loop headers -/

theorem Builds.condition : Builds ts c [] Parser.condition fun os e => os = [e.outline] :=
  .enclosed fun _ => (Forms.filling _ .expression).lays

theorem Forms.loopInit : Forms ts c Parser.loopInit LoopInit.outline :=
  .tagged <| .silent (.eat _) fun _ _ => .step .dataType fun _ _ =>
    .node (.filling _ .statementExpression) fun _ _ => .pure (.of_eq fun _ => rfl)

theorem Lays.loopStep : Lays ts c Parser.loopStep (optionOutlines Expr.outline) :=
  .silent .atEnd fun _ _ => by
    split
    · exact .pure rfl
    · exact .node (.filling _ .statementExpression) fun _ _ => .pure rfl

/-- A clause that was cut out before is read on its own; its outlines lie where it was cut out. -/
theorem Advance.of_optionally {p : Parser α} {out : α → Outline} {n : Nat} {c₁ : Cursor} {o : Option α}
    (hp : ∀ c, Forms ts c p out) (hc : c.Sees ts)
    (hread : Parser.optionally (c.ahead n) p c₁ = .ok (o, c')) :
    c' = c₁ ∧ Advance ts c (c.skip (n + 1)) (optionOutlines out o) := by
  unfold Parser.optionally at hread
  split at hread
  · obtain ⟨rfl, rfl⟩ := pure_eq_ok.1 hread
    exact ⟨rfl, .skip c (n + 1)⟩
  · obtain ⟨a, c₂, hwithin, hpure⟩ := bind_eq_ok.1 hread
    obtain ⟨rfl, rfl⟩ := pure_eq_ok.1 hpure
    obtain ⟨⟨c₃, hpart⟩, rfl⟩ := within_eq_ok.1 hwithin
    obtain ⟨_, hos, rfl⟩ := Gathers.within_ahead [] (fun c => (hp c).lays) hc hpart (Nat.le_succ n)
    exact ⟨rfl, hos⟩

/-- The first two clauses of a loop header lie before the semicolons they were cut out at, the third one
behind the second semicolon. -/
theorem Forms.loopHeader : Forms ts c Parser.loopHeader LoopHeader.outline := by
  rw [loopHeader_eq]
  refine .tagged <| .enclosed fun c hc f c' hread => ?_
  obtain ⟨first, c₁, hfirst, h₁⟩ := bind_eq_ok.1 hread
  obtain ⟨second, c₂, hsecond, h₂⟩ := bind_eq_ok.1 h₁
  obtain ⟨init, c₃, hinit, h₃⟩ := bind_eq_ok.1 h₂
  obtain ⟨condition, c₄, hcondition, h₄⟩ := bind_eq_ok.1 h₃
  obtain ⟨step, c₅, hstep, hpure⟩ := bind_eq_ok.1 h₄
  obtain ⟨rfl, rfl⟩ := pure_eq_ok.1 hpure
  obtain ⟨m, -, rfl, rfl⟩ := spanBefore_inv hfirst
  obtain ⟨n, -, rfl, rfl⟩ := spanBefore_inv hsecond
  have hc₁ : (c.skip (m + 1)).Sees ts := hc.skip (m + 1)
  have hc₂ : ((c.skip (m + 1)).skip (n + 1)).Sees ts := hc₁.skip (n + 1)
  obtain ⟨rfl, hadvance₁⟩ := Advance.of_optionally (fun _ => .loopInit) hc hinit
  obtain ⟨rfl, hadvance₂⟩ := Advance.of_optionally (fun _ => .filling _ .expression) hc₁ hcondition
  have hadvance₃ := Lays.loopStep.advance hc₂ hstep
  exact ⟨_, hadvance₁.trans (hadvance₂.trans hadvance₃), .of_eq fun _ => rfl⟩

/-! ### Event controls -/

theorem Forms.event : Forms ts c Parser.event Event.outline :=
  .tagged <| .silent (.tryBy _) fun _ _ => .node .expression fun _ _ => .pure (.of_eq fun _ => rfl)

theorem Lays.eventSeparator : Lays ts c Parser.eventSeparator fun _ => [] :=
  .silent (.eat _) fun _ _ => by
    split
    · exact .pure rfl
    · exact (Takes.comma _).lays

theorem Lays.onlyStar : Lays ts c Parser.onlyStar fun _ => [] := .look rfl

theorem Forms.sensitivity : Forms ts c Parser.sensitivity Sensitivity.outline :=
  .tagged <| .token (.expect _) fun _ _ => .silent (.eat _) fun _ _ => by
    split
    · exact .pure (.of_eq fun _ => rfl)
    · refine .silent (.check _) fun _ _ => ?_
      split
      · refine (Builds.enclosed fun _ => .silent .onlyStar fun _ _ => ?_).gathers
        split
        · exact .pure (.of_eq fun _ => rfl)
        · exact .step (Lays.of_flatMap (.listBy (fun _ => .eventSeparator) fun _ => Forms.event.lays))
            fun _ _ => .pure (.of_eq fun _ => rfl)
      · refine .node (g := Event.outline) ?_ fun _ _ => .pure (.of_eq fun _ => rfl)
        exact .tagged <| .node .operand fun _ _ => .pure (.of_eq fun _ => rfl)

/-! ### Case items -/

theorem Lays.caseLabels : Lays ts c Parser.caseLabels fun es => es.map Expr.outline := by
  refine .silent .location fun _ c hc es c' hread => ?_
  obtain ⟨part, c₁, hpart, hrest⟩ := bind_eq_ok.1 hread
  obtain ⟨n, -, rfl, rfl⟩ := spanBefore_inv hpart
  refine Gathers.after_ahead (R := fun os es => os = es.map Expr.outline) (fun _ => .expressionList)
    (fun labels _ => ?_) hc hrest
  cases labels with
  | nil => exact .fail _ _
  | cons _ _ => exact .pure rfl

/-- The words that lead a default hold no node, and they are read only if no default was seen. -/
theorem Gathers.defaultLabel (seen : Bool) :
    Gathers ts c [] (Parser.defaultLabel seen) fun os found => os = [] ∧ (found = true → seen = false) :=
  .silent .location fun _ _ => .silent (.eat _) fun _ _ => by
    split
    · refine .silent (.eat _) fun _ _ => ?_
      cases seen with
      | true => exact .fail _ _
      | false => exact .pure ⟨rfl, fun _ => rfl⟩
    · exact .pure ⟨rfl, nofun⟩

section Generic

variable {m : Type → Type} [Monad m] [MonadStateOf Cursor m] [MonadLiftT Parser m] [Reader m]
  {p : m α} {out : α → Outline}

theorem Lays.untilEndUpTo (hp : ∀ c, Lays ts c p fun a => [out a]) (n : Nat) :
    Lays ts c (SystemVerilog.untilEndUpTo p n) fun as => as.map out := by
  induction n generalizing c with
  | zero =>
    refine .silent (Lays.lift .atEnd) fun _ _ => ?_
    split
    · exact .pure rfl
    · exact .lift .bottomless
  | succ n ih =>
    refine .silent (Lays.lift .atEnd) fun _ _ => ?_
    split
    · exact .pure rfl
    · exact .step (hp _) fun _ _ => .step ih fun _ _ => .pure rfl

theorem Lays.get : Lays ts c (MonadState.get : m Cursor) fun _ => [] := by
  intro _ a c' hread
  obtain ⟨-, rfl⟩ := Reader.get_inv hread
  exact ⟨[], .refl _, rfl⟩

theorem Lays.untilEnd (hp : ∀ c, Forms ts c p out) :
    Lays ts c (SystemVerilog.untilEnd p) fun as => as.map out :=
  .silent .get fun _ _ => Lays.untilEndUpTo (fun c => (hp c).lays) _

/-- The outlines of labelled items and of the default, if there is one. -/
def caseOutlines (out : α → Outline) (items : List (CaseItem Site α)) (fallback : Option α) : List Outline :=
  items.map (fun i => caseItemOutline i.tag i.labels (out i.body)) ++ optionOutlines out fallback

/-- The items that are read, together with the default that was read before them, are those of the
value; the default may have come between them. -/
theorem Gathers.caseItemsUpTo (hp : ∀ c, Forms ts c p out) (n : Nat) (fallback : Option α) :
    Gathers ts c [] (SystemVerilog.caseItemsUpTo p n fallback) fun os found =>
      (optionOutlines out fallback ++ os).Perm (caseOutlines out found.1 found.2) := by
  induction n generalizing c fallback with
  | zero =>
    refine .silent (Lays.lift .atEnd) fun _ _ => ?_
    split
    · exact .pure (by simp [caseOutlines])
    · exact .lift .bottomless
  | succ n ih =>
    refine .silent (Lays.lift .atEnd) fun _ _ => ?_
    split
    · exact .pure (by simp [caseOutlines])
    · refine .bind (Gathers.lift (.defaultLabel _)) fun isDefault os _ ⟨hnil, hfirst⟩ => ?_
      subst hnil
      split
      · rename_i hdefault
        have hnone : fallback = none := by simpa using hfirst hdefault
        subst hnone
        exact .node (hp _) fun only _ => .frame (ih (some only)) fun _ _ hperm => hperm
      · refine .node (g := fun i => caseItemOutline i.tag i.labels (out i.body)) ?_ fun item _ => ?_
        · exact .tagged <| .step (Lays.lift .caseLabels) fun _ _ => .node (hp _) fun _ _ => .pure (.of_eq fun _ => rfl)
        · refine .bind (ih fallback) fun found os _ hperm => .pure ?_
          have hitem : (optionOutlines out fallback ++
              caseItemOutline item.tag item.labels (out item.body) :: os).Perm
              (caseItemOutline item.tag item.labels (out item.body) :: caseOutlines out found.1 found.2) :=
            List.perm_middle.trans (hperm.cons _)
          exact hitem

theorem Gathers.caseItems (hp : ∀ c, Forms ts c p out) :
    Gathers ts c [] (SystemVerilog.caseItems p) fun os found => os.Perm (caseOutlines out found.1 found.2) :=
  .silent .get fun _ _ => Gathers.caseItemsUpTo hp _ none

end Generic

/-! ### Statements -/

section Nested

variable {statement : Parser (Statement Site)}

theorem Forms.blockOf (hs : ∀ c, Forms ts c statement Statement.outline) :
    Forms ts c (Parser.blockOf statement) Statement.outline := by
  refine .tagged <| .part (g := fun r => r.2.map Statement.outline) ?_ fun r _ =>
    .silent (.endLabel _) fun _ _ => .pure (.of_eq fun _ => ?_)
  · exact .enclosed fun _ => .silent .blockLabel fun _ _ => .step (.untilEnd hs) fun _ _ => .pure rfl
  · rw [Statement.outline, Statement.outlineAll_eq_map]
    rfl

theorem Forms.ifElseOf (hs : ∀ c, Forms ts c statement Statement.outline) :
    Forms ts c (Parser.ifElseOf statement) Statement.outline :=
  .tagged <| .token (.expect _) fun _ _ => .step Builds.condition.gathers fun _ _ => .node (hs _) fun _ _ =>
    .silent (.eat _) fun _ _ => by
      split
      · exact .node (hs _) fun _ _ => .pure (.of_eq fun _ => rfl)
      · exact .pure (.of_eq fun _ => rfl)

theorem Forms.caseOf (hs : ∀ c, Forms ts c statement Statement.outline) (kind : CaseKind) :
    Forms ts c (Parser.caseOf statement kind) Statement.outline := by
  refine .tagged <| .enclosed fun _ => .step Builds.condition.gathers fun selector _ =>
    .bind (.caseItems hs) fun found os _ hperm => .pure ⟨_, hperm.cons selector.outline, fun tag => ?_⟩
  rw [Statement.outline, Statement.outlineItems_eq_map, Statement.outlineOption_eq]
  rfl

theorem Forms.loopOf (hs : ∀ c, Forms ts c statement Statement.outline) :
    Forms ts c (Parser.loopOf statement) Statement.outline :=
  .tagged <| .token (.expect _) fun _ _ => .node .loopHeader fun _ _ => .node (hs _) fun _ _ =>
    .pure (.of_eq fun _ => rfl)

theorem Forms.delayedOf (hs : ∀ c, Forms ts c statement Statement.outline) :
    Forms ts c (Parser.delayedOf statement) Statement.outline :=
  .tagged <| .node .delay fun _ _ => .node (hs _) fun _ _ => .pure (.of_eq fun _ => rfl)

theorem Forms.eventOf (hs : ∀ c, Forms ts c statement Statement.outline) :
    Forms ts c (Parser.eventOf statement) Statement.outline :=
  .tagged <| .node .sensitivity fun _ _ => .node (hs _) fun _ _ => .pure (.of_eq fun _ => rfl)

theorem Forms.emptyStatement (hc : c.after ≠ []) :
    Forms ts c Parser.emptyStatement Statement.outline :=
  .tagged <| .token (.advance? hc) fun _ _ => .pure (.of_eq fun _ => rfl)

theorem Forms.expressionStatement : Forms ts c Parser.expressionStatement Statement.outline :=
  .tagged <| .beforeSemicolon fun _ => .node (.filling _ .statementExpression) fun _ _ =>
    .pure (.of_eq fun _ => rfl)

theorem Forms.statementOf (hs : ∀ c, Forms ts c statement Statement.outline) :
    Forms ts c (Parser.statementOf statement) Statement.outline := by
  refine .look (a := c.currentKind?) rfl ?_
  cases hafter : c.after with
  | nil =>
    rw [Cursor.currentKind?, Cursor.current?, hafter]
    exact .of_error fun _ _ => unexpectedEnd_ne_ok
  | cons token rest =>
    have hc : c.after ≠ [] := List.ne_nil_iff_exists_cons.2 ⟨token, rest, hafter⟩
    rw [Cursor.currentKind?_of_after hafter rfl]
    dsimp only
    split
    · exact .caseOf hs _
    · split
      · exact .blockOf hs
      · exact .ifElseOf hs
      · exact .loopOf hs
      · exact .delayedOf hs
      · exact .eventOf hs
      · exact .emptyStatement hc
      · exact .expressionStatement

end Nested

theorem Forms.statementWithin (budget : Nat) :
    Forms ts c (Parser.statementWithin budget) Statement.outline := by
  induction budget generalizing c with
  | zero => exact .of_error nofun
  | succ budget ih => exact .statementOf fun _ => ih

theorem Forms.statement : Forms ts c Parser.statement Statement.outline := by
  intro hc s c' hread
  have hwithin : Parser.statementWithin (budget c) c = .ok (s, c') := hread
  exact Forms.statementWithin (budget c) hc hwithin

end SystemVerilog
