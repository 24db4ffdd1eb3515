import SystemVerilog.Grammar.Statement
import SystemVerilog.Proofs.Correspondence.Declarations

/-!
# Statements of corresponding tokens

Every reader of statements reads the same statement from corresponding tokens, up to the sites.
-/

namespace SystemVerilog

open SystemVerilog.Parser

namespace Correspondence

variable {τ : Type} {k : Correspondence τ}

namespace Agrees

/-! ### Labels -/

theorem blockLabel : k.Agrees Parser.blockLabel Parser.blockLabel Eq :=
  step (eat _) fun found => by
    cases found with
    | true => exact step name fun _ => pure rfl
    | false => exact pure rfl

theorem endLabel (opening : Option String) :
    k.Agrees (Parser.endLabel opening) (Parser.endLabel opening) Eq :=
  bind (eat? _) fun colon colon' hcolon => by
    cases hcolon with
    | none => exact pure rfl
    | some hcolon =>
      refine bind expectName fun label label' hlabel => ?_
      rw [← text_eq hlabel]
      split
      · exact fail (k.location hcolon)
      · split
        · exact pure rfl
        · exact fail (k.location hlabel)

/-! ### Conditions and loop headers -/

theorem condition : k.Agrees Parser.condition Parser.condition (k.Same Expr.map) :=
  enclosed (filling _ expression)

theorem loopInit : k.Agrees Parser.loopInit Parser.loopInit (k.Same LoopInit.map) :=
  tagged <| step (eat _) fun _ => bind dataType fun _ _ htype => bind (filling _ statementExpression)
    fun _ _ hassignment => pure fun _ _ hs => by
      simp [Same, LoopInit.map, hs, option_map_eq htype, hassignment.eq]

theorem loopClause : k.Agrees Parser.loopClause Parser.loopClause k.Alike :=
  spanBefore (lexemewise_distanceAtDepth? _ _ _ _ _)

theorem optionally {α β : Type} {p : Parser α} {q : Parser β} {Q : α → β → Prop} {part part' : Cursor}
    (hpart : k.Alike part part') (h : k.Agrees p q Q) :
    k.Agrees (Parser.optionally part p) (Parser.optionally part' q) (Option.Rel Q) := by
  unfold Parser.optionally
  rw [hpart.atEnd_eq]
  split
  · exact pure .none
  · exact bind (within hpart h) fun _ _ hab => pure (.some hab)

theorem loopStep : k.Agrees Parser.loopStep Parser.loopStep (Option.Rel (k.Same Expr.map)) :=
  step atEnd fun ended => by
    cases ended with
    | true => exact pure .none
    | false => exact bind (filling _ statementExpression) fun _ _ he => pure (.some he)

theorem loopHeader : k.Agrees Parser.loopHeader Parser.loopHeader (k.Same LoopHeader.map) := by
  rw [loopHeader_eq]
  exact tagged <| enclosed <| bind loopClause fun _ _ hfirst => bind loopClause fun _ _ hsecond =>
    bind (optionally hfirst loopInit) fun _ _ hinit =>
      bind (optionally hsecond (filling _ expression)) fun _ _ hcondition => bind loopStep fun _ _ hstep =>
        pure fun _ _ hs => by
          simp [Same, LoopHeader.map, hs, option_map_eq hinit, option_map_eq hcondition, option_map_eq hstep]

/-! ### Event controls -/

theorem event : k.Agrees Parser.event Parser.event (k.Same Event.map) :=
  tagged <| step (tryBy _) fun _ => bind expression fun _ _ he =>
    pure fun _ _ hs => by simp [Same, Event.map, hs, he.eq]

theorem eventSeparator : k.Agrees Parser.eventSeparator Parser.eventSeparator Eq :=
  step (eat _) fun found => by
    cases found with
    | true => exact pure rfl
    | false => exact comma

theorem onlyStar : k.Agrees Parser.onlyStar Parser.onlyStar Eq :=
  of_look fun c d hcd => by
    have hpeek : (c.peek? 1).isNone = (d.peek? 1).isNone := by
      have hkind := congrArg Option.isNone (hcd.peekKind?_eq 1)
      simpa [Cursor.peekKind?] using hkind
    rw [hcd.check_eq, hpeek]

theorem sensitivity : k.Agrees Parser.sensitivity Parser.sensitivity (k.Same Sensitivity.map) :=
  tagged <| bind (expect _) fun _ _ _ => step (eat _) fun star => by
    cases star with
    | true => exact pure fun _ _ hs => by simp [Same, Sensitivity.map, hs]
    | false =>
      refine step (check _) fun opens => ?_
      cases opens with
      | true =>
        refine enclosed <| step onlyStar fun only => ?_
        cases only with
        | true => exact pure fun _ _ hs => by simp [Same, Sensitivity.map, hs]
        | false =>
          exact bind (listBy eventSeparator event) fun _ _ hevents =>
            pure fun _ _ hs => by simp [Same, Sensitivity.map, hs, map_eq hevents]
      | false =>
        refine bind (R := k.Same Event.map) ?_ fun _ _ honly =>
          pure fun _ _ hs => by simp [Same, Sensitivity.map, hs, honly.eq]
        exact tagged <| bind operand fun _ _ he => pure fun _ _ hs => by simp [Same, Event.map, hs, he.eq]

/-! ### Case items -/

theorem caseLabels : k.Agrees Parser.caseLabels Parser.caseLabels (List.Forall₂ (k.Same Expr.map)) :=
  bind location fun _ _ hplace => bind (spanBefore (lexemewise_distanceAtTop? _ _ _)) fun _ _ hpart =>
    bind (within hpart expressionList) fun es es' h => by
      cases h with
      | nil => exact fail hplace
      | cons he hes => exact pure (.cons he hes)

theorem defaultLabel (seen : Bool) :
    k.Agrees (Parser.defaultLabel seen) (Parser.defaultLabel seen) Eq :=
  bind location fun _ _ hplace => step (eat _) fun found => by
    cases found with
    | false => exact pure rfl
    | true =>
      refine step (eat _) fun _ => ?_
      cases seen with
      | true => exact fail hplace
      | false => exact pure rfl

end Agrees

section CaseItems

variable {m : Type → Type} [Monad m] [MonadStateOf Cursor m] [MonadLiftT Parser m] [Reader m]
  {α γ : Type} {f : (Site → τ) → α → γ}

/-- Case items that correspond, with their defaults. -/
def SameCases (k : Correspondence τ) (f : (Site → τ) → α → γ)
    (r r' : List (CaseItem Site α) × Option α) : Prop :=
  List.Forall₂ (k.Same fun g => CaseItem.map g (f g)) r.1 r'.1 ∧ Option.Rel (k.Same f) r.2 r'.2

theorem Agrees.caseItemsUpTo {p : m α} (h : k.Agrees p p (k.Same f)) (n : Nat) {fallback fallback' : Option α}
    (hfallback : Option.Rel (k.Same f) fallback fallback') :
    k.Agrees (SystemVerilog.caseItemsUpTo p n fallback) (SystemVerilog.caseItemsUpTo p n fallback')
      (k.SameCases f) := by
  induction n generalizing fallback fallback' with
  | zero =>
    refine step (lift atEnd) fun ended => ?_
    cases ended with
    | true => exact pure ⟨.nil, hfallback⟩
    | false => exact lift bottomless
  | succ n ih =>
    refine step (lift atEnd) fun ended => ?_
    cases ended with
    | true => exact pure ⟨.nil, hfallback⟩
    | false =>
      rw [isSome_eq hfallback]
      refine step (lift (defaultLabel _)) fun isDefault => ?_
      cases isDefault with
      | true => exact bind h fun _ _ honly => ih (.some honly)
      | false =>
        refine bind (R := k.Same fun g => CaseItem.map g (f g)) ?_ fun item item' hitem =>
          bind (ih hfallback) fun found found' hfound => pure ⟨.cons hitem hfound.1, hfound.2⟩
        exact tagged <| bind (lift caseLabels) fun _ _ hlabels => bind h fun _ _ hbody =>
          pure fun _ _ hs => by simp [Same, CaseItem.map, hs, map_eq hlabels, hbody.eq]

theorem Agrees.caseItems {p : m α} (h : k.Agrees p p (k.Same f)) :
    k.Agrees (SystemVerilog.caseItems p) (SystemVerilog.caseItems p) (k.SameCases f) :=
  bind get fun c d hcd => by
    rw [hcd.length_eq]
    exact caseItemsUpTo h _ .none

end CaseItems

namespace Agrees

/-! ### Statements -/

section Nested

variable {statement : Parser (Statement Site)}

theorem blockOf (h : k.Agrees statement statement (k.Same Statement.map)) :
    k.Agrees (Parser.blockOf statement) (Parser.blockOf statement) (k.Same Statement.map) := by
  refine tagged <| bind (R := fun r r' => r.1 = r'.1 ∧ List.Forall₂ (k.Same Statement.map) r.2 r'.2)
    (enclosed <| step blockLabel fun _ => bind (untilEnd h) fun _ _ hss => pure ⟨rfl, hss⟩) ?_
  rintro ⟨label, ss⟩ ⟨_, ss'⟩ ⟨rfl, hss⟩
  exact step (endLabel label) fun _ => pure fun _ _ hs => by
    simp [Same, Statement.map, hs, Statement.mapAll_eq_map, map_eq hss]

theorem ifElseOf (h : k.Agrees statement statement (k.Same Statement.map)) :
    k.Agrees (Parser.ifElseOf statement) (Parser.ifElseOf statement) (k.Same Statement.map) :=
  tagged <| bind (expect _) fun _ _ _ => bind condition fun _ _ hcondition => bind h fun _ _ hthen =>
    step (eat _) fun found => by
      cases found with
      | true =>
        exact bind h fun _ _ helse => pure fun _ _ hs => by
          simp [Same, Statement.map, Statement.mapOption, hs, hcondition.eq, hthen.eq, helse.eq]
      | false =>
        exact pure fun _ _ hs => by simp [Same, Statement.map, Statement.mapOption, hs, hcondition.eq, hthen.eq]

theorem caseOf (h : k.Agrees statement statement (k.Same Statement.map)) (kind : CaseKind) :
    k.Agrees (Parser.caseOf statement kind) (Parser.caseOf statement kind) (k.Same Statement.map) := by
  refine tagged <| enclosed <| bind condition fun selector selector' hselector => bind (caseItems h) ?_
  rintro ⟨items, fallback⟩ ⟨items', fallback'⟩ ⟨hitems, hfallback⟩
  exact pure fun _ _ hs => by
    simp [Same, Statement.map, hs, hselector.eq, Statement.mapItems_eq_map, Statement.mapOption_eq_map,
      map_eq hitems, option_map_eq hfallback]

theorem loopOf (h : k.Agrees statement statement (k.Same Statement.map)) :
    k.Agrees (Parser.loopOf statement) (Parser.loopOf statement) (k.Same Statement.map) :=
  tagged <| bind (expect _) fun _ _ _ => bind loopHeader fun _ _ hheader => bind h fun _ _ hbody =>
    pure fun _ _ hs => by simp [Same, Statement.map, hs, hheader.eq, hbody.eq]

theorem delayedOf (h : k.Agrees statement statement (k.Same Statement.map)) :
    k.Agrees (Parser.delayedOf statement) (Parser.delayedOf statement) (k.Same Statement.map) :=
  tagged <| bind delay fun _ _ hdelay => bind h fun _ _ hbody =>
    pure fun _ _ hs => by simp [Same, Statement.map, hs, hdelay.eq, hbody.eq]

theorem eventOf (h : k.Agrees statement statement (k.Same Statement.map)) :
    k.Agrees (Parser.eventOf statement) (Parser.eventOf statement) (k.Same Statement.map) :=
  tagged <| bind sensitivity fun _ _ hsensitivity => bind h fun _ _ hbody =>
    pure fun _ _ hs => by simp [Same, Statement.map, hs, hsensitivity.eq, hbody.eq]

theorem emptyStatement :
    k.Agrees Parser.emptyStatement Parser.emptyStatement (k.Same Statement.map) :=
  tagged <| bind advance? fun _ _ _ => pure fun _ _ hs => by simp [Same, Statement.map, hs]

theorem expressionStatement :
    k.Agrees Parser.expressionStatement Parser.expressionStatement (k.Same Statement.map) :=
  tagged <| beforeSemicolon <| bind (filling _ statementExpression) fun _ _ he =>
    pure fun _ _ hs => by simp [Same, Statement.map, hs, he.eq]

theorem statementOf (h : k.Agrees statement statement (k.Same Statement.map)) :
    k.Agrees (Parser.statementOf statement) (Parser.statementOf statement) (k.Same Statement.map) :=
  step currentKind? fun kind => by
    cases kind with
    | none => exact unexpectedEnd
    | some kind =>
      dsimp only
      split
      · exact caseOf h _
      · split
        · exact blockOf h
        · exact ifElseOf h
        · exact loopOf h
        · exact delayedOf h
        · exact eventOf h
        · exact emptyStatement
        · exact expressionStatement

end Nested

theorem statementWithin (n : Nat) :
    k.Agrees (Parser.statementWithin n) (Parser.statementWithin n) (k.Same Statement.map) := by
  induction n with
  | zero => exact bottomless
  | succ n ih => exact statementOf ih

theorem statement : k.Agrees Parser.statement Parser.statement (k.Same Statement.map) := of_budget statementWithin

end Agrees

end Correspondence

end SystemVerilog
