import SystemVerilog.Grammar.Expression
import SystemVerilog.Proofs.Correspondence.Combinators
import SystemVerilog.Proofs.Reading.Choices
import SystemVerilog.Proofs.Tree.Map

/-!
# Expressions of corresponding tokens

Every reader of expressions reads the same expression from corresponding tokens, up to the sites.
-/

namespace SystemVerilog

open SystemVerilog.Parser

namespace Correspondence

variable {τ : Type} {k : Correspondence τ} {c d : Cursor} {nested : Nested}

/-- Nested expressions are read alike from corresponding tokens. -/
def NestedAgrees (k : Correspondence τ) (nested : Nested) : Prop :=
  ∀ floor, k.Agrees (nested floor) (nested floor) (k.Same Expr.map)

/-- The same expressions, one by one. -/
theorem mapAll_eq {es es' : List (Expr Site)} (h : List.Forall₂ (k.Same Expr.map) es es') :
    Expr.mapAll k.left es = Expr.mapAll k.right es' := by
  rw [Expr.mapAll_eq_map, Expr.mapAll_eq_map, map_eq h]

theorem tag_eq {e e' : Expr Site} (h : k.Same Expr.map e e') : k.left e.tag = k.right e'.tag := by
  have htag := congrArg Expr.tag h.eq
  rwa [Expr.tag_map, Expr.tag_map] at htag

theorem unitBehind_eq {last last' t t' : Option Token} (hlast : Option.Rel k.token last last')
    (ht : Option.Rel k.token t t') : unitBehind last t = unitBehind last' t' := by
  cases hlast with
  | none => rfl
  | some hlast =>
    cases ht with
    | none => rfl
    | some ht => rw [unitBehind, unitBehind, k.touches hlast ht, kind_eq ht]

namespace Agrees

/-! ### Lists and delays -/

theorem listOf (hn : k.NestedAgrees nested) :
    k.Agrees (Parser.listOf nested) (Parser.listOf nested) (List.Forall₂ (k.Same Expr.map)) :=
  step atEnd fun ended => by
    cases ended with
    | true => exact pure .nil
    | false => exact listBy comma (hn 0)

/-- The unit of a delay touches the token before it in both sources or in none, if those tokens correspond. -/
theorem delayUnit (hcd : k.Alike c d) (hlast : Option.Rel k.token c.last? d.last?) :
    k.Agree c d Parser.delayUnit Parser.delayUnit Eq := by
  have hunit : unitBehind c.last? c.current? = unitBehind d.last? d.current? :=
    unitBehind_eq hlast (Abreast.current? hcd.toAbreast)
  refine .read (delayUnit_eq c) (delayUnit_eq d) hunit ?_
  rw [← hunit]
  exact hcd.skip _

theorem delayOf (hn : k.NestedAgrees nested) :
    k.Agrees (Parser.delayOf nested) (Parser.delayOf nested) (k.Same Delay.map) :=
  tagged <| bind_expect _ fun _ _ _ _ hcd hlast => (hn _ hcd).bind fun _ _ _ _ he hcd' =>
    (delayUnit hcd'.toAlike (hcd'.last_of hlast)).bind fun unit _ _ _ hunit hcd'' =>
      hunit ▸ pure (fun _ _ hs => by simp [Same, Delay.map, hs, he.eq]) hcd''.toAlike

/-! ### Operands -/

theorem invalidInExpression {α β : Type} {Q : α → β → Prop} {t u : Token} (h : k.token t u) :
    k.Agrees (Parser.invalidInExpression t : Parser α) (Parser.invalidInExpression u : Parser β) Q := by
  unfold Parser.invalidInExpression
  rw [k.lexeme h]
  exact fail (k.location h)

theorem callOf (hn : k.NestedAgrees nested) {e e' : Expr Site} (he : k.Same Expr.map e e') :
    k.Agrees (Parser.callOf nested e) (Parser.callOf nested e') (k.Same Expr.map) :=
  step (check _) fun opens => by
    cases opens with
    | false => exact pure he
    | true =>
      refine bind (R := fun r r' => k.left r.1 = k.right r'.1 ∧ List.Forall₂ (k.Same Expr.map) r.2 r'.2)
        (tagged <| bind (enclosed (listOf hn)) fun _ _ hargs => pure fun _ _ hs => ⟨hs, hargs⟩) ?_
      rintro ⟨parens, args⟩ ⟨parens', args'⟩ ⟨hparens, hargs⟩
      exact bind (since (tag_eq he)) fun _ _ hs =>
        pure (by simp [Same, Expr.map, hs, he.eq, hparens, mapAll_eq hargs])

theorem bracesOf (hn : k.NestedAgrees nested) :
    k.Agrees (Parser.bracesOf nested) (Parser.bracesOf nested) (k.Same Expr.map) :=
  tagged <| enclosed <| bind (hn 0) fun _ _ hfirst => step (check _) fun opens => by
    cases opens with
    | true =>
      exact bind (enclosed (listOf hn)) fun _ _ hitems => step (expectEnd _) fun _ =>
        pure fun _ _ hs => by simp [Same, Expr.map, hs, hfirst.eq, mapAll_eq hitems]
    | false =>
      exact bind (followers comma (hn 0)) fun _ _ hrest =>
        pure fun _ _ hs => by simp [Same, Expr.map, Expr.mapAll, hs, hfirst.eq, mapAll_eq hrest]

theorem systemIdentifier :
    k.Agrees Parser.systemIdentifier Parser.systemIdentifier (k.Same Expr.map) :=
  tagged <| bind consume fun dollar dollar' hdollar => bind current? fun word word' hword => by
    cases hword with
    | none => exact invalidInExpression hdollar
    | @some word word' hword =>
      dsimp only
      rw [kind_eq hword, k.touches hdollar hword, text_eq hword]
      split
      · exact bind advance? fun _ _ _ => pure fun _ _ hs => by simp [Same, Expr.map, hs]
      · exact invalidInExpression hdollar

theorem primaryOf (hn : k.NestedAgrees nested) {token token' : Token} (htoken : k.token token token') :
    k.Agrees (Parser.primaryOf nested token) (Parser.primaryOf nested token') (k.Same Expr.map) := by
  unfold Parser.primaryOf
  rw [← kind_eq htoken, ← text_eq htoken]
  split
  · exact tagged <| bind (enclosed (filling _ (hn 0))) fun _ _ hinner =>
      pure fun _ _ hs => by simp [Same, Expr.map, hs, hinner.eq]
  · exact bracesOf hn
  · refine step (peekKind? 1) fun second => ?_
    split
    · exact tagged <| bind advance? fun _ _ _ => bind (enclosed (listOf hn)) fun _ _ hitems =>
        pure fun _ _ hs => by simp [Same, Expr.map, hs, mapAll_eq hitems]
    · exact invalidInExpression htoken
  · exact tagged <| bind advance? fun _ _ _ => pure fun _ _ hs => by simp [Same, Expr.map, hs]
  · exact tagged <| bind advance? fun _ _ _ => pure fun _ _ hs => by simp [Same, Expr.map, hs]
  · exact bind systemIdentifier fun _ _ he => callOf hn he
  · split
    · refine bind (R := k.Same Expr.map) ?_ fun _ _ he => callOf hn he
      exact tagged <| bind advance? fun _ _ _ => pure fun _ _ hs => by simp [Same, Expr.map, hs]
    · exact invalidInExpression htoken

theorem operandOf (hn : k.NestedAgrees nested) :
    k.Agrees (Parser.operandOf nested) (Parser.operandOf nested) (k.Same Expr.map) :=
  bind current? fun token token' htoken => by
    cases htoken with
    | none => exact unexpectedEnd
    | @some token token' htoken =>
      dsimp only
      rw [← kind_eq htoken]
      split
      · exact tagged <| bind advance? fun _ _ _ => bind (hn _) fun _ _ he =>
          pure fun _ _ hs => by simp [Same, Expr.map, hs, he.eq]
      · exact primaryOf hn htoken

/-! ### Connectives -/

theorem selectorOf (hn : k.NestedAgrees nested) {e e' : Expr Site} (he : k.Same Expr.map e e') :
    k.Agrees (Parser.selectorOf nested e) (Parser.selectorOf nested e') (k.Makes (k.Same Expr.map)) :=
  bind (hn 0) fun _ _ hfirst => bind current? fun separator separator' hseparator => by
    cases hseparator with
    | none => exact pure fun _ _ hs => by simp [Same, Expr.map, hs, he.eq, hfirst.eq]
    | @some separator separator' htoken =>
      dsimp only
      rw [← kind_eq htoken]
      split
      · exact unexpected htoken
      · exact bind advance? fun _ _ _ => bind (filling _ (hn 0)) fun _ _ hsecond =>
          pure fun _ _ hs => by simp [Same, Expr.map, hs, he.eq, hfirst.eq, hsecond.eq]

theorem assignmentOf (hn : k.NestedAgrees nested) (op : AssignOp) {e e' : Expr Site}
    (he : k.Same Expr.map e e') :
    k.Agrees (Parser.assignmentOf nested op e) (Parser.assignmentOf nested op e')
      (k.Makes (k.Same Expr.map)) :=
  step (check _) fun delayed => by
    cases delayed with
    | true =>
      refine bind (delayOf hn) fun delay delay' hdelay => bind (hn _) fun _ _ hvalue => pure fun _ _ hs => ?_
      obtain ⟨htag, hmagnitude, hunit⟩ := Delay.mk.inj hdelay.eq
      simp [Same, Expr.map, hs, he.eq, hvalue.eq, htag, hmagnitude, hunit]
    | false =>
      exact bind (hn _) fun _ _ hvalue => pure fun _ _ hs => by simp [Same, Expr.map, hs, he.eq, hvalue.eq]

theorem connectiveOf (hn : k.NestedAgrees nested) (connective : Connective) {e e' : Expr Site}
    (he : k.Same Expr.map e e') :
    k.Agrees (Parser.connectiveOf nested connective e) (Parser.connectiveOf nested connective e')
      (k.Makes (k.Same Expr.map)) := by
  cases connective with
  | select => exact enclosed (selectorOf hn he)
  | scope =>
    exact bind advance? fun _ _ _ => step name fun _ => pure fun _ _ hs => by simp [Same, Expr.map, hs, he.eq]
  | member =>
    exact bind advance? fun _ _ _ => step name fun _ => pure fun _ _ hs => by simp [Same, Expr.map, hs, he.eq]
  | postfixOp op =>
    exact bind advance? fun _ _ _ => pure fun _ _ hs => by simp [Same, Expr.map, hs, he.eq]
  | conditional =>
    exact bind advance? fun _ _ _ => bind (hn 0) fun _ _ hthen => bind (expectAs _ _) fun _ _ _ =>
      bind (hn _) fun _ _ helse => pure fun _ _ hs => by simp [Same, Expr.map, hs, he.eq, hthen.eq, helse.eq]
  | assignment op => exact bind advance? fun _ _ _ => assignmentOf hn op he
  | binary op =>
    exact bind advance? fun _ _ _ => bind (hn _) fun _ _ hrhs =>
      pure fun _ _ hs => by simp [Same, Expr.map, hs, he.eq, hrhs.eq]

theorem climbUpTo (hn : k.NestedAgrees nested) (reading : LessEqualReading) (floor n : Nat)
    {e e' : Expr Site} (he : k.Same Expr.map e e') :
    k.Agrees (Parser.climbUpTo nested reading floor n e) (Parser.climbUpTo nested reading floor n e')
      (k.Same Expr.map) := by
  induction n generalizing e e' with
  | zero =>
    refine step atEnd fun ended => ?_
    cases ended with
    | true => exact pure he
    | false => exact bottomless
  | succ n ih =>
    refine step currentKind? fun kind => ?_
    split
    · exact pure he
    · split
      · exact pure he
      · exact bind (connectiveOf hn _ he) fun node node' hnode => bind (since (tag_eq he)) fun s s' hs =>
          ih (hnode s s' hs)

theorem expressionOf (hn : k.NestedAgrees nested) (reading : LessEqualReading) (floor : Nat) :
    k.Agrees (Parser.expressionOf nested reading floor) (Parser.expressionOf nested reading floor)
      (k.Same Expr.map) :=
  bind (operandOf hn) fun _ _ hlhs => of_length fun n => climbUpTo hn reading floor n hlhs

/-! ### Whole expressions -/

theorem expressionWithin (budget : Nat) (reading : LessEqualReading) (floor : Nat) :
    k.Agrees (Parser.expressionWithin budget reading floor)
      (Parser.expressionWithin budget reading floor) (k.Same Expr.map) := by
  induction budget generalizing reading floor with
  | zero => exact bottomless
  | succ budget ih => exact expressionOf (fun floor => ih _ floor) reading floor

/-- A reader whose budget is given by the tokens that are left. -/
theorem of_budget {α β : Type} {p : Nat → Parser α} {q : Nat → Parser β} {Q : α → β → Prop}
    (h : ∀ n, k.Agrees (p n) (q n) Q) :
    Agrees (m := Parser) k (fun c => p (budget c) c) (fun c => q (budget c) c) Q :=
  of_length fun n => h (n + 1)

theorem expression : k.Agrees Parser.expression Parser.expression (k.Same Expr.map) :=
  of_budget fun n => expressionWithin n .compares 0

theorem statementExpression :
    k.Agrees Parser.statementExpression Parser.statementExpression (k.Same Expr.map) :=
  of_budget fun n => expressionWithin n .assigns 0

theorem operand : k.Agrees Parser.operand Parser.operand (k.Same Expr.map) :=
  of_budget fun n => expressionWithin n .compares prefixPower

theorem expressionList :
    k.Agrees Parser.expressionList Parser.expressionList (List.Forall₂ (k.Same Expr.map)) :=
  of_budget fun n => listOf fun floor => expressionWithin n .compares floor

theorem delay : k.Agrees Parser.delay Parser.delay (k.Same Delay.map) :=
  of_budget fun n => delayOf fun floor => expressionWithin n .compares floor

end Agrees

end Correspondence

end SystemVerilog
