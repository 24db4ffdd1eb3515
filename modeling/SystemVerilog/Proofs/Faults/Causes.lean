import SystemVerilog.Grammar.Declaration
import SystemVerilog.Proofs.Reading.Choices
import SystemVerilog.Proofs.Reading.Steps

/-!
# What the readers of headers fail for

`Blames p` says that whatever `p` fails for, it is a token, the end of a span, a pair without its closer, or a
packed dimension without bounds. So it is never a port without a direction, which a list of ports would report.
The rules follow the combinators.
-/

namespace SystemVerilog

open SystemVerilog.Parser

/-- What the entries of a header fail for. -/
inductive Cause.OfEntry : Cause → Prop
  | unexpectedToken (expected : String) (found : Lexeme) : OfEntry (.unexpectedToken expected found)
  | unexpectedEnd (expected : String) : OfEntry (.unexpectedEnd expected)
  | unmatchedPair (opening closing : TokenKind) : OfEntry (.unmatchedPair opening closing)
  | invalidExpressionToken (found : Lexeme) : OfEntry (.invalidExpressionToken found)
  | packedSize : OfEntry (.malformed .packedSize)
  | bottomless : OfEntry (.malformed .bottomless)

theorem Cause.OfEntry.directed {cause : Cause} (h : cause.OfEntry) : cause ≠ .malformed .undirectedPort := by
  rintro rfl
  cases h

section Judgement

variable {α β : Type}

/-- The parser fails for causes of header entries only. -/
def Blames (p : Parser α) : Prop := ∀ ⦃c fault⦄, p c = .error fault → fault.cause.OfEntry

/-- What comes second fails where what comes first has read. -/
theorem Parser.bind_eq_error {p : Parser α} {f : α → Parser β} {c : Cursor} {fault : Fault}
    (h : (p >>= f) c = .error fault) :
    p c = .error fault ∨ ∃ a c₁, p c = .ok (a, c₁) ∧ f a c₁ = .error fault := by
  have hbind : (p c).bind (fun r => f r.1 r.2) = .error fault := h
  cases hread : p c with
  | error fault' =>
    rw [hread] at hbind
    cases hbind
    exact .inl rfl
  | ok r =>
    rw [hread] at hbind
    exact .inr ⟨r.1, r.2, rfl, hbind⟩

end Judgement

namespace Blames

variable {α β : Type} {p : Parser α} {f : α → Parser β}

/-! ### Primitives -/

/-- A parser that never fails. -/
theorem of_ok (h : ∀ c, ∃ r, p c = .ok r) : Blames p := by
  intro c fault hfault
  obtain ⟨r, hr⟩ := h c
  rw [hr] at hfault
  cases hfault

theorem pure (a : α) : Blames (Pure.pure a : Parser α) := of_ok fun c => ⟨(a, c), rfl⟩

theorem fail {cause : Cause} (h : cause.OfEntry) (location : Location) :
    Blames (Parser.fail cause location : Parser α) := by
  rintro c fault ⟨⟩
  exact h

theorem unexpected (expected : String) (found : Token) : Blames (Parser.unexpected expected found : Parser α) :=
  fail (.unexpectedToken _ _) _

theorem unexpectedEnd (expected : String) : Blames (Parser.unexpectedEnd expected : Parser α) := by
  rintro c fault ⟨⟩
  exact .unexpectedEnd expected

theorem bottomless : Blames (Parser.bottomless : Parser α) := by
  rintro c fault ⟨⟩
  exact .bottomless

theorem atEnd : Blames Parser.atEnd := of_ok fun _ => ⟨_, rfl⟩

theorem location : Blames Parser.location := of_ok fun _ => ⟨_, rfl⟩

theorem current? : Blames Parser.current? := of_ok fun _ => ⟨_, rfl⟩

theorem currentKind? : Blames Parser.currentKind? := of_ok fun _ => ⟨_, rfl⟩

theorem peekKind? (n : Nat) : Blames (Parser.peekKind? n) := of_ok fun _ => ⟨_, rfl⟩

theorem check (kind : TokenKind) : Blames (Parser.check kind) := of_ok fun _ => ⟨_, rfl⟩

theorem since (first : Site) : Blames (Parser.since first) := of_ok fun _ => ⟨_, rfl⟩

theorem advance? : Blames Parser.advance? := of_ok fun _ => ⟨_, rfl⟩

theorem demandWith (test : TokenKind → Bool) (expected : String) : Blames (Parser.demandWith test expected) := by
  intro c fault hfault
  unfold Parser.demandWith at hfault
  split at hfault
  · split at hfault
    · cases hfault
    · exact unexpected _ _ hfault
  · exact unexpectedEnd _ hfault

theorem expectAs (kind : TokenKind) (expected : String) : Blames (Parser.expectAs kind expected) := demandWith _ _

theorem tryBy (meaning : TokenKind → Option α) : Blames (Parser.tryBy meaning) := of_ok fun c => by
  unfold Parser.tryBy
  split <;> exact ⟨_, rfl⟩

theorem eat? (kind : TokenKind) : Blames (Parser.eat? kind) := of_ok fun c => by
  unfold Parser.eat?
  split <;> exact ⟨_, rfl⟩

theorem expectEnd (expected : String) : Blames (Parser.expectEnd expected) := by
  intro c fault hfault
  unfold Parser.expectEnd at hfault
  split at hfault
  · exact unexpected _ _ hfault
  · cases hfault

theorem spanBefore? (find : List Token → Option Nat) : Blames (Parser.spanBefore? find) := of_ok fun c => by
  unfold Parser.spanBefore?
  split <;> exact ⟨_, rfl⟩

theorem closerDistance (opening closing : TokenKind) : Blames (Parser.closerDistance opening closing) := by
  intro c fault hfault
  unfold Parser.closerDistance at hfault
  split at hfault
  · exact unexpectedEnd _ hfault
  · split at hfault
    · split at hfault
      · cases hfault
      · cases hfault
        exact .unmatchedPair opening closing
    · exact unexpected _ _ hfault

/-! ### Combinators -/

theorem bind (hp : Blames p) (hf : ∀ a, Blames (f a)) : Blames (p >>= f) := by
  intro c fault hfault
  rcases bind_eq_error hfault with h | ⟨a, c₁, -, h⟩
  · exact hp h
  · exact hf a h

theorem within (part : Cursor) (h : Blames p) : Blames (SystemVerilog.within part p : Parser α) :=
  .bind (.of_ok fun _ => ⟨_, rfl⟩) fun _ => .bind (.of_ok fun _ => ⟨_, rfl⟩) fun _ =>
    .bind h fun _ => .bind (.of_ok fun _ => ⟨_, rfl⟩) fun _ => .pure _

theorem interior (opening closing : TokenKind) : Blames (Parser.interior opening closing) :=
  .bind (closerDistance opening closing) fun _ => .of_ok fun _ => ⟨_, rfl⟩

theorem enclosed {opening closing : TokenKind} (h : Blames p) :
    Blames (SystemVerilog.enclosed opening closing p : Parser α) :=
  .bind (interior opening closing) fun part => within part h

theorem tagged {p : Parser (Site → α)} (h : Blames p) : Blames (SystemVerilog.tagged p : Parser α) :=
  .bind (.of_ok fun _ => ⟨_, rfl⟩) fun _ => .bind h fun _ => .bind (.of_ok fun _ => ⟨_, rfl⟩) fun _ => .pure _

theorem eat (kind : TokenKind) : Blames (Parser.eat kind) := .bind (eat? kind) fun _ => .pure _

theorem name : Blames Parser.name := .bind (demandWith _ _) fun _ => .pure _

theorem comma (expected : String) : Blames (Parser.comma expected) := .bind (expectAs _ _) fun _ => .pure _

theorem filling (expected : String) (h : Blames p) : Blames (Parser.filling expected p) :=
  .bind h fun _ => .bind (expectEnd expected) fun _ => .pure _

theorem followers {separator : Parser Unit} (hs : Blames separator) (h : Blames p) :
    Blames (Parser.followers separator p) := by
  suffices hn : ∀ n, Blames (Parser.followersUpTo separator p n) from fun _ _ hfault => hn _ hfault
  intro n
  induction n with
  | zero =>
    refine .bind atEnd fun ended => ?_
    split
    · exact .pure _
    · exact bottomless
  | succ n ih =>
    refine .bind atEnd fun ended => ?_
    split
    · exact .pure _
    · exact .bind hs fun _ => .bind h fun _ => .bind ih fun _ => .pure _

theorem listBy {separator : Parser Unit} (hs : Blames separator) (h : Blames p) : Blames (Parser.listBy separator p) :=
  .bind h fun _ => .bind (followers hs h) fun _ => .pure _

theorem entries (expected : String) (h : Blames p) : Blames (Parser.entries expected p) := by
  suffices hn : ∀ n, Blames (Parser.entriesUpTo expected p n) from fun _ _ hfault => hn _ hfault
  intro n
  induction n with
  | zero =>
    refine .bind atEnd fun ended => ?_
    split
    · exact .pure _
    · exact bottomless
  | succ n ih =>
    refine .bind atEnd fun ended => ?_
    split
    · exact .pure _
    · refine .bind h fun _ => .bind atEnd fun ended => ?_
      split
      · exact .pure _
      · exact .bind (comma expected) fun _ => .bind ih fun _ => .pure _

theorem bracketed (h : Blames p) : Blames (Parser.bracketed p) := by
  suffices hn : ∀ n, Blames (Parser.bracketedUpTo p n) from fun _ _ hfault => hn _ hfault
  intro n
  induction n with
  | zero =>
    refine .bind (check _) fun found => ?_
    split
    · exact bottomless
    · exact .pure _
  | succ n ih =>
    refine .bind (check _) fun found => ?_
    split
    · exact .bind h fun _ => .bind ih fun _ => .pure _
    · exact .pure _

/-! ### Expressions -/

section Expressions

variable {nested : Nested}

theorem invalidInExpression (found : Token) : Blames (Parser.invalidInExpression found : Parser α) :=
  fail (.invalidExpressionToken _) _

theorem delayUnit : Blames Parser.delayUnit := of_ok fun c => ⟨_, delayUnit_eq c⟩

theorem systemIdentifier : Blames Parser.systemIdentifier := by
  refine .tagged <| .bind (demandWith _ _) fun dollar => .bind current? fun word => ?_
  split
  · split
    · exact .bind advance? fun _ => .pure _
    · exact invalidInExpression dollar
  · exact invalidInExpression dollar

variable (hn : ∀ floor, Blames (nested floor))

include hn

theorem listOf : Blames (Parser.listOf nested) := by
  refine .bind atEnd fun ended => ?_
  split
  · exact .pure _
  · exact listBy (comma _) (hn 0)

theorem delayOf : Blames (Parser.delayOf nested) :=
  .tagged <| .bind (expectAs _ _) fun _ => .bind (hn _) fun _ => .bind delayUnit fun _ => .pure _

theorem callOf (callee : Expr Site) : Blames (Parser.callOf nested callee) := by
  refine .bind (check _) fun found => ?_
  split
  · exact .bind (.tagged <| .bind (.enclosed (listOf hn)) fun _ => .pure _) fun _ => .bind (since _) fun _ => .pure _
  · exact .pure callee

theorem bracesOf : Blames (Parser.bracesOf nested) := by
  refine .tagged <| .enclosed <| .bind (hn 0) fun first => .bind (check _) fun found => ?_
  split
  · exact .bind (.enclosed (listOf hn)) fun _ => .bind (expectEnd _) fun _ => .pure _
  · exact .bind (followers (comma _) (hn 0)) fun _ => .pure _

theorem primaryOf (token : Token) : Blames (Parser.primaryOf nested token) := by
  unfold Parser.primaryOf
  split
  · exact .tagged <| .bind (.enclosed (filling _ (hn 0))) fun _ => .pure _
  · exact bracesOf hn
  · refine .bind (peekKind? 1) fun next => ?_
    split
    · exact .tagged <| .bind advance? fun _ => .bind (.enclosed (listOf hn)) fun _ => .pure _
    · exact invalidInExpression token
  · exact .tagged <| .bind advance? fun _ => .pure _
  · exact .tagged <| .bind advance? fun _ => .pure _
  · exact .bind systemIdentifier fun _ => callOf hn _
  · split
    · exact .bind (.tagged <| .bind advance? fun _ => .pure _) fun _ => callOf hn _
    · exact invalidInExpression token

theorem operandOf : Blames (Parser.operandOf nested) := by
  refine .bind current? fun next => ?_
  split
  · exact unexpectedEnd _
  · split
    · exact .tagged <| .bind advance? fun _ => .bind (hn _) fun _ => .pure _
    · exact primaryOf hn _

theorem selectorOf (target : Expr Site) : Blames (Parser.selectorOf nested target) := by
  refine .bind (hn 0) fun first => .bind current? fun next => ?_
  split
  · exact .pure _
  · split
    · exact unexpected _ _
    · exact .bind advance? fun _ => .bind (filling _ (hn 0)) fun _ => .pure _

theorem assignmentOf (op : AssignOp) (target : Expr Site) : Blames (Parser.assignmentOf nested op target) := by
  refine .bind (check _) fun found => ?_
  split
  · exact .bind (delayOf hn) fun _ => .bind (hn _) fun _ => .pure _
  · exact .bind (hn _) fun _ => .pure _

theorem connectiveOf (connective : Connective) (lhs : Expr Site) :
    Blames (Parser.connectiveOf nested connective lhs) := by
  cases connective with
  | select => exact .enclosed (selectorOf hn lhs)
  | scope => exact .bind advance? fun _ => .bind name fun _ => .pure _
  | member => exact .bind advance? fun _ => .bind name fun _ => .pure _
  | postfixOp op => exact .bind advance? fun _ => .pure _
  | conditional =>
    exact .bind advance? fun _ => .bind (hn 0) fun _ => .bind (expectAs _ _) fun _ => .bind (hn _) fun _ => .pure _
  | assignment op => exact .bind advance? fun _ => assignmentOf hn op lhs
  | binary op => exact .bind advance? fun _ => .bind (hn _) fun _ => .pure _

theorem climbUpTo (reading : LessEqualReading) (floor n : Nat) (lhs : Expr Site) :
    Blames (Parser.climbUpTo nested reading floor n lhs) := by
  induction n generalizing lhs with
  | zero =>
    refine .bind atEnd fun ended => ?_
    split
    · exact .pure lhs
    · exact bottomless
  | succ n ih =>
    refine .bind currentKind? fun next => ?_
    split
    · exact .pure lhs
    · split
      · exact .pure lhs
      · exact .bind (connectiveOf hn _ lhs) fun _ => .bind (since _) fun _ => ih _

end Expressions

theorem expressionWithin (budget : Nat) (reading : LessEqualReading) (floor : Nat) :
    Blames (Parser.expressionWithin budget reading floor) := by
  induction budget generalizing reading floor with
  | zero => exact bottomless
  | succ budget ih =>
    exact .bind (operandOf fun _ => ih .compares _) fun lhs _ _ hfault =>
      climbUpTo (fun _ => ih .compares _) reading floor _ lhs hfault

theorem expression : Blames Parser.expression := fun _ _ hfault => expressionWithin _ .compares 0 hfault

/-! ### Declarations -/

theorem dimension : Blames Parser.dimension := by
  refine .tagged <| .enclosed <| .bind (spanBefore? _) fun found => ?_
  split
  · exact .bind (within _ (filling _ expression)) fun _ => .bind (filling _ expression) fun _ => .pure _
  · exact .bind (filling _ expression) fun _ => .pure _

theorem packedBounds : Blames Parser.packedBounds :=
  .bind location fun here => .bind dimension fun d => by
    cases d with
    | bounds b => exact .pure b
    | size tag index => exact fail .packedSize here

theorem dataType : Blames Parser.dataType := by
  rw [dataType_eq]
  refine .bind currentKind? fun next => ?_
  split
  · exact .pure none
  · split
    · refine .tagged <| .bind (tryBy _) fun keyword => .bind (?_ : Blames (signingOf keyword)) fun _ =>
        .bind (?_ : Blames (packedOf keyword)) fun _ => .pure _
      · unfold signingOf
        split
        · exact tryBy _
        · exact .pure none
      · unfold packedOf
        split
        · exact bracketed packedBounds
        · exact .pure []
    · exact .pure none

theorem declarator : Blames Parser.declarator := by
  refine .tagged <| .bind name fun _ => .bind (bracketed dimension) fun _ => .bind (eat _) fun found => ?_
  split
  · exact .bind expression fun _ => .pure _
  · exact .pure _

theorem portEntry : Blames Parser.portEntry :=
  .tagged <| .bind (tryBy _) fun _ => .bind (tryBy _) fun _ => .bind dataType fun _ => .bind declarator fun _ =>
    .pure _

theorem portNames : Blames Parser.portNames :=
  listBy (comma _) <| .tagged <| .bind name fun _ => .pure _

end Blames

end SystemVerilog
