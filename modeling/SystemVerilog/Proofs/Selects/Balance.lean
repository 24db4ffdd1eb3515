import SystemVerilog.Proofs.Expression.Climbing
import SystemVerilog.Proofs.Reading.Choices

/-!
# Brackets in what is read as an expression

An expression reader passes over tokens whose brackets nest and whose conditionals have their colons, whatever
stands between them: a pair is read with all that it holds, and a question mark with its colon. A comma is read
inside a pair only (`Undivided`). So a scan that counts brackets and question marks passes over every expression
as a whole, and so does one for the commas of a list.
-/

namespace SystemVerilog

open SystemVerilog.Parser

/-- Neither a bracket nor a mark of a conditional. -/
def Token.IsFlat (t : Token) : Prop := t.kind.isFlat = true

/-- Neither a bracket, a mark of a conditional nor a comma. -/
def TokenKind.isBare (kind : TokenKind) : Bool := kind.isFlat && kind != .op .comma

/-- Balanced tokens without a comma outside their brackets. -/
inductive Undivided : List Token → Prop
  | nil : Undivided []
  | one {t : Token} : t.kind.isBare = true → Undivided [t]
  | append {ts us : List Token} : Undivided ts → Undivided us → Undivided (ts ++ us)
  | pair {o c : Token} {ts : List Token} : (o.kind, c.kind) ∈ bracketPairs → Balanced Token.IsFlat ts →
      Undivided (o :: (ts ++ [c]))
  | bounds {o m c : Token} {ts us : List Token} : o.kind = .op .lBracket → m.kind = .op .colon →
      c.kind = .op .rBracket → Balanced Token.IsFlat ts → Balanced Token.IsFlat us →
      Undivided (o :: (ts ++ m :: (us ++ [c])))
  | choice {q m : Token} {ts : List Token} : q.kind = .op .questionMark → m.kind = .op .colon →
      Undivided ts → Undivided (q :: (ts ++ [m]))

namespace Undivided

variable {t : Token} {ts : List Token}

theorem cons (ht : t.kind.isBare = true) (hts : Undivided ts) : Undivided (t :: ts) := append (.one ht) hts

theorem balanced (h : Undivided ts) : Balanced Token.IsFlat ts := by
  induction h with
  | nil => exact .nil
  | one ht => exact .one ((Bool.and_eq_true _ _).mp ht).1
  | append _ _ ih ih' => exact .append ih ih'
  | pair hpair hts => exact .pair hpair hts
  | bounds ho hm hc hts hus => exact .bounds ho hm hc hts hus
  | choice hq hm _ ih => exact .choice hq hm ih

end Undivided

/-! ### Bare kinds -/

section Bare

variable {kind : TokenKind}

theorem TokenKind.isBare_of_ne_op (h : ∀ op, kind ≠ .op op) : kind.isBare = true := by
  cases kind with
  | op op => exact absurd rfl (h op)
  | _ => rfl

theorem TokenKind.isBare_of_isWord (h : kind.isWord = true) : kind.isBare = true :=
  isBare_of_ne_op fun op hop => by
    rw [hop] at h
    cases h

theorem TokenKind.isBare_of_isName (h : kind.isName = true) : kind.isBare = true :=
  isBare_of_ne_op fun op hop => by
    rw [hop] at h
    cases h

theorem UnaryOp.isBare {op : UnaryOp} (h : kind ∈ op.kinds) : kind.isBare = true := by
  revert h
  revert kind
  cases op <;> decide

theorem BinaryOp.isBare {op : BinaryOp} (h : kind ∈ op.kinds) : kind.isBare = true := by
  revert h
  revert kind
  cases op <;> decide

theorem AssignOp.isBare (op : AssignOp) : op.kind.isBare = true := by cases op <;> decide

theorem TokenKind.isBare_of_literalKind? {t : Token} {literal : LiteralKind} (h : t.literalKind? = some literal) :
    t.kind.isBare = true :=
  isBare_of_ne_op fun op hop => by
    rw [Token.literalKind?, hop] at h
    cases h

end Bare

/-- Kinds that count as the two brackets of a pair are that pair. -/
theorem mem_bracketPairs_of_inFamily {opening closing o cl : TokenKind} (h : (opening, closing) ∈ bracketPairs)
    (ho : o.inFamily opening = true) (hcl : cl.inFamily closing = true) : (o, cl) ∈ bracketPairs := by
  simp only [bracketPairs, List.mem_cons, Prod.mk.injEq, List.not_mem_nil, or_false] at h
  rcases h with ⟨rfl, rfl⟩ | ⟨rfl, rfl⟩ | ⟨rfl, rfl⟩ <;> rw [eq_of_beq ho, eq_of_beq hcl] <;> decide

/-! ### Judgements -/

section Judgements

variable {α β : Type}

/-- Whatever the parser reads from the cursor is undivided. -/
def UndividedAt (c : Cursor) (p : Parser α) : Prop :=
  ∀ ⦃a c'⦄, p c = .ok (a, c') → ∃ ts, c.Steps ts c' ∧ Undivided ts

/-- The parser reads no span to its end but one with balanced brackets. -/
def FillsAt (c : Cursor) (p : Parser α) : Prop := ∀ ⦃a c'⦄, p c = .ok (a, c') → Balanced Token.IsFlat c.after

variable {c : Cursor} {p : Parser α} {f : α → Parser β}

namespace UndividedAt

theorem of_error (h : ∀ a c', p c ≠ .ok (a, c')) : UndividedAt c p := fun a c' hread => absurd hread (h a c')

theorem pure (a : α) : UndividedAt c (Pure.pure a : Parser α) := by
  intro b c' hread
  obtain ⟨rfl, rfl⟩ := pure_eq_ok.1 hread
  exact ⟨[], .refl _, .nil⟩

theorem bind (hp : UndividedAt c p) (hf : ∀ a c₁, UndividedAt c₁ (f a)) : UndividedAt c (p >>= f) := by
  intro b c' hread
  obtain ⟨a, c₁, hreadp, hreadf⟩ := bind_eq_ok.1 hread
  obtain ⟨ts, hts, hundivided⟩ := hp hreadp
  obtain ⟨us, hus, hundivided'⟩ := hf a c₁ hreadf
  exact ⟨ts ++ us, hts.trans hus, .append hundivided hundivided'⟩

theorem tagged {p : Parser (Site → α)} (hp : UndividedAt c p) : UndividedAt c (SystemVerilog.tagged p) := by
  intro a c' hread
  obtain ⟨node, hnode, -⟩ := tagged_eq_ok.1 hread
  exact hp hnode

theorem demandWith {test : TokenKind → Bool} (htest : ∀ kind, test kind = true → kind.isBare = true)
    (expected : String) : UndividedAt c (Parser.demandWith test expected) := by
  intro t c' hread
  obtain ⟨rest, hafter, ht, rfl⟩ := demandWith_eq_ok.1 hread
  exact ⟨[t], .one hafter, .one (htest _ ht)⟩

theorem expectAs {kind : TokenKind} (hkind : kind.isBare = true) (expected : String) :
    UndividedAt c (Parser.expectAs kind expected) :=
  demandWith (fun kind' h => by rw [eq_of_beq h]; exact hkind) expected

theorem name : UndividedAt c Parser.name :=
  .bind (.demandWith (fun _ h => TokenKind.isBare_of_isName h) _) fun _ _ => .pure _

/-- A pair whose interior is read to its end. -/
theorem enclosed {opening closing : TokenKind} (hpair : (opening, closing) ∈ bracketPairs)
    (hp : ∀ c, FillsAt c p) : UndividedAt c (SystemVerilog.enclosed opening closing p) := by
  intro a c' hread
  obtain ⟨o, ts, cl, c₁, hsteps, ho, hcl, -, hinner⟩ := enclosed_eq_ok hread
  have hts : Balanced Token.IsFlat ts := by
    rw [← interior_after hsteps]
    exact hp _ hinner
  exact ⟨_, hsteps, .pair (mem_bracketPairs_of_inFamily hpair ho hcl) hts⟩

end UndividedAt

namespace FillsAt

theorem bind (hp : UndividedAt c p) (hf : ∀ a c₁, FillsAt c₁ (f a)) : FillsAt c (p >>= f) := by
  intro b c' hread
  obtain ⟨a, c₁, hreadp, hreadf⟩ := bind_eq_ok.1 hread
  obtain ⟨ts, hts, hundivided⟩ := hp hreadp
  rw [hts.after]
  exact .append hundivided.balanced (hf a c₁ hreadf)

/-- What is done behind a span that has been read to its end does not matter. -/
theorem bind_of_fills (hp : FillsAt c p) : FillsAt c (p >>= f) := by
  intro b c' hread
  obtain ⟨a, c₁, hreadp, -⟩ := bind_eq_ok.1 hread
  exact hp hreadp

theorem filling (hp : UndividedAt c p) (expected : String) : FillsAt c (Parser.filling expected p) := by
  intro a c' hread
  obtain ⟨hreadp, hend⟩ := filling_eq_ok.1 hread
  obtain ⟨ts, hts, hundivided⟩ := hp hreadp
  rw [hts.after, hend, List.append_nil]
  exact hundivided.balanced

/-- Elements are read up to the end of the span. -/
theorem followers (expected : String) (hp : ∀ c, UndividedAt c p) :
    FillsAt c (Parser.followers (Parser.comma expected) p) := by
  suffices h : ∀ {n as c'}, Led (Parser.comma expected) p n c as c' → Balanced Token.IsFlat c.after from
    fun _ _ hread => h (followersUpTo_eq_ok.1 hread)
  intro n as c' hled
  induction hled with
  | done hend =>
    rw [hend]
    exact .nil
  | more _ hmark hread _ ih =>
    obtain ⟨t, rest, hafter, ht, rfl⟩ := comma_eq_ok.1 hmark
    obtain ⟨us, hus, hundivided⟩ := hp _ hread
    have hflat : t.IsFlat := by rw [Token.IsFlat, ht]; rfl
    rw [(Cursor.Steps.one hafter).after, hus.after]
    exact .append (.one hflat) (.append hundivided.balanced ih)

end FillsAt

end Judgements

/-! ### Lists and delays -/

section Readers

variable {c c' : Cursor} {nested : Nested} {e : Expr Site} {token : Token} {rest : List Token}

/-- A unit of time is a word. -/
theorem isBare_of_unitBehind {last? : Option Token} {t : Token} {unit : TimeUnit}
    (h : unitBehind last? (some t) = some unit) : t.kind.isBare = true := by
  cases last? with
  | none => cases h
  | some last =>
    have hunit : TimeUnit.ofKind? t.kind = some unit := by
      simp only [unitBehind] at h
      split at h
      · exact h
      · cases h
    refine TokenKind.isBare_of_ne_op fun op hop => ?_
    rw [hop] at hunit
    cases hunit

theorem undividedAt_delayUnit : UndividedAt c delayUnit := by
  intro unit c' hread
  rw [delayUnit_eq] at hread
  obtain ⟨-, rfl⟩ := Prod.mk.inj (Except.ok.inj hread)
  cases hunit : unitBehind c.last? c.current? with
  | none => exact ⟨[], .refl _, .nil⟩
  | some unit =>
    cases hafter : c.after with
    | nil =>
      rw [Cursor.current?, hafter] at hunit
      cases hlast : c.last? <;> rw [hlast] at hunit <;> cases hunit
    | cons t us =>
      rw [Cursor.current?, hafter] at hunit
      exact ⟨[t], .one hafter, .one (isBare_of_unitBehind hunit)⟩

variable (hn : ∀ floor c, UndividedAt c (nested floor))

include hn

theorem fillsAt_listOf : FillsAt c (listOf nested) := by
  intro es c' hread
  rw [listOf, atEnd_bind] at hread
  split at hread
  · rename_i hend
    rw [Cursor.atEnd_eq_true_iff.1 hend]
    exact .nil
  · refine FillsAt.bind (hn 0 c) (fun _ c₁ => .bind_of_fills ?_) hread
    exact .followers _ (hn 0)

theorem undividedAt_delayOf : UndividedAt c (delayOf nested) :=
  .tagged <| .bind (.expectAs rfl _) fun _ c₁ => .bind (hn _ c₁) fun _ _ => .bind undividedAt_delayUnit fun _ _ =>
    .pure _

/-! ### Operands -/

theorem undividedAt_enclosed_listOf {opening closing : TokenKind} (hpair : (opening, closing) ∈ bracketPairs) :
    UndividedAt c (enclosed opening closing (listOf nested) : Parser _) :=
  .enclosed hpair fun _ => fillsAt_listOf hn

omit hn in
theorem Parser.Named.undivided (h : Named token c e c') (hafter : c.after = token :: rest) :
    ∃ ts, c.Steps ts c' ∧ Undivided ts := by
  cases h with
  | identifier hname => exact ⟨[token], .one hafter, .one (TokenKind.isBare_of_isName hname)⟩
  | @systemIdentifier word _ hdollar hahead hword =>
    exact ⟨[token, word], .of_after hahead, .cons (by rw [hdollar]; rfl) (.one (TokenKind.isBare_of_isWord hword))⟩

theorem Parser.Called.undivided {callee : Expr Site} (h : Called nested callee c e c') :
    ∃ ts, c.Steps ts c' ∧ Undivided ts := by
  cases h with
  | bare => exact ⟨[], .refl _, .nil⟩
  | call hread => exact undividedAt_enclosed_listOf hn (by decide) hread

theorem Parser.Primary.undivided (h : Primary nested token c e c') (hafter : c.after = token :: rest) :
    ∃ ts, c.Steps ts c' ∧ Undivided ts := by
  cases h with
  | parenthesis _ hread => exact UndividedAt.enclosed (by decide) (fun c₁ => .filling (hn 0 c₁) _) hread
  | replication _ hsteps ho hcl hread hinner hend =>
    obtain ⟨us, hus, hfirst⟩ := hn 0 _ hread
    obtain ⟨vs, hvs, hitems⟩ := undividedAt_enclosed_listOf hn (by decide) hinner
    obtain rfl := (interior_after hsteps).symm.trans (steps_to_end (hus.trans hvs) hend)
    exact ⟨_, hsteps, .pair (by rw [ho, hcl]; decide) (.append hfirst.balanced hitems.balanced)⟩
  | concatenation _ hsteps ho hcl hread _ hmore =>
    obtain ⟨us, hus, hfirst⟩ := hn 0 _ hread
    refine ⟨_, hsteps, .pair (by rw [ho, hcl]; decide) ?_⟩
    rw [← interior_after hsteps, hus.after]
    exact .append hfirst.balanced (FillsAt.followers _ (hn 0) hmore)
  | arrayPattern hquote hread =>
    obtain ⟨us, hus, hitems⟩ := undividedAt_enclosed_listOf hn (by decide) hread
    exact ⟨token :: us, (Cursor.Steps.one hafter).trans hus, .cons (by rw [hquote]; rfl) hitems⟩
  | literal hcopies => exact ⟨[token], .one hafter, .one (TokenKind.isBare_of_literalKind? hcopies)⟩
  | named hnamed hcalled =>
    obtain ⟨us, hus, hname⟩ := hnamed.undivided hafter
    obtain ⟨vs, hvs, hargs⟩ := hcalled.undivided hn
    exact ⟨us ++ vs, hus.trans hvs, .append hname hargs⟩

theorem undividedAt_operandOf : UndividedAt c (operandOf nested) := by
  intro e c' hread
  obtain ⟨token, rest, hafter, ⟨op, operand, hop, hoperand, -⟩ | ⟨-, hprimary⟩⟩ := operandOf_inv hread
  · have hbare : token.kind.isBare = true := UnaryOp.isBare (UnaryOp.ofKind?_eq_some_iff.1 hop).2
    obtain ⟨us, hus, hundivided⟩ := hn _ _ hoperand
    exact ⟨token :: us, (Cursor.Steps.one hafter).trans hus, .cons hbare hundivided⟩
  · exact (primaryOf_inv hafter hprimary).undivided hn hafter

/-! ### Connectives -/

/-- Two bounds may have a colon between them, which the brackets around it answer, and a question mark has its colon. -/
theorem Parser.Joined.undivided {reading : LessEqualReading} {k : Connective} {lhs : Expr Site}
    {node : Site → Expr Site} (h : Joined nested lhs c k node c') (hafter : c.after = token :: rest)
    (hk : Connective.ofKind? reading token.kind = some k) : ∃ ts, c.Steps ts c' ∧ Undivided ts := by
  have hmark := Connective.ofKind?_eq_some_iff.1 hk
  have hone : c.Steps [token] (c.skip 1) := .one hafter
  cases h with
  | index hsteps ho hcl hread hend =>
    obtain ⟨us, hus, hundivided⟩ := hn 0 _ hread
    obtain rfl := (interior_after hsteps).symm.trans (steps_to_end hus hend)
    exact ⟨_, hsteps, .pair (by rw [ho, hcl]; decide) hundivided.balanced⟩
  | @slice o cl m _ _ kind _ _ _ _ _ hsteps ho hcl hleft hahead hm hright hend =>
    obtain ⟨us, hus, hfirst⟩ := hn 0 _ hleft
    obtain ⟨vs, hvs, hsecond⟩ := hn 0 _ hright
    obtain rfl := (interior_after hsteps).symm.trans (steps_to_end ((hus.trans (.one hahead)).trans hvs) hend)
    refine ⟨_, hsteps, ?_⟩
    have hindexed (hflat : m.IsFlat) : Undivided (o :: ((us ++ [m]) ++ vs ++ [cl])) :=
      .pair (by rw [ho, hcl]; decide) (.append (.append hfirst.balanced (.one hflat)) hsecond.balanced)
    cases kind with
    | range => simpa using Undivided.bounds ho hm hcl hfirst.balanced hsecond.balanced
    | indexedUp | indexedDown => exact hindexed (by rw [Token.IsFlat, hm]; rfl)
  | scope hahead hname | member hahead hname =>
    have hbare : token.kind.isBare = true := by rw [show token.kind = _ from hmark]; rfl
    exact ⟨_, hone.trans (.one hahead), .append (.one hbare) (.one (TokenKind.isBare_of_isName hname))⟩
  | postfixOp => exact ⟨_, hone, .one (UnaryOp.isBare hmark.2)⟩
  | conditional hthen hahead hcolon helse =>
    obtain ⟨us, hus, hfirst⟩ := hn 0 _ hthen
    obtain ⟨vs, hvs, hsecond⟩ := hn _ _ helse
    exact ⟨_, (hone.trans (hus.trans (.one hahead))).trans hvs, .append (.choice hmark hcolon hfirst) hsecond⟩
  | @assignment op _ _ _ hvalue =>
    obtain ⟨us, hus, hundivided⟩ := hn _ _ hvalue
    exact ⟨_, hone.trans hus, .cons (hmark.1 ▸ op.isBare) hundivided⟩
  | @delayedAssignment op _ _ _ _ _ hdelay hvalue =>
    obtain ⟨us, hus, hwait⟩ := undividedAt_delayOf hn hdelay
    obtain ⟨vs, hvs, hundivided⟩ := hn _ _ hvalue
    exact ⟨_, hone.trans (hus.trans hvs), .append (.one (hmark.1 ▸ op.isBare)) (.append hwait hundivided)⟩
  | binary hrhs =>
    obtain ⟨us, hus, hundivided⟩ := hn _ _ hrhs
    exact ⟨_, hone.trans hus, .cons (BinaryOp.isBare hmark.1) hundivided⟩

theorem undividedAt_climbUpTo {reading : LessEqualReading} {floor n : Nat} {lhs : Expr Site} :
    UndividedAt c (climbUpTo nested reading floor n lhs) := by
  intro e c' hread
  replace hread := climbUpTo_eq_ok.1 hread
  induction hread with
  | stop => exact ⟨[], .refl _, .nil⟩
  | turn hafter hk _ hnode _ ih =>
    obtain ⟨ts, hts, hundivided⟩ := (connectiveOf_inv hnode).undivided hn hafter hk
    obtain ⟨us, hus, hundivided'⟩ := ih
    exact ⟨ts ++ us, hts.trans hus, .append hundivided hundivided'⟩

end Readers

/-- What is read as an expression is undivided. -/
theorem undividedAt_expressionWithin (budget : Nat) (reading : LessEqualReading) (floor : Nat) (c : Cursor) :
    UndividedAt c (expressionWithin budget reading floor) := by
  induction budget generalizing reading floor c with
  | zero => exact .of_error nofun
  | succ budget ih =>
    have hn : ∀ floor c, UndividedAt c (expressionWithin budget .compares floor) := ih .compares
    exact .bind (undividedAt_operandOf hn) fun _ _ _ _ hread => undividedAt_climbUpTo hn hread

end SystemVerilog
