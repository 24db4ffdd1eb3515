import SystemVerilog.Proofs.Ranges.Expressions

/-!
# What holds of whatever is read

`Ensures ts p P` says that every value which `p` reads from tokens of `ts` has the property `P`. The rules
follow the combinators; readers that hold nothing of interest are passed over by what they lay out. A cursor
over a part of the span is a value too, and its property is that it sees tokens of `ts`.
-/

namespace SystemVerilog

open SystemVerilog.Parser

variable {m : Type → Type} [Monad m] [MonadStateOf Cursor m] [MonadLiftT Parser m] [Reader m]
  {α β : Type} {ts : List Token}

/-- Whatever is read from tokens of `ts` has a property. -/
def Ensures (ts : List Token) (p : m α) (P : α → Prop) : Prop :=
  ∀ ⦃c a c'⦄, c.Sees ts → Reader.Gives p c a c' → c'.Sees ts ∧ P a

/-- All of some values have a property. -/
abbrev Every (P : α → Prop) (as : List α) : Prop := ∀ a ∈ as, P a

namespace Ensures

section Rules

variable {p : m α} {f : α → m β} {P : α → Prop} {Q : β → Prop}

theorem pure {a : α} (h : P a) : Ensures ts (Pure.pure a : m α) P := by
  intro c b c' hc hread
  obtain ⟨rfl, rfl⟩ := Reader.pure_inv hread
  exact ⟨hc, h⟩

theorem bind (hp : Ensures ts p P) (hf : ∀ a, P a → Ensures ts (f a) Q) : Ensures ts (p >>= f) Q := by
  intro c b c' hc hread
  obtain ⟨a, c₁, ha, hrest⟩ := Reader.bind_inv hread
  obtain ⟨hc₁, hP⟩ := hp hc ha
  exact hf a hP hc₁ hrest

/-- What is read first does not matter. -/
theorem silent {out : α → List Outline} (hp : ∀ {c : Cursor}, Lays ts c p out) (hf : ∀ a, Ensures ts (f a) Q) :
    Ensures ts (p >>= f) Q :=
  bind (P := fun _ => True) (fun _ _ _ hc hread => ⟨(hp.advance hc hread).sees hc, trivial⟩) fun a _ => hf a

theorem lift {p : Parser α} (h : Ensures ts p P) : Ensures ts (monadLift p : m α) P :=
  fun _ _ _ hc hread => h hc (Reader.lift_inv hread)

theorem tagged {p : m (Site → α)} (h : Ensures ts p fun node => ∀ site, P (node site)) :
    Ensures ts (SystemVerilog.tagged p) P := by
  intro c a c' hc hread
  obtain ⟨node, hnode, rfl⟩ := tagged_inv hread
  obtain ⟨hc', hP⟩ := h hc hnode
  exact ⟨hc', hP _⟩

theorem within {part : Cursor} (hpart : part.Sees ts) (h : Ensures ts p P) :
    Ensures ts (SystemVerilog.within part p) P := by
  intro c a c' hc hread
  obtain ⟨⟨c₁, hinner⟩, rfl⟩ := within_inv hread
  exact ⟨hc, (h hpart hinner).2⟩

theorem interior (opening closing : TokenKind) :
    Ensures ts (Parser.interior opening closing) fun part => part.Sees ts := by
  intro c part c' hc hread
  obtain ⟨d, c₁, hdistance, hspan⟩ := bind_eq_ok.1 hread
  obtain ⟨rfl, -, -⟩ := closerDistance_inv hdistance
  obtain ⟨rfl, rfl⟩ := Prod.mk.inj (Except.ok.inj hspan)
  exact ⟨hc.skip _, (hc.skip 1).ahead _⟩

theorem enclosed {opening closing : TokenKind} (h : Ensures ts p P) :
    Ensures ts (SystemVerilog.enclosed opening closing p) P :=
  bind (lift (interior opening closing)) fun _ hpart => within hpart h

end Rules

/-! ### Parsers -/

section Parsers

variable {p : Parser α} {P : α → Prop}

theorem of_error (h : ∀ c a c', p c ≠ .ok (a, c')) : Ensures ts p P :=
  fun c a c' _ hread => absurd hread (h c a c')

theorem filling (expected : String) (h : Ensures ts p P) : Ensures ts (Parser.filling expected p) P :=
  fun _ _ _ hc hread => h hc (filling_eq_ok.1 hread).1

theorem followersUpTo {separator : Parser Unit} (hs : ∀ {c : Cursor}, Lays ts c separator fun _ => [])
    (h : Ensures ts p P) (n : Nat) : Ensures ts (Parser.followersUpTo separator p n) (Every P) := by
  induction n with
  | zero =>
    refine silent .atEnd fun _ => ?_
    split
    · exact .pure nofun
    · exact of_error fun _ _ _ => bottomless_ne_ok
  | succ n ih =>
    refine silent .atEnd fun _ => ?_
    split
    · exact .pure nofun
    · exact silent hs fun _ => bind h fun _ ha => bind ih fun _ has => .pure (List.forall_mem_cons.2 ⟨ha, has⟩)

theorem followers {separator : Parser Unit} (hs : ∀ {c : Cursor}, Lays ts c separator fun _ => [])
    (h : Ensures ts p P) : Ensures ts (Parser.followers separator p) (Every P) :=
  fun c _ _ hc hread => followersUpTo hs h c.after.length hc hread

theorem listBy {separator : Parser Unit} (hs : ∀ {c : Cursor}, Lays ts c separator fun _ => [])
    (h : Ensures ts p P) : Ensures ts (Parser.listBy separator p) (Every P) :=
  bind h fun _ ha => bind (followers hs h) fun _ has => .pure (List.forall_mem_cons.2 ⟨ha, has⟩)

/-! ### Lists and delays -/

section Nested

variable {nested : Nested} {Q : Expr Site → Prop}

theorem listOf (hn : Ensures ts (nested 0) Q) : Ensures ts (Parser.listOf nested) (Every Q) :=
  silent .atEnd fun _ => by
    split
    · exact .pure nofun
    · exact listBy (Takes.comma _).lays hn

theorem delayOf (hn : Ensures ts (nested prefixPower) Q) :
    Ensures ts (Parser.delayOf nested) fun d => Q d.magnitude :=
  .tagged <| silent (Takes.expect _).lays fun _ => bind hn fun _ hmagnitude =>
    silent .delayUnit fun _ => .pure fun _ => hmagnitude

end Nested

end Parsers

end Ensures

end SystemVerilog
