import SystemVerilog.Proofs.Reading.Regions
import SystemVerilog.Proofs.Roots.Judgement
import SystemVerilog.Proofs.Walks.References

/-!
# No expression starts behind a qualifier

A name behind a dot, a scope mark or a dollar sign belongs to what stands before it, so no reader of expressions is
started there. `Opens ts c p P` says that a reader started in front of tokens of `ts`, and not behind a qualifier,
also stops so, and that what it reads has the property `P`. The rules follow the combinators. What is read over token
by token has to be known not to be a qualifier; expressions read over some, but never end with one.
-/

namespace SystemVerilog

open SystemVerilog.Parser

/-- A cursor in front of tokens of a source, and not behind a qualifier. -/
structure Cursor.Ready (ts : List Token) (c : Cursor) : Prop where
  sees : c.Sees ts
  plain : qualifiedAt ts c.position = false

section Cursors

variable {ts us rest : List Token} {c c' : Cursor} {t : Token} {n : Nat}

theorem Cursor.Sees.getElem? (h : c.Sees ts) (hget : c.after[n]? = some t) : ts[c.position + n]? = some t := by
  obtain ⟨more, hmore⟩ := h
  have hlt : n < c.after.length := (List.getElem?_eq_some_iff.1 hget).1
  rw [← List.getElem?_drop, ← hmore, List.getElem?_append_left hlt, hget]

/-- Behind a token that is no qualifier. -/
theorem Cursor.Sees.ready_skip (h : c.Sees ts) (hget : c.after[n]? = some t) (ht : t.kind.isQualifier = false) :
    (c.skip (n + 1)).Ready ts := by
  refine ⟨h.skip _, ?_⟩
  have hlt : n < c.after.length := (List.getElem?_eq_some_iff.1 hget).1
  rw [position_skip, Nat.min_eq_left hlt]
  exact (qualifiedAt_succ (h.getElem? hget)).trans ht

theorem Cursor.Sees.ready_next (h : c.Sees ts) (hafter : c.after = t :: rest) (ht : t.kind.isQualifier = false) :
    (c.skip 1).Ready ts :=
  h.ready_skip (n := 0) (by rw [hafter]; rfl) ht

theorem Cursor.Ready.ahead (h : c.Ready ts) (n : Nat) : (c.ahead n).Ready ts := ⟨h.sees.ahead n, h.plain⟩

/-- What comes next comes next in every part of the span too. -/
theorem Cursor.plain_ahead {kind : TokenKind} (h : c.currentKind? = some kind) (hkind : kind.isQualifier = false)
    (t : Token) (rest : List Token) (hafter : (c.ahead n).after = t :: rest) : t.kind.isQualifier = false := by
  obtain ⟨u, us, hus, rfl⟩ := after_of_kind h
  rw [ahead_after, hus] at hafter
  cases n with
  | zero => cases hafter
  | succ n =>
    obtain ⟨rfl, -⟩ := List.cons.inj hafter
    exact hkind

theorem Cursor.ready_root (tokens : List Token) : (root tokens).Ready (root tokens).after := ⟨sees_root tokens, rfl⟩

/-- No expression ends with a qualifier. -/
theorem Expr.Fills.ready {e : Expr Site} (h : e.Fills c c') (hc : c.Ready ts) : c'.Ready ts := by
  obtain ⟨us, hsteps, hocc⟩ := h.segments
  refine ⟨hsteps.eq_skip ▸ hc.sees.skip _, ?_⟩
  have hahead : us ++ c'.after <+: ts.drop c.position := hsteps.after ▸ (hc.sees : c.after <+: ts.drop c.position)
  rw [hsteps.position]
  exact hocc.qualifiedAt_stop (append_prefix_drop hahead).1 hc.plain

theorem TokenKind.isQualifier_of_inFamily {kind target : TokenKind} (h : kind.inFamily target = true)
    (ht : target.isQualifier = false) : kind.isQualifier = false := by
  unfold inFamily at h
  split at h
  · simp only [Bool.or_eq_true, beq_iff_eq, or_assoc] at h
    rcases h with rfl | rfl | rfl <;> rfl
  · rwa [eq_of_beq h]

theorem TokenKind.isQualifier_of_keywordIn {kind : TokenKind} {q : Keyword → Bool} {k : Keyword}
    (h : keywordIn? q kind = some k) : kind.isQualifier = false := by
  cases kind <;> first | rfl | cases h

theorem TokenKind.isQualifier_of_signing {kind : TokenKind} {signing : Signing}
    (h : Signing.ofKind? kind = some signing) : kind.isQualifier = false := by
  unfold Signing.ofKind? at h
  split at h <;> first | rfl | cases h

theorem TokenKind.isQualifier_of_direction {kind : TokenKind} {direction : Direction}
    (h : Direction.ofKind? kind = some direction) : kind.isQualifier = false := by
  unfold Direction.ofKind? at h
  split at h <;> first | rfl | cases h

theorem TokenKind.isQualifier_of_edge {kind : TokenKind} {edge : Edge} (h : Edge.ofKind? kind = some edge) :
    kind.isQualifier = false := by
  unfold Edge.ofKind? at h
  split at h <;> first | rfl | cases h

/-- The closer that is found stands at its distance. -/
theorem closer_of_closerDistance {opening closing : TokenKind} (h : closerDistance opening closing c = .ok (n, c')) :
    c' = c ∧ ∃ cl, c.after[n]? = some cl ∧ cl.kind.inFamily closing = true := by
  obtain ⟨rfl, -, hn⟩ := closerDistance_inv h
  obtain ⟨us, cl, vs, hsplit, rfl, hcloses, -⟩ := closer_of_distance hn
  exact ⟨rfl, cl, by rw [hsplit]; simp, hcloses⟩

/-- What is found is no qualifier, if it is of a kind that is none. -/
theorem plain_of_found {kind : TokenKind} (h : ∃ t, us[n]? = some t ∧ t.kind = kind)
    (hkind : kind.isQualifier = false) : ∃ t, us[n]? = some t ∧ t.kind.isQualifier = false := by
  obtain ⟨t, hget, rfl⟩ := h
  exact ⟨t, hget, hkind⟩

end Cursors

variable {m : Type → Type} [Monad m] [MonadStateOf Cursor m] [MonadLiftT Parser m] [Reader m]
  {α β : Type} {ts : List Token} {c : Cursor}

/-- From a cursor that is not behind a qualifier a reader leads to such a cursor, and its value has a property. -/
def Opens (ts : List Token) (c : Cursor) (p : m α) (P : α → Prop) : Prop :=
  c.Ready ts → ∀ ⦃a c'⦄, Reader.Gives p c a c' → c'.Ready ts ∧ P a

/-- A reader that leads from a cursor that is not behind a qualifier to another such cursor. -/
abbrev Settles (ts : List Token) (c : Cursor) (p : m α) : Prop := Opens ts c p fun _ => True

namespace Opens

section Rules

variable {p : m α} {f : α → m β} {P : α → Prop} {Q : β → Prop}

theorem pure {a : α} (h : P a) : Opens ts c (Pure.pure a : m α) P := by
  intro hc b c' hread
  obtain ⟨rfl, rfl⟩ := Reader.pure_inv hread
  exact ⟨hc, h⟩

theorem bind (hp : Opens ts c p P) (hf : ∀ a c₁, P a → Opens ts c₁ (f a) Q) : Opens ts c (p >>= f) Q := by
  intro hc b c' hread
  obtain ⟨a, c₁, ha, hrest⟩ := Reader.bind_inv hread
  obtain ⟨hc₁, hP⟩ := hp hc ha
  exact hf a c₁ hP hc₁ hrest

/-- What is read first does not matter. -/
theorem silent (hp : Settles ts c p) (hf : ∀ a c₁, Opens ts c₁ (f a) Q) : Opens ts c (p >>= f) Q :=
  bind hp fun a c₁ _ => hf a c₁

theorem mono {P' : α → Prop} (h : Opens ts c p P) (hP : ∀ a, P a → P' a) : Opens ts c p P' :=
  fun hc _ _ hread => (h hc hread).imp id (hP _)

theorem settles (h : Opens ts c p P) : Settles ts c p := h.mono fun _ _ => trivial

theorem lift {p : Parser α} (h : Opens ts c p P) : Opens ts c (monadLift p : m α) P :=
  fun hc _ _ hread => h hc (Reader.lift_inv hread)

/-- What only looks hands the cursor on. -/
theorem look {p : Parser α} {a : α} (hp : p c = .ok (a, c)) {f : α → Parser β} (hf : Opens ts c (f a) Q) :
    Opens ts c (p >>= f) Q :=
  fun hc _ _ hread => hf hc ((bind_of_ok hp).symm.trans hread)

theorem lookLifted {p : Parser α} {a : α} (hp : p c = .ok (a, c)) (hf : Opens ts c (f a) Q) :
    Opens ts c (monadLift p >>= f) Q := by
  intro hc b c' hread
  obtain ⟨a', c₁, ha, hrest⟩ := Reader.bind_inv hread
  obtain ⟨rfl, rfl⟩ := Prod.mk.inj (Except.ok.inj (hp.symm.trans (Reader.lift_inv ha)))
  exact hf hc hrest

theorem get {f : Cursor → m β} (hf : Opens ts c (f c) Q) : Opens ts c (MonadState.get >>= f) Q := by
  intro hc b c' hread
  obtain ⟨_, _, hget, hrest⟩ := Reader.bind_inv hread
  obtain ⟨rfl, rfl⟩ := Reader.get_inv hget
  exact hf hc hrest

theorem tagged {p : m (Site → α)} (h : Opens ts c p fun node => ∀ site, P (node site)) :
    Opens ts c (SystemVerilog.tagged p) P := by
  intro hc a c' hread
  obtain ⟨node, hnode, rfl⟩ := tagged_inv hread
  obtain ⟨hc', hP⟩ := h hc hnode
  exact ⟨hc', hP _⟩

theorem within {part : Cursor} (hpart : part.Ready ts) (h : Opens ts part p P) :
    Opens ts c (SystemVerilog.within part p) P := by
  intro hc a c' hread
  obtain ⟨⟨c₁, hinner⟩, rfl⟩ := within_inv hread
  exact ⟨hc, (h hpart hinner).2⟩

omit [Monad m] [MonadStateOf Cursor m] [MonadLiftT Parser m] [Reader m] in
/-- Both the interior of a pair of brackets and what follows the pair start behind a bracket. -/
theorem interior {opening closing : TokenKind} (ho : opening.isQualifier = false)
    (hcl : closing.isQualifier = false) : Opens ts c (Parser.interior opening closing) fun part => part.Ready ts := by
  intro hc part c' hread
  obtain ⟨d, c₁, hdistance, hspan⟩ := bind_eq_ok.1 hread
  obtain ⟨rfl, cl, hget, hcloses⟩ := closer_of_closerDistance hdistance
  obtain ⟨t, rest, hafter, hopens⟩ := opener_of_closerDistance hdistance
  obtain ⟨rfl, rfl⟩ := Prod.mk.inj (Except.ok.inj hspan)
  exact ⟨hc.sees.ready_skip hget (TokenKind.isQualifier_of_inFamily hcloses hcl),
    (hc.sees.ready_next hafter (TokenKind.isQualifier_of_inFamily hopens ho)).ahead _⟩

omit [Monad m] [MonadStateOf Cursor m] [MonadLiftT Parser m] [Reader m] in
theorem spanToCloser {opening closing : TokenKind} (hcl : closing.isQualifier = false) :
    Opens ts c (Parser.spanToCloser opening closing) fun part => part.Ready ts := by
  intro hc part c' hread
  obtain ⟨d, c₁, hdistance, hspan⟩ := bind_eq_ok.1 hread
  obtain ⟨rfl, cl, hget, hcloses⟩ := closer_of_closerDistance hdistance
  obtain ⟨rfl, rfl⟩ := Prod.mk.inj (Except.ok.inj hspan)
  exact ⟨hc.sees.ready_skip hget (TokenKind.isQualifier_of_inFamily hcloses hcl), hc.ahead _⟩

theorem enclosed {opening closing : TokenKind} (ho : opening.isQualifier = false) (hcl : closing.isQualifier = false)
    (h : ∀ c₁, Opens ts c₁ p P) : Opens ts c (SystemVerilog.enclosed opening closing p) P :=
  bind (lift (interior ho hcl)) fun _ _ hpart => within hpart (h _)

theorem untilEndUpTo (h : ∀ c₁, Opens ts c₁ p P) (n : Nat) :
    Opens ts c (SystemVerilog.untilEndUpTo p n) (Every P) := by
  induction n generalizing c with
  | zero =>
    refine lookLifted rfl ?_
    split
    · exact .pure nofun
    · exact lift fun _ _ _ hread => absurd hread bottomless_ne_ok
  | succ n ih =>
    refine lookLifted rfl ?_
    split
    · exact .pure nofun
    · exact bind (h _) fun _ _ ha => bind ih fun _ _ has => .pure (List.forall_mem_cons.2 ⟨ha, has⟩)

theorem untilEnd (h : ∀ c₁, Opens ts c₁ p P) : Opens ts c (SystemVerilog.untilEnd p) (Every P) :=
  get (untilEndUpTo h _)

end Rules

/-! ### Single tokens -/

section Tokens

variable {expected : String} {kind : TokenKind}

theorem of_error {p : Parser α} {P : α → Prop} (h : ∀ a c', p c ≠ .ok (a, c')) : Opens ts c p P :=
  fun _ a c' hread => absurd hread (h a c')

theorem fail {cause : Cause} {place : Location} {P : α → Prop} : Opens ts c (Parser.fail cause place) P :=
  of_error fun _ _ => fail_ne_ok

theorem demandWith {test : TokenKind → Bool} (h : ∀ kind, test kind = true → kind.isQualifier = false) :
    Settles ts c (Parser.demandWith test expected) := by
  intro hc t c' hread
  obtain ⟨rest, hafter, ht, rfl⟩ := demandWith_eq_ok.1 hread
  exact ⟨hc.sees.ready_next hafter (h _ ht), trivial⟩

theorem demandBy {meaning : TokenKind → Option α} (h : ∀ kind a, meaning kind = some a → kind.isQualifier = false) :
    Settles ts c (Parser.demandBy meaning expected) := by
  intro hc a c' hread
  obtain ⟨t, rest, hafter, ht, rfl⟩ := demandBy_eq_ok.1 hread
  exact ⟨hc.sees.ready_next hafter (h _ a ht), trivial⟩

theorem expectAs (h : kind.isQualifier = false) : Settles ts c (Parser.expectAs kind expected) :=
  demandWith fun _ hkind => by rwa [eq_of_beq hkind]

theorem expect (h : kind.isQualifier = false) : Settles ts c (Parser.expect kind) := expectAs h

theorem expectName : Settles ts c Parser.expectName := demandWith fun _ => TokenKind.isQualifier_of_isName

theorem name : Settles ts c Parser.name := silent expectName fun _ _ => .pure trivial

theorem comma : Settles ts c (Parser.comma expected) := silent (expectAs rfl) fun _ _ => .pure trivial

theorem tryBy {meaning : TokenKind → Option α} (h : ∀ kind a, meaning kind = some a → kind.isQualifier = false) :
    Settles ts c (Parser.tryBy meaning) := by
  intro hc o c' hread
  have hread' : Parser.tryBy meaning c = .ok (o, c') := hread
  unfold Parser.tryBy at hread'
  split at hread'
  · rename_i a ha
    obtain ⟨t, rest, hafter, ht⟩ := Cursor.after_of_currentKind? ha
    obtain ⟨-, rfl⟩ := Prod.mk.inj (Except.ok.inj hread')
    exact ⟨hc.sees.ready_next hafter (h _ a ht), trivial⟩
  · obtain ⟨-, rfl⟩ := Prod.mk.inj (Except.ok.inj hread')
    exact ⟨hc, trivial⟩

theorem eat? (h : kind.isQualifier = false) : Settles ts c (Parser.eat? kind) := by
  intro hc o c' hread
  have hread' : Parser.eat? kind c = .ok (o, c') := hread
  unfold Parser.eat? at hread'
  split at hread'
  · rename_i hcheck
    obtain ⟨t, rest, hafter, rfl⟩ := Cursor.after_of_check hcheck
    obtain ⟨-, rfl⟩ := Prod.mk.inj (Except.ok.inj hread')
    exact ⟨hc.sees.ready_next hafter h, trivial⟩
  · obtain ⟨-, rfl⟩ := Prod.mk.inj (Except.ok.inj hread')
    exact ⟨hc, trivial⟩

theorem eat (h : kind.isQualifier = false) : Settles ts c (Parser.eat kind) :=
  silent (eat? h) fun _ _ => .pure trivial

/-- The next token, which was looked at before, is no qualifier. -/
theorem consume (h : ∀ t rest, c.after = t :: rest → t.kind.isQualifier = false) : Settles ts c Parser.consume := by
  intro hc t c' hread
  obtain ⟨rest, hafter, -, rfl⟩ := demandWith_eq_ok.1 hread
  exact ⟨hc.sees.ready_next hafter (h t rest hafter), trivial⟩

theorem advance? {t : Token} {rest : List Token} (hafter : c.after = t :: rest) (ht : t.kind.isQualifier = false) :
    Settles ts c Parser.advance? := by
  intro hc o c' hread
  obtain ⟨-, rfl⟩ := Prod.mk.inj (Except.ok.inj hread)
  exact ⟨hc.sees.ready_next hafter ht, trivial⟩

theorem expectEnd : Settles ts c (Parser.expectEnd expected) := by
  intro hc u c' hread
  obtain ⟨-, rfl⟩ := expectEnd_eq_ok.1 hread
  exact ⟨hc, trivial⟩

end Tokens

/-! ### Parsers -/

section Parsers

variable {p : Parser α} {P : α → Prop} {find : List Token → Option Nat} {expected : String}

theorem filling (h : Opens ts c p P) : Opens ts c (Parser.filling expected p) P :=
  fun hc _ _ hread => h hc (filling_eq_ok.1 hread).1

/-- The tokens before one that is found, which is no qualifier. -/
theorem spanBefore (h : ∀ us n, find us = some n → ∃ t, us[n]? = some t ∧ t.kind.isQualifier = false) :
    Opens ts c (Parser.spanBefore find expected) fun part => part.Ready ts := by
  intro hc part c' hread
  obtain ⟨n, hn, rfl, rfl⟩ := spanBefore_inv hread
  obtain ⟨t, hget, ht⟩ := h _ n hn
  exact ⟨hc.sees.ready_skip hget ht, hc.ahead n⟩

theorem spanBefore? (h : ∀ us n, find us = some n → ∃ t, us[n]? = some t ∧ t.kind.isQualifier = false) :
    Opens ts c (Parser.spanBefore? find) fun found => ∀ part ∈ found, part.Ready ts := by
  intro hc found c' hread
  have hread' : Parser.spanBefore? find c = .ok (found, c') := hread
  unfold Parser.spanBefore? at hread'
  split at hread'
  · rename_i n hn
    obtain ⟨rfl, rfl⟩ := Prod.mk.inj (Except.ok.inj hread')
    obtain ⟨t, hget, ht⟩ := h _ n hn
    exact ⟨hc.sees.ready_skip hget ht, fun part hpart => Option.some.inj hpart ▸ hc.ahead n⟩
  · obtain ⟨rfl, rfl⟩ := Prod.mk.inj (Except.ok.inj hread')
    exact ⟨hc, nofun⟩

theorem beforeSemicolon (h : ∀ n, Opens ts (c.ahead n) p P) : Opens ts c (Parser.beforeSemicolon p) P := by
  intro hc a c' hread
  obtain ⟨part, c₁, hpart, hwithin⟩ := bind_eq_ok.1 hread
  obtain ⟨n, hn, rfl, rfl⟩ := spanBefore_inv hpart
  obtain ⟨⟨c₂, hp⟩, rfl⟩ := within_eq_ok.1 hwithin
  obtain ⟨hlt, hkind, -⟩ := List.findIdx?_eq_some_iff_getElem.1 hn
  refine ⟨hc.sees.ready_skip (List.getElem?_eq_getElem hlt) ?_, (h n (hc.ahead n) hp).2⟩
  rw [eq_of_beq hkind]
  rfl

theorem followersUpTo {separator : Parser Unit} (hs : ∀ c₁, Settles ts c₁ separator) (h : ∀ c₁, Opens ts c₁ p P)
    (n : Nat) : Opens ts c (Parser.followersUpTo separator p n) (Every P) := by
  induction n generalizing c with
  | zero =>
    refine look rfl ?_
    split
    · exact .pure nofun
    · exact of_error fun _ _ => bottomless_ne_ok
  | succ n ih =>
    refine look rfl ?_
    split
    · exact .pure nofun
    · exact silent (hs c) fun _ _ => bind (h _) fun _ _ ha => bind ih fun _ _ has =>
        .pure (List.forall_mem_cons.2 ⟨ha, has⟩)

theorem listBy {separator : Parser Unit} (hs : ∀ c₁, Settles ts c₁ separator) (h : ∀ c₁, Opens ts c₁ p P) :
    Opens ts c (Parser.listBy separator p) (Every P) :=
  bind (h c) fun _ _ ha => bind (followersUpTo hs h _) fun _ _ has => .pure (List.forall_mem_cons.2 ⟨ha, has⟩)

theorem entriesUpTo (h : ∀ c₁, Opens ts c₁ p P) (n : Nat) :
    Opens ts c (Parser.entriesUpTo expected p n) (Every P) := by
  induction n generalizing c with
  | zero =>
    refine look rfl ?_
    split
    · exact .pure nofun
    · exact of_error fun _ _ => bottomless_ne_ok
  | succ n ih =>
    refine look rfl ?_
    split
    · exact .pure nofun
    · refine bind (h c) fun a c₁ ha => look rfl ?_
      split
      · exact .pure (List.forall_mem_singleton.2 ha)
      · exact silent comma fun _ _ => bind ih fun _ _ has => .pure (List.forall_mem_cons.2 ⟨ha, has⟩)

theorem entries (h : ∀ c₁, Opens ts c₁ p P) : Opens ts c (Parser.entries expected p) (Every P) :=
  entriesUpTo h c.after.length

theorem bracketedUpTo (h : ∀ c₁, Opens ts c₁ p P) (n : Nat) : Opens ts c (Parser.bracketedUpTo p n) (Every P) := by
  induction n generalizing c with
  | zero =>
    refine look rfl ?_
    split
    · exact of_error fun _ _ => bottomless_ne_ok
    · exact .pure nofun
  | succ n ih =>
    refine look rfl ?_
    split
    · exact bind (h c) fun _ _ ha => bind ih fun _ _ has => .pure (List.forall_mem_cons.2 ⟨ha, has⟩)
    · exact .pure nofun

theorem bracketed (h : ∀ c₁, Opens ts c₁ p P) : Opens ts c (Parser.bracketed p) (Every P) :=
  bracketedUpTo h c.after.length

end Parsers

end Opens

end SystemVerilog
