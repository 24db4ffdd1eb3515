import SystemVerilog.Proofs.Correspondence.Basic
import SystemVerilog.Proofs.Reading.Brackets

/-!
# The combinators keep correspondence

`k.Agrees p q Q`: from corresponding tokens either `p` and `q` both read, with values in the relation `Q` and
corresponding cursors behind them, or both fail, for the same cause and at corresponding places. The rules
follow the combinators. Trees correspond if they are the same up to the sites, which `Same` compares by the
maps of the correspondence.
-/

namespace SystemVerilog

open SystemVerilog.Parser

namespace Correspondence

variable {τ : Type} {k : Correspondence τ} {c d c' : Cursor}

/-! ### Judgements -/

/-- Faults for the same cause at corresponding places. -/
structure SameFault (k : Correspondence τ) (fault fault' : Fault) : Prop where
  cause : fault.cause = fault'.cause
  place : k.place fault.location fault'.location

theorem SameFault.unexpected {expected : String} {t u : Token} (h : k.token t u) :
    k.SameFault ⟨.unexpectedToken expected t.toLexeme, t.location⟩ ⟨.unexpectedToken expected u.toLexeme, u.location⟩ :=
  ⟨by rw [k.lexeme h], k.location h⟩

section Judgements

variable {m : Type → Type} [Monad m] [MonadStateOf Cursor m] [MonadLiftT Parser m] [Reader m]
  {α β α' β' : Type}

/-- Two readers either both read from two cursors on, or both fail there. -/
inductive Agree (k : Correspondence τ) (c d : Cursor) (p : m α) (q : m β) (Q : α → β → Prop) : Prop
  | read {a : α} {b : β} {c' d' : Cursor} (hp : Reader.Yields p c a c') (hq : Reader.Yields q d b d')
    (value : Q a b) (onward : k.Onward c d c' d') : k.Agree c d p q Q
  | stop {fault fault' : Fault} (hp : Reader.Stops p c fault) (hq : Reader.Stops q d fault')
    (same : k.SameFault fault fault') : k.Agree c d p q Q

/-- Two readers agree wherever the tokens correspond. -/
def Agrees (k : Correspondence τ) (p : m α) (q : m β) (Q : α → β → Prop) : Prop :=
  ∀ ⦃c d⦄, k.Alike c d → k.Agree c d p q Q

/-- Trees that are the same up to corresponding sites; `f` changes the tags of a tree. -/
def Same {γ : Type} (k : Correspondence τ) (f : (Site → τ) → α → γ) (a b : α) : Prop :=
  f k.left a = f k.right b

theorem Same.eq {γ : Type} {f : (Site → τ) → α → γ} {a b : α} (h : k.Same f a b) : f k.left a = f k.right b := h

/-- What makes the same of corresponding sites. -/
def Makes (k : Correspondence τ) (Q : α → β → Prop) (f : Site → α) (g : Site → β) : Prop :=
  ∀ s s', k.left s = k.right s' → Q (f s) (g s')

/-- What one of two readers that agree reads, the other one reads, too. -/
theorem Agree.gives {p : m α} {q : m β} {Q : α → β → Prop} {a : α} (h : k.Agree c d p q Q)
    (hread : Reader.Gives p c a c') : ∃ b d', Reader.Yields q d b d' ∧ Q a b ∧ k.Onward c d c' d' := by
  cases h with
  | read hp hq value onward =>
    obtain ⟨rfl, rfl⟩ := Reader.gives_unique hp hread
    exact ⟨_, _, hq, value, onward⟩
  | stop hp => exact absurd hread (Reader.not_gives hp)

/-- One reader behind another one. -/
theorem Agree.bind {p : m α} {q : m β} {f : α → m α'} {g : β → m β'} {R : α → β → Prop} {Q : α' → β' → Prop}
    (h : k.Agree c d p q R)
    (hf : ∀ a b c₁ d₁, R a b → k.Onward c d c₁ d₁ → k.Agree c₁ d₁ (f a) (g b) Q) :
    k.Agree c d (p >>= f) (q >>= g) Q := by
  cases h with
  | read hp hq value onward =>
    cases hf _ _ _ _ value onward with
    | read hp' hq' value' onward' =>
      exact .read (Reader.bind hp hp') (Reader.bind hq hq') value' (onward.trans onward')
    | stop hp' hq' same => exact .stop (Reader.stops_then hp hp') (Reader.stops_then hq hq') same
  | stop hp hq same => exact .stop (Reader.stops_first hp) (Reader.stops_first hq) same

end Judgements

theorem map_eq {α γ : Type} {f : (Site → τ) → α → γ} {as bs : List α}
    (h : List.Forall₂ (k.Same f) as bs) : as.map (f k.left) = bs.map (f k.right) := by
  induction h with
  | nil => rfl
  | cons hab _ ih => rw [List.map_cons, List.map_cons, ih, hab]

theorem option_map_eq {α γ : Type} {f : (Site → τ) → α → γ} {a b : Option α}
    (h : Option.Rel (k.Same f) a b) : a.map (f k.left) = b.map (f k.right) := by
  cases h with
  | none => rfl
  | some hab => rw [Option.map_some, Option.map_some, hab]

/-! ### Rules for any reader -/

namespace Agrees

section Generic

variable {m : Type → Type} [Monad m] [MonadStateOf Cursor m] [MonadLiftT Parser m] [Reader m]
  {α β α' β' : Type} {p : m α} {q : m β} {f : α → m α'} {g : β → m β'} {Q R : α → β → Prop}
  {Q' : α' → β' → Prop}

theorem pure {a : α} {b : β} (h : Q a b) : k.Agrees (Pure.pure a : m α) (Pure.pure b : m β) Q :=
  fun c d hcd => .read (Reader.pure a c) (Reader.pure b d) h (.refl hcd)

theorem bind (hp : k.Agrees p q R) (hf : ∀ a b, R a b → k.Agrees (f a) (g b) Q') :
    k.Agrees (p >>= f) (q >>= g) Q' :=
  fun _ _ hcd => (hp hcd).bind fun a b _ _ hab honward => hf a b hab honward.toAlike

/-- What comes first reads the same value from both. -/
theorem step {q : m α} {g : α → m β'} (hp : k.Agrees p q Eq) (hf : ∀ a, k.Agrees (f a) (g a) Q') :
    k.Agrees (p >>= f) (q >>= g) Q' :=
  bind hp fun a _ hab => hab ▸ hf a

theorem lift {p : Parser α} {q : Parser β} (h : k.Agrees p q Q) :
    k.Agrees (monadLift p : m α) (monadLift q : m β) Q := by
  intro c d hcd
  cases h hcd with
  | read hp hq value onward => exact .read (Reader.lift hp) (Reader.lift hq) value onward
  | stop hp hq same => exact .stop (Reader.stops_lift hp) (Reader.stops_lift hq) same

theorem get : k.Agrees (MonadState.get : m Cursor) (MonadState.get : m Cursor) k.Alike :=
  fun c d hcd => .read (Reader.get c) (Reader.get d) hcd (.refl hcd)

theorem within {part part' : Cursor} (hpart : k.Alike part part') (h : k.Agrees p q Q) :
    k.Agrees (SystemVerilog.within part p) (SystemVerilog.within part' q) Q := by
  intro c d hcd
  cases h hpart with
  | read hp hq value _ => exact .read (yields_within hp) (yields_within hq) value (.refl hcd)
  | stop hp hq same => exact .stop (stops_within hp) (stops_within hq) same

/-- Nodes that are made of corresponding tokens have corresponding sites. -/
theorem tagged {p : m (Site → α)} {q : m (Site → β)} (h : k.Agrees p q (k.Makes Q)) :
    k.Agrees (SystemVerilog.tagged p) (SystemVerilog.tagged q) Q := by
  intro c d hcd
  cases h hcd with
  | read hp hq value onward =>
    have hsite := k.site hcd.location hcd.index onward.index
    exact .read (yields_tagged hp rfl) (yields_tagged hq rfl) (value _ _ hsite) onward
  | stop hp hq same => exact .stop (stops_tagged hp) (stops_tagged hq) same

end Generic

/-! ### Primitives -/

section Primitives

variable {α β : Type} {p : Parser α} {q : Parser β} {Q : α → β → Prop}

/-- Readers that only look. -/
theorem of_look {f : Cursor → α} {g : Cursor → β} (h : ∀ c d, k.Alike c d → Q (f c) (g d)) :
    Agrees (m := Parser) k (fun c => .ok (f c, c)) (fun d => .ok (g d, d)) Q :=
  fun c d hcd => .read rfl rfl (h c d hcd) (.refl hcd)

/-- Readers that take a number of steps that the tokens left give. -/
theorem of_length {p : Nat → Parser α} {q : Nat → Parser β} (h : ∀ n, k.Agrees (p n) (q n) Q) :
    Agrees (m := Parser) k (fun c => p c.after.length c) (fun d => q d.after.length d) Q := by
  intro c d hcd
  have hsame : q d.after.length = q c.after.length := by rw [hcd.length_eq]
  cases h c.after.length hcd with
  | read hp hq value onward => exact .read hp ((congrFun hsame d).trans hq) value onward
  | stop hp hq same => exact .stop hp ((congrFun hsame d).trans hq) same

theorem atEnd : k.Agrees Parser.atEnd Parser.atEnd Eq := of_look fun _ _ hcd => hcd.atEnd_eq

theorem current? : k.Agrees Parser.current? Parser.current? (Option.Rel k.token) :=
  of_look fun _ _ hcd => Abreast.current? hcd.toAbreast

theorem currentKind? : k.Agrees Parser.currentKind? Parser.currentKind? Eq :=
  of_look fun _ _ hcd => hcd.currentKind?_eq

theorem peekKind? (n : Nat) : k.Agrees (Parser.peekKind? n) (Parser.peekKind? n) Eq :=
  of_look fun _ _ hcd => hcd.peekKind?_eq n

theorem check (kind : TokenKind) : k.Agrees (Parser.check kind) (Parser.check kind) Eq :=
  of_look fun _ _ hcd => hcd.check_eq kind

theorem location : k.Agrees Parser.location Parser.location k.place := of_look fun _ _ hcd => hcd.location

theorem since {s s' : Site} (h : k.left s = k.right s') :
    k.Agrees (Parser.since s) (Parser.since s') fun t t' => k.left t = k.right t' :=
  of_look fun _ _ hcd => k.since h hcd.index

theorem advance? : k.Agrees Parser.advance? Parser.advance? (Option.Rel k.token) :=
  fun _ _ hcd => .read rfl rfl (Abreast.current? hcd.toAbreast) (hcd.skip 1)

/-! ### Failing -/

theorem fail {cause : Cause} {here here' : Location} (h : k.place here here') :
    k.Agrees (Parser.fail cause here : Parser α) (Parser.fail cause here' : Parser β) Q :=
  fun _ _ _ => .stop rfl rfl ⟨rfl, h⟩

theorem unexpected {expected : String} {t u : Token} (h : k.token t u) :
    k.Agrees (Parser.unexpected expected t : Parser α) (Parser.unexpected expected u : Parser β) Q :=
  fun _ _ _ => .stop rfl rfl (.unexpected h)

theorem unexpectedEnd {expected : String} :
    k.Agrees (Parser.unexpectedEnd expected : Parser α) (Parser.unexpectedEnd expected : Parser β) Q :=
  fun _ _ hcd => .stop rfl rfl ⟨rfl, hcd.endLocation⟩

theorem bottomless : k.Agrees (Parser.bottomless : Parser α) (Parser.bottomless : Parser β) Q :=
  fun _ _ hcd => .stop rfl rfl ⟨rfl, hcd.location⟩

/-! ### Reading one token -/

theorem demandWith (test : TokenKind → Bool) (expected : String) :
    k.Agrees (Parser.demandWith test expected) (Parser.demandWith test expected) k.token := by
  intro c d hcd
  rcases hcd.cases with ⟨hc, hd⟩ | ⟨t, ts, u, us, hc, hd, htoken⟩
  · have hstop {c : Cursor} (hc : c.after = []) :
        Parser.demandWith test expected c = .error ⟨.unexpectedEnd expected, c.endLocation⟩ := by
      rw [Parser.demandWith, hc]
      rfl
    exact .stop (hstop hc) (hstop hd) ⟨rfl, hcd.endLocation⟩
  · by_cases ht : test t.kind = true
    · have hu : test u.kind = true := kind_eq htoken ▸ ht
      exact .read (demandWith_eq_ok.2 ⟨ts, hc, ht, rfl⟩) (demandWith_eq_ok.2 ⟨us, hd, hu, rfl⟩) htoken (hcd.skip 1)
    · have hu : ¬test u.kind = true := kind_eq htoken ▸ ht
      have hstop {c : Cursor} {t : Token} {ts : List Token} (hc : c.after = t :: ts) (ht : ¬test t.kind = true) :
          Parser.demandWith test expected c = .error ⟨.unexpectedToken expected t.toLexeme, t.location⟩ := by
        rw [Parser.demandWith, hc]
        exact if_neg ht
      exact .stop (hstop hc ht) (hstop hd hu) (.unexpected htoken)

theorem consume : k.Agrees Parser.consume Parser.consume k.token := demandWith _ _

theorem expectAs (kind : TokenKind) (expected : String) :
    k.Agrees (Parser.expectAs kind expected) (Parser.expectAs kind expected) k.token := demandWith _ _

theorem expect (kind : TokenKind) : k.Agrees (Parser.expect kind) (Parser.expect kind) k.token :=
  expectAs _ _

theorem expectName : k.Agrees Parser.expectName Parser.expectName k.token := demandWith _ _

theorem name : k.Agrees Parser.name Parser.name Eq :=
  bind expectName fun _ _ htoken => pure (text_eq htoken)

theorem demandBy (meaning : TokenKind → Option α) (expected : String) :
    k.Agrees (Parser.demandBy meaning expected) (Parser.demandBy meaning expected) Eq := by
  intro c d hcd
  rcases hcd.cases with ⟨hc, hd⟩ | ⟨t, ts, u, us, hc, hd, htoken⟩
  · have hstop {c : Cursor} (hc : c.after = []) :
        Parser.demandBy meaning expected c = .error ⟨.unexpectedEnd expected, c.endLocation⟩ := by
      rw [Parser.demandBy, hc]
      rfl
    exact .stop (hstop hc) (hstop hd) ⟨rfl, hcd.endLocation⟩
  · cases ht : meaning t.kind with
    | some a =>
      have hu : meaning u.kind = some a := kind_eq htoken ▸ ht
      exact .read (demandBy_eq_ok.2 ⟨t, ts, hc, ht, rfl⟩) (demandBy_eq_ok.2 ⟨u, us, hd, hu, rfl⟩) rfl (hcd.skip 1)
    | none =>
      have hu : meaning u.kind = none := kind_eq htoken ▸ ht
      have hstop {c : Cursor} {t : Token} {ts : List Token} (hc : c.after = t :: ts) (ht : meaning t.kind = none) :
          Parser.demandBy meaning expected c = .error ⟨.unexpectedToken expected t.toLexeme, t.location⟩ := by
        rw [Parser.demandBy, hc]
        simp only [ht]
        rfl
      exact .stop (hstop hc ht) (hstop hd hu) (.unexpected htoken)

theorem tryBy (meaning : TokenKind → Option α) :
    k.Agrees (Parser.tryBy meaning) (Parser.tryBy meaning) Eq := by
  intro c d hcd
  cases hmeaning : c.currentKind?.bind meaning with
  | none =>
    have hnone {c : Cursor} (h : c.currentKind?.bind meaning = none) : Parser.tryBy meaning c = .ok (none, c) := by
      rw [Parser.tryBy, h]
    exact .read (hnone hmeaning) (hnone (hcd.currentKind?_eq ▸ hmeaning)) rfl (.refl hcd)
  | some a =>
    have hsome {c : Cursor} (h : c.currentKind?.bind meaning = some a) :
        Parser.tryBy meaning c = .ok (some a, c.skip 1) := by
      rw [Parser.tryBy, h]
    exact .read (hsome hmeaning) (hsome (hcd.currentKind?_eq ▸ hmeaning)) rfl (hcd.skip 1)

theorem eat? (kind : TokenKind) :
    k.Agrees (Parser.eat? kind) (Parser.eat? kind) (Option.Rel k.token) := by
  intro c d hcd
  by_cases hc : c.check kind = true
  · have heat {c : Cursor} (h : c.check kind = true) : Parser.eat? kind c = .ok (c.current?, c.skip 1) := by
      rw [Parser.eat?, if_pos h]
    exact .read (heat hc) (heat (hcd.check_eq kind ▸ hc)) (Abreast.current? hcd.toAbreast) (hcd.skip 1)
  · have hc : c.check kind = false := by simpa using hc
    exact .read (eat?_of_check hc) (eat?_of_check (hcd.check_eq kind ▸ hc)) .none (.refl hcd)

theorem eat (kind : TokenKind) : k.Agrees (Parser.eat kind) (Parser.eat kind) Eq :=
  bind (eat? kind) fun _ _ hrel => pure (by cases hrel <;> rfl)

theorem expectEnd (expected : String) :
    k.Agrees (Parser.expectEnd expected) (Parser.expectEnd expected) Eq := by
  intro c d hcd
  rcases hcd.cases with ⟨hc, hd⟩ | ⟨t, ts, u, us, hc, hd, htoken⟩
  · exact .read (a := ()) (b := ()) (expectEnd_eq_ok.2 ⟨hc, rfl⟩) (expectEnd_eq_ok.2 ⟨hd, rfl⟩) rfl (.refl hcd)
  · have hstop {c : Cursor} {t : Token} {ts : List Token} (hc : c.after = t :: ts) :
        Parser.expectEnd expected c = .error ⟨.unexpectedToken expected t.toLexeme, t.location⟩ := by
      rw [Parser.expectEnd, hc]
      rfl
    exact .stop (hstop hc) (hstop hd) (.unexpected htoken)

/-- Behind a token that is expected both cursors have read it last. -/
theorem bind_expect {f : Token → Parser α} {g : Token → Parser β} (kind : TokenKind)
    (hf : ∀ t u c d, k.Alike c d → Option.Rel k.token c.last? d.last? → k.Agree c d (f t) (g u) Q) :
    k.Agrees (Parser.expect kind >>= f) (Parser.expect kind >>= g) Q := by
  intro c d hcd
  cases expect kind hcd with
  | @read t u c₁ d₁ hp hq value onward =>
    have hlast : Option.Rel k.token c₁.last? d₁.last? := by
      refine onward.last.resolve_left ?_
      obtain ⟨ts, hc, -, rfl⟩ := expect_eq_ok.1 hp
      rintro ⟨hstill, -⟩
      have hlength := congrArg (fun c => c.after.length) hstill
      simp [hc] at hlength
    cases hf t u c₁ d₁ onward.toAlike hlast with
    | read hp' hq' value' onward' =>
      exact .read (Reader.bind hp hp') (Reader.bind hq hq') value' (onward.trans onward')
    | stop hp' hq' same => exact .stop (Reader.stops_then hp hp') (Reader.stops_then hq hq') same
  | stop hp hq same => exact .stop (Reader.stops_first hp) (Reader.stops_first hq) same

theorem filling (expected : String) (h : k.Agrees p q Q) :
    k.Agrees (Parser.filling expected p) (Parser.filling expected q) Q :=
  bind h fun _ _ hab => step (expectEnd _) fun _ => pure hab

end Primitives

end Agrees

/-! ### Finding tokens ahead -/

/-- A search that goes by the kinds and texts of tokens. -/
def Lexemewise (find : List Token → Option Nat) : Prop :=
  ∀ ts us : List Token, ts.map Token.toLexeme = us.map Token.toLexeme → find ts = find us

theorem lexemes_cons {t : Token} {ts us : List Token}
    (h : (t :: ts).map Token.toLexeme = us.map Token.toLexeme) :
    ∃ u us', us = u :: us' ∧ t.toLexeme = u.toLexeme ∧ ts.map Token.toLexeme = us'.map Token.toLexeme := by
  cases us with
  | nil => cases h
  | cons u us =>
    obtain ⟨hhead, htail⟩ := List.cons.inj h
    exact ⟨u, us, rfl, hhead, htail⟩

theorem lexemes_nil {us : List Token} (h : [].map Token.toLexeme = us.map Token.toLexeme) : us = [] :=
  List.map_eq_nil_iff.1 h.symm

theorem lexemewise_distanceTo? (kind : TokenKind) : Lexemewise (distanceTo? kind) := by
  intro ts us h
  have hmap (vs : List Token) : distanceTo? kind vs =
      (vs.map Token.toLexeme).findIdx? fun l => l.kind == kind := by
    rw [distanceTo?, List.findIdx?_map]
    rfl
  rw [hmap, hmap, h]

theorem lexemewise_distanceToCloser? (opening closing : TokenKind) (depth : Nat) :
    Lexemewise (distanceToCloser? opening closing depth) := by
  intro ts us h
  induction ts generalizing depth us with
  | nil => rw [lexemes_nil h]
  | cons t ts ih =>
    obtain ⟨u, us, rfl, hlexeme, hrest⟩ := lexemes_cons h
    have hkind : t.kind = u.kind := congrArg Lexeme.kind hlexeme
    have hmore (depth : Nat) := ih depth us hrest
    simp only [distanceToCloser?, hkind, hmore]

theorem lexemewise_distanceAtDepth? (opening closing kind : TokenKind) (depth level : Nat) :
    Lexemewise (distanceAtDepth? opening closing kind depth level) := by
  intro ts us h
  induction ts generalizing level us with
  | nil => rw [lexemes_nil h]
  | cons t ts ih =>
    obtain ⟨u, us, rfl, hlexeme, hrest⟩ := lexemes_cons h
    have hkind : t.kind = u.kind := congrArg Lexeme.kind hlexeme
    have hmore (level : Nat) := ih level us hrest
    simp only [distanceAtDepth?, hkind, hmore]

theorem lexemewise_distanceAtTop? (kind : TokenKind) (level questions : Nat) :
    Lexemewise (distanceAtTop? kind level questions) := by
  intro ts us h
  induction ts generalizing level questions us with
  | nil => rw [lexemes_nil h]
  | cons t ts ih =>
    obtain ⟨u, us, rfl, hlexeme, hrest⟩ := lexemes_cons h
    have hkind : t.kind = u.kind := congrArg Lexeme.kind hlexeme
    have hmore (level questions : Nat) := ih level questions us hrest
    cases level with
    | zero => simp only [distanceAtTop?, hkind, hmore]
    | succ level => simp only [distanceAtTop?, hkind, hmore]

theorem Lexemewise.find_eq {find : List Token → Option Nat} (h : Lexemewise find) (hcd : k.Abreast c d) :
    find c.after = find d.after := h _ _ (lexemes_eq hcd.after)

/-- Corresponding cursors over tokens that stand ahead. -/
structure Ahead (k : Correspondence τ) (part part' : Cursor) : Prop extends Alike k part part' where
  unread : part.before = [] ∧ part'.before = []

theorem Alike.toAhead (h : k.Alike c d) (n : Nat) : k.Ahead (c.ahead n) (d.ahead n) :=
  ⟨h.ahead n, rfl, rfl⟩

namespace Agrees

section Spans

variable {find : List Token → Option Nat} {expected : String}

theorem spanBefore? (hfind : Lexemewise find) :
    k.Agrees (Parser.spanBefore? find) (Parser.spanBefore? find) (Option.Rel k.Ahead) := by
  intro c d hcd
  have hagain := hfind.find_eq hcd.toAbreast
  cases hn : find c.after with
  | none =>
    have hnone {c : Cursor} (h : find c.after = none) : Parser.spanBefore? find c = .ok (none, c) := by
      rw [Parser.spanBefore?, h]
    exact .read (hnone hn) (hnone (hagain ▸ hn)) .none (.refl hcd)
  | some n =>
    have hsome {c : Cursor} (h : find c.after = some n) :
        Parser.spanBefore? find c = .ok (some (c.ahead n), c.skip (n + 1)) := by
      rw [Parser.spanBefore?, h]
    exact .read (hsome hn) (hsome (hagain ▸ hn)) (.some (hcd.toAhead n)) (hcd.skip (n + 1))

theorem spanBefore (hfind : Lexemewise find) :
    k.Agrees (Parser.spanBefore find expected) (Parser.spanBefore find expected) k.Alike := by
  intro c d hcd
  have hagain := hfind.find_eq hcd.toAbreast
  cases hn : find c.after with
  | none =>
    have hnone {c : Cursor} (h : find c.after = none) :
        Parser.spanBefore find expected c = .error ⟨.unexpectedEnd expected, c.endLocation⟩ := by
      rw [Parser.spanBefore, h]
      rfl
    exact .stop (hnone hn) (hnone (hagain ▸ hn)) ⟨rfl, hcd.endLocation⟩
  | some n =>
    have hsome {c : Cursor} (h : find c.after = some n) :
        Parser.spanBefore find expected c = .ok (c.ahead n, c.skip (n + 1)) := by
      rw [Parser.spanBefore, h]
    exact .read (hsome hn) (hsome (hagain ▸ hn)) (hcd.ahead n) (hcd.skip (n + 1))

end Spans

end Agrees

/-- The pair that the next token opens is found at the same distance. -/
theorem Agrees.closerDistance (opening closing : TokenKind) :
    k.Agrees (Parser.closerDistance opening closing) (Parser.closerDistance opening closing) Eq := by
  intro c d hcd
  have hagain := (lexemewise_distanceToCloser? opening closing 0).find_eq hcd.toAbreast
  rcases hcd.cases with ⟨hc, hd⟩ | ⟨t, ts, u, us, hc, hd, htoken⟩
  · have hstop {c : Cursor} (hc : c.after = []) :
        Parser.closerDistance opening closing c = .error ⟨.unexpectedEnd opening.describe, c.endLocation⟩ := by
      rw [Parser.closerDistance, hc]
      rfl
    exact .stop (hstop hc) (hstop hd) ⟨rfl, hcd.endLocation⟩
  · by_cases ho : t.kind.inFamily opening = true
    · have ho' : u.kind.inFamily opening = true := kind_eq htoken ▸ ho
      cases hn : distanceToCloser? opening closing 0 c.after with
      | some n =>
        have hn' : distanceToCloser? opening closing 0 d.after = some n := hagain.symm.trans hn
        exact .read (closerDistance_of_found hc ho hn) (closerDistance_of_found hd ho' hn') rfl (.refl hcd)
      | none =>
        have hstop {c : Cursor} {t : Token} {ts : List Token} (hc : c.after = t :: ts)
            (ho : t.kind.inFamily opening = true) (hn : distanceToCloser? opening closing 0 c.after = none) :
            Parser.closerDistance opening closing c = .error ⟨.unmatchedPair opening closing, t.location⟩ := by
          rw [hc] at hn
          simp [Parser.closerDistance, hc, ho, hn]
        have hn' : distanceToCloser? opening closing 0 d.after = none := hagain.symm.trans hn
        have hstop' := hstop hd ho' hn'
        exact .stop (hstop hc ho hn) hstop' ⟨rfl, k.location htoken⟩
    · have ho' : ¬u.kind.inFamily opening = true := kind_eq htoken ▸ ho
      have hstop {c : Cursor} {t : Token} {ts : List Token} (hc : c.after = t :: ts)
          (ho : ¬t.kind.inFamily opening = true) : Parser.closerDistance opening closing c =
            .error ⟨.unexpectedToken opening.describe t.toLexeme, t.location⟩ := by
        rw [Parser.closerDistance, hc]
        exact if_neg ho
      exact .stop (hstop hc ho) (hstop hd ho') (.unexpected htoken)

/-- For cursors that are only abreast this holds of what is found. -/
theorem Abreast.closerDistance (h : k.Abreast c d) {opening closing : TokenKind} {n : Nat}
    (hread : Parser.closerDistance opening closing c = .ok (n, c')) :
    Parser.closerDistance opening closing d = .ok (n, d) := by
  obtain ⟨rfl, hne, hn⟩ := closerDistance_inv hread
  rcases h.cases with ⟨hc, -⟩ | ⟨t, ts, u, us, hc, hd, htoken⟩
  · exact absurd hc hne
  · obtain ⟨t', ts', hc', hopener⟩ := opener_of_closerDistance hread
    obtain ⟨rfl, rfl⟩ := List.cons.inj (hc.symm.trans hc')
    rw [kind_eq htoken] at hopener
    rw [(lexemewise_distanceToCloser? opening closing 0).find_eq h] at hn
    exact closerDistance_of_found hd hopener hn

namespace Agrees

variable {opening closing : TokenKind}

theorem interior : k.Agrees (Parser.interior opening closing) (Parser.interior opening closing) k.Alike :=
  step (closerDistance opening closing) fun n _ _ hcd =>
    .read rfl rfl ((hcd.skip 1).ahead (n - 1)) (hcd.skip (n + 1))

theorem spanToCloser : k.Agrees (Parser.spanToCloser opening closing) (Parser.spanToCloser opening closing) k.Alike :=
  step (closerDistance opening closing) fun n _ _ hcd =>
    .read rfl rfl (hcd.ahead n) (hcd.skip (n + 1))

theorem enclosed {m : Type → Type} [Monad m] [MonadStateOf Cursor m] [MonadLiftT Parser m] [Reader m]
    {α β : Type} {p : m α} {q : m β} {Q : α → β → Prop} (h : k.Agrees p q Q) :
    k.Agrees (SystemVerilog.enclosed opening closing p) (SystemVerilog.enclosed opening closing q) Q :=
  bind (lift interior) fun _ _ hpart => within hpart h

theorem beforeSemicolon {α β : Type} {p : Parser α} {q : Parser β} {Q : α → β → Prop} (h : k.Agrees p q Q) :
    k.Agrees (Parser.beforeSemicolon p) (Parser.beforeSemicolon q) Q :=
  bind (spanBefore (lexemewise_distanceTo? _)) fun _ _ hpart => within hpart h

/-! ### Lists -/

section Lists

variable {α β : Type} {p : Parser α} {q : Parser β} {separator : Parser Unit} {expected : String}
  {Q : α → β → Prop}

theorem comma : k.Agrees (Parser.comma expected) (Parser.comma expected) Eq :=
  bind (expectAs _ _) fun _ _ _ => pure rfl

theorem followersUpTo (hs : k.Agrees separator separator Eq) (h : k.Agrees p q Q) (n : Nat) :
    k.Agrees (Parser.followersUpTo separator p n) (Parser.followersUpTo separator q n)
      (List.Forall₂ Q) := by
  induction n with
  | zero =>
    refine step atEnd fun ended => ?_
    cases ended with
    | true => exact pure .nil
    | false => exact bottomless
  | succ n ih =>
    refine step atEnd fun ended => ?_
    cases ended with
    | true => exact pure .nil
    | false =>
      exact step hs fun _ => bind h fun a b hab => bind ih fun as bs habs => pure (.cons hab habs)

theorem followers (hs : k.Agrees separator separator Eq) (h : k.Agrees p q Q) :
    k.Agrees (Parser.followers separator p) (Parser.followers separator q) (List.Forall₂ Q) :=
  of_length fun n => followersUpTo hs h n

theorem listBy (hs : k.Agrees separator separator Eq) (h : k.Agrees p q Q) :
    k.Agrees (Parser.listBy separator p) (Parser.listBy separator q) (List.Forall₂ Q) :=
  bind h fun _ _ hab => bind (followers hs h) fun _ _ habs => pure (.cons hab habs)

theorem entriesUpTo (expected : String) (h : k.Agrees p q Q) (n : Nat) :
    k.Agrees (Parser.entriesUpTo expected p n) (Parser.entriesUpTo expected q n) (List.Forall₂ Q) := by
  induction n with
  | zero =>
    refine step atEnd fun ended => ?_
    cases ended with
    | true => exact pure .nil
    | false => exact bottomless
  | succ n ih =>
    refine step atEnd fun ended => ?_
    cases ended with
    | true => exact pure .nil
    | false =>
      refine bind h fun a b hab => step atEnd fun ended => ?_
      cases ended with
      | true => exact pure (.cons hab .nil)
      | false => exact step comma fun _ => bind ih fun as bs habs => pure (.cons hab habs)

theorem entries (h : k.Agrees p q Q) :
    k.Agrees (Parser.entries expected p) (Parser.entries expected q) (List.Forall₂ Q) :=
  of_length fun n => entriesUpTo expected h n

theorem bracketedUpTo (h : k.Agrees p q Q) (n : Nat) :
    k.Agrees (Parser.bracketedUpTo p n) (Parser.bracketedUpTo q n) (List.Forall₂ Q) := by
  induction n with
  | zero =>
    refine step (check _) fun opens => ?_
    cases opens with
    | true => exact bottomless
    | false => exact pure .nil
  | succ n ih =>
    refine step (check _) fun opens => ?_
    cases opens with
    | true => exact bind h fun a b hab => bind ih fun as bs habs => pure (.cons hab habs)
    | false => exact pure .nil

theorem bracketed (h : k.Agrees p q Q) :
    k.Agrees (Parser.bracketed p) (Parser.bracketed q) (List.Forall₂ Q) :=
  of_length fun n => bracketedUpTo h n

end Lists

section Generic

variable {m : Type → Type} [Monad m] [MonadStateOf Cursor m] [MonadLiftT Parser m] [Reader m]
  {α β : Type} {p : m α} {q : m β} {Q : α → β → Prop}

theorem untilEndUpTo (h : k.Agrees p q Q) (n : Nat) :
    k.Agrees (SystemVerilog.untilEndUpTo p n) (SystemVerilog.untilEndUpTo q n) (List.Forall₂ Q) := by
  induction n with
  | zero =>
    refine step (lift atEnd) fun ended => ?_
    cases ended with
    | true => exact pure .nil
    | false => exact lift bottomless
  | succ n ih =>
    refine step (lift atEnd) fun ended => ?_
    cases ended with
    | true => exact pure .nil
    | false => exact bind h fun a b hab => bind ih fun as bs habs => pure (.cons hab habs)

theorem untilEnd (h : k.Agrees p q Q) :
    k.Agrees (SystemVerilog.untilEnd p) (SystemVerilog.untilEnd q) (List.Forall₂ Q) :=
  bind get fun c d hcd => by
    rw [hcd.length_eq]
    exact untilEndUpTo h _

end Generic

end Agrees

end Correspondence

end SystemVerilog
