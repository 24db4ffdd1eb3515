import SystemVerilog.Proofs.Reading.Brackets
import SystemVerilog.Proofs.Reading.Readers

/-!
# Readers that come to an end

`EndsAt least c p q` says that at the cursor `c` the reader `p` reads at least `least` tokens and none past the
span, or fails, but never because a budget or a count is used up; and that `q` comes to the very same. A reader
is compared with itself, or with the one that has another budget. What one reader leaves of the span is what the
rules hand to the next one (`EndsAt.bind`), so that a loop is measured by the tokens left (`EndsAt.of_turns`) and
a recursion too (`Founded`).
-/

namespace SystemVerilog

open SystemVerilog.Parser

/-! ### Running parsers and recorders -/

/-- A monad of readers whose runs can be told step by step. A parser hands the notices on as they are. -/
class Runs (m : Type → Type) [Monad m] [MonadStateOf Cursor m] [MonadLiftT Parser m] where
  /-- What a reader comes to at a cursor, and the notices then, behind some notices. -/
  run {α : Type} : m α → Cursor → List Notice → Except Fault (α × Cursor) × List Notice
  run_pure {α : Type} (a : α) (c : Cursor) (ns : List Notice) : run (pure a) c ns = (.ok (a, c), ns)
  run_bind {α β : Type} (p : m α) (f : α → m β) (c : Cursor) (ns : List Notice) :
    run (p >>= f) c ns = match run p c ns with
      | (.ok (a, c₁), ns₁) => run (f a) c₁ ns₁
      | (.error fault, ns₁) => (.error fault, ns₁)
  run_get (c : Cursor) (ns : List Notice) : run (get : m Cursor) c ns = (.ok (c, c), ns)
  run_set (part c : Cursor) (ns : List Notice) : run (set part : m PUnit) c ns = (.ok (⟨⟩, part), ns)
  run_lift {α : Type} (p : Parser α) (c : Cursor) (ns : List Notice) : run (monadLift p : m α) c ns = (p c, ns)
  /-- A reader is nothing but its runs. -/
  ext {α : Type} {p q : m α} : (∀ c ns, run p c ns = run q c ns) → p = q

instance : Runs Parser where
  run p c ns := (p c, ns)
  run_pure _ _ _ := rfl
  run_bind p f c ns := by
    show ((p c).bind fun r => f r.1 r.2, ns) = _
    cases p c <;> rfl
  run_get _ _ := rfl
  run_set _ _ _ := rfl
  run_lift _ _ _ := rfl
  ext h := funext fun c => (Prod.mk.inj (h c [])).1

instance : Runs Recorder where
  run p c ns := (p c).run ns
  run_pure _ _ _ := rfl
  run_bind := Recorder.run_bind
  run_get _ _ := rfl
  run_set _ _ _ := rfl
  run_lift _ _ _ := rfl
  ext h := funext fun c => funext fun ns => h c ns

/-- Asking for the cursor changes nothing. -/
theorem Runs.run_get_bind {m : Type → Type} [Monad m] [MonadStateOf Cursor m] [MonadLiftT Parser m] [Runs m]
    {α : Type} (f : Cursor → m α) (c : Cursor) (ns : List Notice) :
    Runs.run (MonadState.get >>= f) c ns = Runs.run (f c) c ns := by
  rw [Runs.run_bind, Runs.run_get]

/-! ### The judgement -/

/-- What a reader may come to at a cursor: it has read at least so many tokens, none of them past the span, or it
fails, but not for want of a budget. -/
inductive Cursor.Lands (c : Cursor) (least : Nat) {α : Type} : Except Fault (α × Cursor) → Prop
  | read (a : α) {k : Nat} (least_le : least ≤ k) (inside : k ≤ c.after.length) : Lands c least (.ok (a, c.skip k))
  | failed {fault : Fault} (founded : fault.cause ≠ .malformed .bottomless) : Lands c least (.error fault)

theorem Cursor.Lands.mono {c : Cursor} {least least' : Nat} {α : Type} {r : Except Fault (α × Cursor)}
    (h : c.Lands least r) (hleast : least' ≤ least) : c.Lands least' r := by
  cases h with
  | read a hk hlen => exact .read a (Nat.le_trans hleast hk) hlen
  | failed hcause => exact .failed hcause

section Generic

variable {m : Type → Type} [Monad m] [MonadStateOf Cursor m] [MonadLiftT Parser m] [Runs m]
  {α β : Type} {least least' : Nat} {c : Cursor}

/-- The first reader ends at the cursor behind so many tokens, and the second one comes to the same. -/
def EndsAt (least : Nat) (c : Cursor) (p q : m α) : Prop :=
  ∀ ns, Runs.run q c ns = Runs.run p c ns ∧ c.Lands least (Runs.run p c ns).1

/-- On fewer tokens than a bound, the first reader reads at least one of them or fails, and the second one comes
to the same. -/
def EndsBelow (bound : Nat) (p q : m α) : Prop := ∀ ⦃c⦄, c.after.length < bound → EndsAt 1 c p q

namespace EndsAt

variable {p q : m α} {f g : α → m β}

theorem mono (h : EndsAt least c p q) (hleast : least' ≤ least) : EndsAt least' c p q :=
  fun ns => ⟨(h ns).1, (h ns).2.mono hleast⟩

theorem uncounted (h : EndsAt least c p q) : EndsAt 0 c p q := h.mono (Nat.zero_le least)

theorem of_run {p' q' : m α} (h : EndsAt least c p q) (hp : ∀ ns, Runs.run p' c ns = Runs.run p c ns)
    (hq : ∀ ns, Runs.run q' c ns = Runs.run q c ns) : EndsAt least c p' q' := by
  intro ns
  rw [hp, hq]
  exact h ns

theorem pure (a : α) : EndsAt 0 c (Pure.pure a : m α) (Pure.pure a) := by
  intro ns
  rw [Runs.run_pure]
  exact ⟨rfl, .read a (Nat.le_refl 0) (Nat.zero_le _)⟩

/-- What is read second stands behind what was read first. -/
theorem bind (hp : EndsAt least c p q)
    (hf : ∀ a c₁, c₁.after.length + least ≤ c.after.length → EndsAt least' c₁ (f a) (g a)) :
    EndsAt (least + least') c (p >>= f) (q >>= g) := by
  intro ns
  obtain ⟨hsame, hlands⟩ := hp ns
  rw [Runs.run_bind, Runs.run_bind, hsame]
  generalize Runs.run p c ns = r at hlands
  obtain ⟨r, ns₁⟩ := r
  cases hlands with
  | failed hcause => exact ⟨rfl, .failed hcause⟩
  | read a hk hlen =>
    rename_i k
    obtain ⟨hsame', hlands'⟩ := hf a (c.skip k) (by rw [Cursor.skip_after, List.length_drop]; omega) ns₁
    refine ⟨hsame', ?_⟩
    dsimp only
    generalize (Runs.run (f a) (c.skip k) ns₁).1 = r' at hlands'
    cases hlands' with
    | failed hcause => exact .failed hcause
    | read b hk' hlen' =>
      rw [Cursor.skip_after, List.length_drop] at hlen'
      rw [Cursor.skip_skip]
      exact .read b (Nat.add_le_add hk hk') (by omega)

/-- What may read nothing comes first. -/
theorem step (hp : EndsAt 0 c p q)
    (hf : ∀ a c₁, c₁.after.length ≤ c.after.length → EndsAt least c₁ (f a) (g a)) :
    EndsAt least c (p >>= f) (q >>= g) := by
  have h := hp.bind hf
  rwa [Nat.zero_add] at h

/-- A token is read first, so there are fewer tokens left. -/
theorem lead (hp : EndsAt 1 c p q)
    (hf : ∀ a c₁, c₁.after.length < c.after.length → EndsAt 0 c₁ (f a) (g a)) : EndsAt 1 c (p >>= f) (q >>= g) :=
  hp.bind hf

theorem get {f g : Cursor → m β} (h : EndsAt least c (f c) (g c)) :
    EndsAt least c (MonadState.get >>= f) (MonadState.get >>= g) :=
  h.of_run (Runs.run_get_bind f c) (Runs.run_get_bind g c)

theorem lift {p q : Parser α} (h : EndsAt least c p q) : EndsAt least c (monadLift p : m α) (monadLift q) := by
  intro ns
  obtain ⟨hsame, hlands⟩ := h ns
  rw [Runs.run_lift, Runs.run_lift]
  exact ⟨hsame, hlands⟩

theorem tagged {p q : m (Site → α)} (h : EndsAt least c p q) :
    EndsAt least c (SystemVerilog.tagged p) (SystemVerilog.tagged q) :=
  .get <| Nat.add_zero least ▸ h.bind fun _ _ _ => .get (.pure _)

/-- A part of the span is read by its own cursor, and the outer one stays where it is. -/
theorem within {part : Cursor} (h : EndsAt 0 part p q) :
    EndsAt 0 c (SystemVerilog.within part p) (SystemVerilog.within part q) := by
  have hwithin (p : m α) (ns : List Notice) :
      Runs.run (SystemVerilog.within part p) c ns = match Runs.run p part ns with
        | (.ok (a, _), ns₁) => (.ok (a, c), ns₁)
        | (.error fault, ns₁) => (.error fault, ns₁) := by
    simp only [SystemVerilog.within, Runs.run_bind, Runs.run_get, Runs.run_set, Runs.run_pure]
  intro ns
  obtain ⟨hsame, hlands⟩ := h ns
  rw [hwithin, hwithin, hsame]
  refine ⟨rfl, ?_⟩
  generalize Runs.run p part ns = r at hlands
  obtain ⟨r, ns₁⟩ := r
  cases hlands with
  | failed hcause => exact .failed hcause
  | read a _ _ => exact .read a (Nat.le_refl 0) (Nat.zero_le _)

/-! ### Looking -/

/-- What is read behind a look at the cursor. -/
theorem look {σ : Type} {t : Parser σ} {s : σ} {f g : σ → m β} (ht : t c = .ok (s, c))
    (h : EndsAt least c (f s) (g s)) : EndsAt least c (monadLift t >>= f) (monadLift t >>= g) := by
  have hlook (f : σ → m β) (ns : List Notice) : Runs.run (monadLift t >>= f) c ns = Runs.run (f s) c ns := by
    rw [Runs.run_bind, Runs.run_lift, ht]
  exact h.of_run (hlook f) (hlook g)

/-- A loop goes on only where tokens are left. -/
theorem atEnd {f g : Bool → m β} (hend : c.after = [] → EndsAt least c (f true) (g true))
    (hmore : c.after ≠ [] → EndsAt least c (f false) (g false)) :
    EndsAt least c (monadLift Parser.atEnd >>= f) (monadLift Parser.atEnd >>= g) := by
  by_cases hafter : c.after = []
  · have hatEnd : c.atEnd = true := Cursor.atEnd_eq_true_iff.2 hafter
    exact look (s := true) (by rw [← hatEnd]; rfl) (hend hafter)
  · have hatEnd : c.atEnd = false := by simpa [Cursor.atEnd] using hafter
    exact look (s := false) (by rw [← hatEnd]; rfl) (hmore hafter)

theorem check {kind : TokenKind} {f g : Bool → m β}
    (hfound : c.after ≠ [] → c.check kind = true → EndsAt least c (f true) (g true))
    (helse : c.check kind = false → EndsAt least c (f false) (g false)) :
    EndsAt least c (monadLift (Parser.check kind) >>= f) (monadLift (Parser.check kind) >>= g) := by
  refine look (t := Parser.check kind) (s := c.check kind) rfl ?_
  cases hcheck : c.check kind with
  | false => exact helse hcheck
  | true =>
    obtain ⟨t, rest, hafter, -⟩ := Cursor.after_of_check hcheck
    exact hfound (List.ne_nil_iff_exists_cons.2 ⟨t, rest, hafter⟩) hcheck

theorem current? {f g : Option Token → m β}
    (hsome : ∀ t rest, c.after = t :: rest → EndsAt least c (f (some t)) (g (some t)))
    (hnone : EndsAt least c (f none) (g none)) :
    EndsAt least c (monadLift Parser.current? >>= f) (monadLift Parser.current? >>= g) := by
  refine look (t := Parser.current?) (s := c.current?) rfl ?_
  cases hnext : c.current? with
  | none => exact hnone
  | some t =>
    obtain ⟨rest, hafter⟩ := List.head?_eq_some_iff.1 hnext
    exact hsome t rest hafter

end EndsAt

/-! ### Loops

A loop is given a number of turns, and each turn but the last one reads a token. So any two numbers will do that are
no less than the tokens left. -/

section Loops

theorem EndsAt.of_turns {σ : Type} {p q : Nat → σ → m α}
    (hend : ∀ n n' s c₁, c₁.after = [] → EndsAt 0 c₁ (p n s) (q n' s))
    (hturn : ∀ n n' s c₁, c₁.after ≠ [] → c₁.after.length ≤ c.after.length →
      (∀ s c₂, c₂.after.length < c₁.after.length → EndsAt 0 c₂ (p n s) (q n' s)) →
      EndsAt 0 c₁ (p (n + 1) s) (q (n' + 1) s))
    {n n' : Nat} (s : σ) (hn : c.after.length ≤ n) (hn' : c.after.length ≤ n') : EndsAt 0 c (p n s) (q n' s) := by
  -- the induction goes over cursors that are no further from the end than `c`
  suffices h : ∀ n n' s c₁, c₁.after.length ≤ c.after.length → c₁.after.length ≤ n → c₁.after.length ≤ n' →
      EndsAt 0 c₁ (p n s) (q n' s) from h n n' s c (Nat.le_refl _) hn hn'
  intro n
  induction n with
  | zero => exact fun n' s c₁ _ hn _ => hend 0 n' s c₁ (List.eq_nil_of_length_eq_zero (Nat.le_zero.1 hn))
  | succ n ih =>
    intro n' s c₁ hle hn hn'
    by_cases hafter : c₁.after = []
    · exact hend (n + 1) n' s c₁ hafter
    · have hpos := List.length_pos_iff.2 hafter
      obtain ⟨n', rfl⟩ : ∃ l, n' = l + 1 := ⟨n' - 1, by omega⟩
      exact hturn n n' s c₁ hafter hle fun s c₂ hlt => ih n' s c₂ (by omega) (by omega) (by omega)

variable {bound : Nat} {p q : m α}

/-- Elements up to the end of the span, each of which holds a token: every number of turns that is enough for the
tokens left leads to the same. -/
theorem EndsAt.untilEndUpTo (hp : EndsBelow bound p q) {n n' : Nat} (hc : c.after.length < bound)
    (hn : c.after.length ≤ n) (hn' : c.after.length ≤ n') :
    EndsAt 0 c (SystemVerilog.untilEndUpTo p n) (SystemVerilog.untilEndUpTo q n') := by
  refine of_turns (p := fun n (_ : Unit) => SystemVerilog.untilEndUpTo p n)
    (q := fun n (_ : Unit) => SystemVerilog.untilEndUpTo q n) ?_ ?_ () hn hn'
  · intro n n' _ c hafter
    cases n <;> cases n' <;> exact .atEnd (fun _ => .pure []) fun hmore => absurd hafter hmore
  · intro n n' _ c hmore hle hrest
    refine .atEnd (fun hafter => absurd hafter hmore) fun _ => ?_
    exact .uncounted <| .lead (hp (by omega)) fun a c₁ hlt => .step (hrest () c₁ hlt) fun _ _ _ => .pure _

theorem EndsAt.untilEnd (hp : EndsBelow bound p q) (hc : c.after.length < bound) :
    EndsAt 0 c (SystemVerilog.untilEnd p) (SystemVerilog.untilEnd q) :=
  .get (untilEndUpTo hp hc (Nat.le_refl _) (Nat.le_refl _))

end Loops

/-! ### Recursions

A routine that reads constructs inside its own construct is a step of a recursion: it is told what reads the inner
ones. -/

section Recursions

variable {ι : Type} {step : (ι → m α) → ι → m α}

/-- What a step comes to at a cursor is settled by what the inner readers come to on fewer tokens. -/
def Founded (step : (ι → m α) → ι → m α) : Prop :=
  ∀ ⦃c p q⦄, (∀ i, EndsBelow c.after.length (p i) (q i)) → ∀ i, EndsAt 1 c (step p i) (step q i)

namespace Founded

variable (h : Founded step)

include h

/-- Budgets of more nestings than tokens lead to the same, and none of them is used up. -/
theorem of_budget {r : Nat → ι → m α} (hr : ∀ n, r (n + 1) = step (r n)) {n n' : Nat}
    (hn : c.after.length < n) (hn' : c.after.length < n') (i : ι) : EndsAt 1 c (r n i) (r n' i) := by
  induction n generalizing c n' i with
  | zero => exact absurd hn (Nat.not_lt_zero _)
  | succ n ih =>
    obtain ⟨n', rfl⟩ : ∃ l, n' = l + 1 := ⟨n' - 1, by omega⟩
    rw [hr, hr]
    exact h (fun i c₁ hlt => ih (by omega) (by omega) i) i

/-- Readers that meet the equation of the recursion come to the same everywhere. -/
theorem endsAt {p q : ι → m α} (hp : ∀ i, p i = step p i) (hq : ∀ i, q i = step q i) (c : Cursor) (i : ι) :
    EndsAt 1 c (p i) (q i) := by
  induction hn : c.after.length using Nat.strongRecOn generalizing c i with
  | ind n ih =>
    subst hn
    rw [hp i, hq i]
    exact h (fun i c₁ hlt => ih _ hlt c₁ i rfl) i

/-- The equation of the recursion has one solution. -/
theorem unique {p q : ι → m α} (hp : ∀ i, p i = step p i) (hq : ∀ i, q i = step q i) : p = q :=
  funext fun i => Runs.ext fun c ns => (h.endsAt hp hq c i ns).1.symm

/-- The reader that takes its budget from the tokens left meets the equation. -/
theorem solved {r : Nat → ι → m α} (hr : ∀ n, r (n + 1) = step (r n)) {s : ι → m α}
    (hs : ∀ i c ns, Runs.run (s i) c ns = Runs.run (r (c.after.length + 1) i) c ns) (i : ι) :
    s i = step s i := by
  refine Runs.ext fun c ns => ?_
  have hinner (i : ι) : EndsBelow c.after.length (r c.after.length i) (s i) := fun c₁ hlt =>
    (h.of_budget hr hlt (Nat.lt_succ_self _) i).of_run (fun _ => rfl) (hs i c₁)
  rw [hs, hr]
  exact (h hinner i ns).1.symm

end Founded

end Recursions

end Generic

/-! ### Primitives -/

namespace EndsAt

variable {α : Type} {least : Nat} {c : Cursor} {p q : Parser α}

theorem of_lands (h : c.Lands least (p c)) : EndsAt least c p p := fun _ => ⟨rfl, h⟩

/-- What is read is taken off the tokens left. -/
theorem shorter (h : EndsAt 1 c p q) {a : α} {c' : Cursor} (hread : p c = .ok (a, c')) :
    c'.after.length < c.after.length := by
  have hlands : c.Lands 1 (p c) := (h []).2
  rw [hread] at hlands
  cases hlands with
  | read _ hk hlen =>
    rw [Cursor.skip_after, List.length_drop]
    omega

/-- Parsers that take a number which the tokens left give. -/
theorem of_length {p q : Nat → Parser α} (h : EndsAt least c (p c.after.length) (q c.after.length)) :
    EndsAt (m := Parser) least c (fun c => p c.after.length c) (fun c => q c.after.length c) := h

/-- A parser that never fails and may read the next token. -/
theorem of_option {a : α} {k : Nat} (h : p c = .ok (a, c.skip k)) (hk : k ≤ c.after.length) : EndsAt 0 c p p :=
  of_lands (h ▸ .read a (Nat.zero_le k) hk)

theorem unimplemented (found : Lexeme) (location : Location) :
    EndsAt least c (Parser.fail (.unimplemented found) location : Parser α)
      (Parser.fail (.unimplemented found) location) :=
  of_lands (.failed nofun)

theorem unexpected (expected : String) (found : Token) :
    EndsAt least c (Parser.unexpected expected found : Parser α) (Parser.unexpected expected found) :=
  of_lands (.failed nofun)

theorem unexpectedEnd (expected : String) :
    EndsAt least c (Parser.unexpectedEnd expected : Parser α) (Parser.unexpectedEnd expected) :=
  of_lands (.failed nofun)

theorem demandWith (test : TokenKind → Bool) (expected : String) :
    EndsAt 1 c (Parser.demandWith test expected) (Parser.demandWith test expected) := by
  refine of_lands ?_
  unfold Parser.demandWith
  split
  · rename_i t rest hafter
    split
    · exact .read t (Nat.le_refl 1) (by rw [hafter]; exact Nat.succ_pos _)
    · exact .failed nofun
  · exact .failed nofun

theorem expectAs (kind : TokenKind) (expected : String) :
    EndsAt 1 c (Parser.expectAs kind expected) (Parser.expectAs kind expected) := demandWith _ _

theorem demandBy (meaning : TokenKind → Option α) (expected : String) :
    EndsAt 1 c (Parser.demandBy meaning expected) (Parser.demandBy meaning expected) := by
  refine of_lands ?_
  unfold Parser.demandBy
  split
  · rename_i t rest hafter
    split
    · exact .read _ (Nat.le_refl 1) (by rw [hafter]; exact Nat.succ_pos _)
    · exact .failed nofun
  · exact .failed nofun

theorem name : EndsAt 1 c Parser.name Parser.name := .lead (demandWith _ _) fun _ _ _ => .pure _

theorem comma (expected : String) : EndsAt 1 c (Parser.comma expected) (Parser.comma expected) :=
  .lead (expectAs _ _) fun _ _ _ => .pure _

/-- Where there is a token, the next one is read. -/
theorem advance? (h : c.after ≠ []) : EndsAt 1 c Parser.advance? Parser.advance? :=
  of_lands (.read c.current? (Nat.le_refl 1) (List.length_pos_iff.2 h))

theorem tryBy (meaning : TokenKind → Option α) : EndsAt 0 c (Parser.tryBy meaning) (Parser.tryBy meaning) := by
  cases hnext : c.currentKind?.bind meaning with
  | none => exact of_option (a := none) (k := 0) (by rw [Parser.tryBy, hnext]; rfl) (Nat.zero_le _)
  | some a =>
    obtain ⟨t, rest, hafter, -⟩ := Cursor.after_of_currentKind? hnext
    exact of_option (by rw [Parser.tryBy, hnext]) (by rw [hafter]; exact Nat.succ_pos _)

theorem eat? (kind : TokenKind) : EndsAt 0 c (Parser.eat? kind) (Parser.eat? kind) := by
  cases hnext : c.check kind with
  | false => exact of_option (k := 0) (eat?_of_check hnext) (Nat.zero_le _)
  | true =>
    obtain ⟨t, rest, hafter, ht⟩ := Cursor.after_of_check hnext
    exact of_option (eat?_of_after hafter ht) (by rw [hafter]; exact Nat.succ_pos _)

theorem eat (kind : TokenKind) : EndsAt 0 c (Parser.eat kind) (Parser.eat kind) :=
  .step (eat? kind) fun _ _ _ => .pure _

theorem expectEnd (expected : String) : EndsAt 0 c (Parser.expectEnd expected) (Parser.expectEnd expected) := by
  refine of_lands ?_
  unfold Parser.expectEnd
  split
  · exact .failed nofun
  · exact .read () (Nat.le_refl 0) (Nat.zero_le _)

theorem since (first : Site) : EndsAt 0 c (Parser.since first) (Parser.since first) :=
  of_option (k := 0) rfl (Nat.zero_le _)

theorem filling (expected : String) (h : EndsAt least c p q) :
    EndsAt least c (Parser.filling expected p) (Parser.filling expected q) :=
  Nat.add_zero least ▸ h.bind fun _ _ _ => .step (expectEnd _) fun _ _ _ => .pure _

/-! ### Parts of the span -/

section Parts

variable {m : Type → Type} [Monad m] [MonadStateOf Cursor m] [MonadLiftT Parser m] [Runs m] {p q : m α}

/-- The closer of a pair stands before the end of the span. -/
theorem closerDistance (opening closing : TokenKind) :
    (∃ n, Parser.closerDistance opening closing c = .ok (n, c) ∧ n < c.after.length) ∨
      ∃ fault, Parser.closerDistance opening closing c = .error fault ∧ fault.cause ≠ .malformed .bottomless := by
  cases hread : Parser.closerDistance opening closing c with
  | ok r =>
    obtain ⟨n, c'⟩ := r
    obtain ⟨rfl, -, hn⟩ := closerDistance_inv hread
    obtain ⟨us, cl, vs, hafter, hlen, -⟩ := closer_of_distance hn
    refine .inl ⟨n, rfl, ?_⟩
    rw [hafter, List.length_append, List.length_cons]
    omega
  | error fault =>
    refine .inr ⟨fault, rfl, ?_⟩
    unfold Parser.closerDistance at hread
    split at hread
    · cases hread
      nofun
    · split at hread
      · split at hread
        · cases hread
        · cases hread
          nofun
      · cases hread
        nofun

/-- The interior of a pair has fewer tokens than are left. -/
theorem enclosed {opening closing : TokenKind}
    (h : ∀ part, part.after.length < c.after.length → EndsAt 0 part p q) :
    EndsAt 1 c (SystemVerilog.enclosed opening closing p) (SystemVerilog.enclosed opening closing q) := by
  intro ns
  unfold SystemVerilog.enclosed
  rw [Runs.run_bind, Runs.run_bind, Runs.run_lift]
  rcases closerDistance (c := c) opening closing with ⟨n, hn, hlt⟩ | ⟨fault, hfault, hcause⟩
  · have hpart : Parser.interior opening closing c = .ok ((c.skip 1).ahead (n - 1), c.skip (n + 1)) := by
      rw [Parser.interior, bind_of_ok hn]
    rw [hpart]
    have hshort : ((c.skip 1).ahead (n - 1)).after.length < c.after.length := by
      rw [Cursor.ahead_after, List.length_take]
      omega
    obtain ⟨hsame, hlands⟩ := within (c := c.skip (n + 1)) (h _ hshort) ns
    refine ⟨hsame, ?_⟩
    dsimp only
    generalize (Runs.run (SystemVerilog.within ((c.skip 1).ahead (n - 1)) p) (c.skip (n + 1)) ns).1 = r at hlands
    cases hlands with
    | failed hcause => exact .failed hcause
    | read a _ hk =>
      rename_i k
      rw [Cursor.skip_after, List.length_drop] at hk
      rw [Cursor.skip_skip]
      exact .read a (by omega) (by omega)
  · have hpart : Parser.interior opening closing c = .error fault := by
      show (Parser.closerDistance opening closing c).bind _ = _
      rw [hfault]
      rfl
    rw [hpart]
    exact ⟨rfl, .failed hcause⟩

end Parts

theorem spanToCloser (opening closing : TokenKind) :
    EndsAt 1 c (Parser.spanToCloser opening closing) (Parser.spanToCloser opening closing) := by
  refine of_lands ?_
  rcases closerDistance (c := c) opening closing with ⟨n, hn, hlt⟩ | ⟨fault, hfault, hcause⟩
  · rw [Parser.spanToCloser, bind_of_ok hn]
    exact .read _ (Nat.succ_pos _) hlt
  · have hspan : Parser.spanToCloser opening closing c = .error fault := by
      show (Parser.closerDistance opening closing c).bind _ = _
      rw [hfault]
      rfl
    rw [hspan]
    exact .failed hcause

theorem spanBefore {find : List Token → Option Nat} {expected : String}
    (hfind : ∀ n, find c.after = some n → n < c.after.length) :
    EndsAt 1 c (Parser.spanBefore find expected) (Parser.spanBefore find expected) := by
  refine of_lands ?_
  unfold Parser.spanBefore
  split
  · exact .read _ (Nat.succ_pos _) (hfind _ ‹_›)
  · exact .failed nofun

theorem spanBefore? {find : List Token → Option Nat} (hfind : ∀ n, find c.after = some n → n < c.after.length) :
    EndsAt 0 c (Parser.spanBefore? find) (Parser.spanBefore? find) := by
  cases hfound : find c.after with
  | none => exact of_option (k := 0) (by rw [Parser.spanBefore?, hfound]; rfl) (Nat.zero_le _)
  | some n => exact of_option (by rw [Parser.spanBefore?, hfound]) (hfind n hfound)

theorem beforeSemicolon (hp : ∀ part, EndsAt 0 part p p) :
    EndsAt 1 c (Parser.beforeSemicolon p) (Parser.beforeSemicolon p) :=
  .lead (spanBefore fun _ hfound => (List.findIdx?_eq_some_iff_findIdx_eq.1 hfound).1) fun part _ _ =>
    .within (hp part)

/-! ### Lists -/

section Lists

variable {bound : Nat} {separator : Parser Unit}

theorem followersUpTo (hs : ∀ c, EndsAt 1 c separator separator) (hp : EndsBelow bound p q)
    (hc : c.after.length < bound) {n n' : Nat} (hn : c.after.length ≤ n) (hn' : c.after.length ≤ n') :
    EndsAt 0 c (Parser.followersUpTo separator p n) (Parser.followersUpTo separator q n') := by
  refine of_turns (p := fun n (_ : Unit) => Parser.followersUpTo separator p n)
    (q := fun n (_ : Unit) => Parser.followersUpTo separator q n) ?_ ?_ () hn hn'
  · intro n n' _ c hafter
    cases n <;> cases n' <;> exact .atEnd (fun _ => .pure []) fun hmore => absurd hafter hmore
  · intro n n' _ c hmore hle hrest
    refine .atEnd (fun hafter => absurd hafter hmore) fun _ => .uncounted <| .lead (hs c) fun _ c₁ hlt => ?_
    exact .step (hp (by omega)).uncounted fun a c₂ hle => .step (hrest () c₂ (by omega)) fun _ _ _ => .pure _

theorem followers (hs : ∀ c, EndsAt 1 c separator separator) (hp : EndsBelow bound p q)
    (hc : c.after.length < bound) :
    EndsAt 0 c (Parser.followers separator p) (Parser.followers separator q) :=
  followersUpTo hs hp hc (Nat.le_refl _) (Nat.le_refl _)

theorem listBy (hs : ∀ c, EndsAt 1 c separator separator) (hp : EndsBelow bound p q) (hc : c.after.length < bound) :
    EndsAt 1 c (Parser.listBy separator p) (Parser.listBy separator q) :=
  .lead (hp hc) fun _ _ hlt => .step (followers hs hp (by omega)) fun _ _ _ => .pure _

theorem entriesUpTo {expected : String} (hp : EndsBelow bound p q) (hc : c.after.length < bound) {n n' : Nat}
    (hn : c.after.length ≤ n) (hn' : c.after.length ≤ n') :
    EndsAt 0 c (Parser.entriesUpTo expected p n) (Parser.entriesUpTo expected q n') := by
  refine of_turns (p := fun n (_ : Unit) => Parser.entriesUpTo expected p n)
    (q := fun n (_ : Unit) => Parser.entriesUpTo expected q n) ?_ ?_ () hn hn'
  · intro n n' _ c hafter
    cases n <;> cases n' <;> exact .atEnd (fun _ => .pure []) fun hmore => absurd hafter hmore
  · intro n n' _ c hmore hle hrest
    refine .atEnd (fun hafter => absurd hafter hmore) fun _ => ?_
    have hpos := List.length_pos_iff.2 hmore
    refine .uncounted <| .lead (hp (by omega)) fun a c₁ hlt => .atEnd (fun _ => .pure _) fun _ => ?_
    exact .step (comma _).uncounted fun _ c₂ hle => .step (hrest () c₂ (by omega)) fun _ _ _ => .pure _

theorem entries {expected : String} (hp : EndsBelow bound p q) (hc : c.after.length < bound) :
    EndsAt 0 c (Parser.entries expected p) (Parser.entries expected q) :=
  entriesUpTo hp hc (Nat.le_refl _) (Nat.le_refl _)

theorem bracketedUpTo (hp : EndsBelow bound p q) (hc : c.after.length < bound) {n n' : Nat}
    (hn : c.after.length ≤ n) (hn' : c.after.length ≤ n') :
    EndsAt 0 c (Parser.bracketedUpTo p n) (Parser.bracketedUpTo q n') := by
  refine of_turns (p := fun n (_ : Unit) => Parser.bracketedUpTo p n)
    (q := fun n (_ : Unit) => Parser.bracketedUpTo q n) ?_ ?_ () hn hn'
  · intro n n' _ c hafter
    cases n <;> cases n' <;> exact .check (fun hmore => absurd hafter hmore) fun _ => .pure []
  · intro n n' _ c hmore hle hrest
    refine .check (fun _ _ => ?_) fun _ => .pure []
    have hpos := List.length_pos_iff.2 hmore
    exact .uncounted <| .lead (hp (by omega)) fun a c₁ hlt => .step (hrest () c₁ hlt) fun _ _ _ => .pure _

theorem bracketed (hp : EndsBelow bound p q) (hc : c.after.length < bound) :
    EndsAt 0 c (Parser.bracketed p) (Parser.bracketed q) :=
  bracketedUpTo hp hc (Nat.le_refl _) (Nat.le_refl _)

end Lists

end EndsAt

end SystemVerilog
