import SystemVerilog.Grammar.Parser

/-!
# Steps of a cursor

`c.Steps ts c'` says that reading the tokens `ts` leads from the cursor `c` to `c'`. The equations of
the combinators and of the primitives that read one token are stated for a given cursor, in the form
`p c = .ok (a, c') ↔ ...`: from left to right they open a successful reading, from right to left they
put one together.
-/

namespace SystemVerilog

variable {α β : Type}

namespace Cursor

theorem skip_eq (n : Nat) (c : Cursor) :
    c.skip n = { c with before := (c.after.take n).reverse ++ c.before, after := c.after.drop n } := by
  calc c.skip n = ⟨(c.skip n).lead, (c.skip n).start, (c.skip n).before, (c.skip n).after⟩ := rfl
    _ = _ := by rw [skip_lead, skip_start, skip_before, skip_after]

theorem skip_skip (m n : Nat) (c : Cursor) : (c.skip m).skip n = c.skip (m + n) := by
  induction m generalizing c with
  | zero => simp
  | succ m ih =>
    rw [Nat.succ_add]
    cases h : c.after with
    | nil =>
      rw [skip, skip, h]
      cases n with
      | zero => rfl
      | succ n => simp [skip, h]
    | cons t ts => rw [skip_cons m h, skip_cons (m + n) h, ih]

/-- Reading `ts` leads from `c` to `c'`. -/
structure Steps (c : Cursor) (ts : List Token) (c' : Cursor) : Prop where
  after : c.after = ts ++ c'.after
  eq_skip : c' = c.skip ts.length

variable {c c' c'' : Cursor} {ts us rest : List Token} {t : Token}

theorem Steps.refl (c : Cursor) : c.Steps [] c := ⟨rfl, rfl⟩

theorem Steps.trans (h : c.Steps ts c') (h' : c'.Steps us c'') : c.Steps (ts ++ us) c'' := by
  refine ⟨by rw [h.after, h'.after, List.append_assoc], ?_⟩
  rw [h'.eq_skip, h.eq_skip, skip_skip, List.length_append]

theorem Steps.of_after (h : c.after = ts ++ rest) : c.Steps ts (c.skip ts.length) :=
  ⟨by simp [h], rfl⟩

theorem Steps.one (h : c.after = t :: rest) : c.Steps [t] (c.skip 1) := ⟨by simp [h], rfl⟩

theorem Steps.length (h : c.Steps ts c') : c.after.length = ts.length + c'.after.length := by
  rw [h.after, List.length_append]

theorem Steps.of_nil (h : c.Steps [] c') : c' = c := h.eq_skip

theorem Steps.of_append (h : c.Steps (ts ++ us) c') : ∃ c₁, c.Steps ts c₁ ∧ c₁.Steps us c' := by
  have hafter : c.after = ts ++ (us ++ c'.after) := by rw [h.after, List.append_assoc]
  refine ⟨_, .of_after hafter, ⟨by simp [hafter], ?_⟩⟩
  rw [skip_skip, ← List.length_append]
  exact h.eq_skip

theorem Steps.of_cons (h : c.Steps (t :: ts) c') :
    c.after = t :: (ts ++ c'.after) ∧ (c.skip 1).Steps ts c' := by
  refine ⟨h.after, by simp [h.after], ?_⟩
  rw [skip_skip, Nat.add_comm]
  exact h.eq_skip

/-- The cursor over the interior of a pair stands before all of it. -/
theorem Steps.interior {o cl : Token} (h : c.Steps (o :: (ts ++ [cl])) c') :
    ∃ c₁, ((c.skip 1).ahead ts.length).Steps ts c₁ ∧ c₁.after = [] := by
  have hafter : ((c.skip 1).ahead ts.length).after = ts ++ [] := by
    simp [Cursor.ahead, h.after]
  exact ⟨_, .of_after hafter, by simp [hafter]⟩

/-- The cursor over the tokens ahead stands before all of them. -/
theorem Steps.ahead (h : c.Steps (ts ++ us) c') :
    ∃ c₁, (c.ahead ts.length).Steps ts c₁ ∧ c₁.after = [] := by
  have hafter : (c.ahead ts.length).after = ts ++ [] := by simp [Cursor.ahead, h.after]
  exact ⟨_, .of_after hafter, by simp [hafter]⟩

@[simp] theorem ahead_after (c : Cursor) (n : Nat) : (c.ahead n).after = c.after.take n := rfl

theorem atEnd_eq_true_iff : c.atEnd = true ↔ c.after = [] := by simp [atEnd]

theorem check_of_after {kind : TokenKind} (h : c.after = t :: rest) (ht : t.kind = kind) :
    c.check kind = true := by
  simp [check, currentKind?, current?, h, ht]

theorem currentKind?_of_after {kind : TokenKind} (h : c.after = t :: rest) (ht : t.kind = kind) :
    c.currentKind? = some kind := by
  simp [currentKind?, current?, h, ht]

theorem check_eq_false {kind : TokenKind} (h : ∀ t us, c.after = t :: us → t.kind ≠ kind) :
    c.check kind = false := by
  unfold check currentKind? current?
  cases hc : c.after with
  | nil => rfl
  | cons t us => simpa using h t us hc

/-- The token that a meaning was found at. -/
theorem after_of_currentKind? {meaning : TokenKind → Option α} {a : α}
    (h : c.currentKind?.bind meaning = some a) :
    ∃ t rest, c.after = t :: rest ∧ meaning t.kind = some a := by
  unfold currentKind? current? at h
  cases hc : c.after with
  | nil => simp [hc] at h
  | cons t rest => exact ⟨t, rest, rfl, by simpa [hc] using h⟩

theorem after_of_kind {kind : TokenKind} (h : c.currentKind? = some kind) :
    ∃ t rest, c.after = t :: rest ∧ t.kind = kind := by
  have hsome : c.currentKind?.bind some = some kind := by rw [h, Option.bind_some]
  obtain ⟨t, rest, hafter, ht⟩ := after_of_currentKind? hsome
  exact ⟨t, rest, hafter, Option.some.inj ht⟩

theorem after_of_check {kind : TokenKind} (h : c.check kind = true) :
    ∃ t rest, c.after = t :: rest ∧ t.kind = kind := after_of_kind (eq_of_beq h)

theorem atEnd_of_after_cons (h : c.after = t :: rest) : c.atEnd = false := by simp [atEnd, h]

end Cursor

namespace Parser

variable {p : Parser α} {f : α → Parser β} {c c' c₁ : Cursor} {a : α} {b : β}

/-! ### Sequencing -/

theorem bind_eq_ok : (p >>= f) c = .ok (b, c') ↔
    ∃ a c₁, p c = .ok (a, c₁) ∧ f a c₁ = .ok (b, c') := by
  show (p c).bind (fun r => f r.1 r.2) = _ ↔ _
  cases p c with
  | error e => simp [Except.bind]
  | ok r => simp [Except.bind, Prod.ext_iff, and_assoc]

theorem bind_of_ok (h : p c = .ok (a, c₁)) : (p >>= f) c = f a c₁ := by
  show (p c).bind (fun r => f r.1 r.2) = _
  rw [h]
  rfl

theorem map_of_ok {g : α → β} (h : p c = .ok (a, c₁)) :
    (p >>= fun a => pure (g a)) c = .ok (g a, c₁) := by
  rw [bind_of_ok h]
  rfl

theorem pure_eq_ok {a b : α} : (pure a : Parser α) c = .ok (b, c') ↔ b = a ∧ c' = c := by
  show Except.ok (a, c) = _ ↔ _
  simp only [Except.ok.injEq, Prod.mk.injEq]
  exact and_congr eq_comm eq_comm

theorem fail_ne_ok {cause : Cause} {place : Location} {r : α × Cursor} :
    (fail cause place : Parser α) c ≠ .ok r := nofun

theorem unexpected_ne_ok {expected : String} {t : Token} {r : α × Cursor} :
    (unexpected expected t : Parser α) c ≠ .ok r := nofun

theorem unexpectedEnd_ne_ok {expected : String} {r : α × Cursor} :
    (unexpectedEnd expected : Parser α) c ≠ .ok r := nofun

theorem bottomless_ne_ok {r : α × Cursor} : (bottomless : Parser α) c ≠ .ok r := nofun

/-! ### Looking

A parser that only looks hands the cursor on unchanged. -/

section Looking

variable {kind : TokenKind} {n : Nat} {first : Site}

@[simp] theorem atEnd_bind {f : Bool → Parser β} : (atEnd >>= f) c = f c.atEnd c := rfl

@[simp] theorem location_bind {f : Location → Parser β} : (location >>= f) c = f c.location c := rfl

@[simp] theorem current?_bind {f : Option Token → Parser β} :
    (current? >>= f) c = f c.current? c := rfl

@[simp] theorem currentKind?_bind {f : Option TokenKind → Parser β} :
    (currentKind? >>= f) c = f c.currentKind? c := rfl

@[simp] theorem peekKind?_bind {f : Option TokenKind → Parser β} :
    (peekKind? n >>= f) c = f (c.peekKind? n) c := rfl

@[simp] theorem check_bind {f : Bool → Parser β} : (check kind >>= f) c = f (c.check kind) c := rfl

@[simp] theorem since_bind {f : Site → Parser β} :
    (since first >>= f) c = f ⟨first.location, ⟨first.range.start, c.position⟩⟩ c := rfl

@[simp] theorem advance?_bind {f : Option Token → Parser β} :
    (advance? >>= f) c = f c.current? (c.skip 1) := rfl

end Looking

/-! ### Reading one token -/

section OneToken

variable {test : TokenKind → Bool} {meaning : TokenKind → Option α} {kind : TokenKind}
  {expected : String} {t : Token}

theorem demandWith_eq_ok : demandWith test expected c = .ok (t, c') ↔
    ∃ rest, c.after = t :: rest ∧ test t.kind = true ∧ c' = c.skip 1 := by
  unfold demandWith
  cases h : c.after with
  | nil => simp [unexpectedEnd]
  | cons u us =>
    by_cases hu : test u.kind = true
    · simp only [hu, if_true, Except.ok.injEq, Prod.mk.injEq, List.cons.injEq]
      constructor
      · rintro ⟨rfl, rfl⟩
        exact ⟨us, ⟨rfl, rfl⟩, hu, rfl⟩
      · rintro ⟨rest, ⟨rfl, -⟩, -, rfl⟩
        exact ⟨rfl, rfl⟩
    · simp only [hu, if_false, Bool.false_eq_true, unexpected_ne_ok, false_iff]
      rintro ⟨rest, heq, ht, -⟩
      obtain ⟨rfl, -⟩ := List.cons.inj heq
      exact hu ht

theorem demandBy_eq_ok : demandBy meaning expected c = .ok (a, c') ↔
    ∃ t rest, c.after = t :: rest ∧ meaning t.kind = some a ∧ c' = c.skip 1 := by
  unfold demandBy
  cases h : c.after with
  | nil => simp [unexpectedEnd]
  | cons u us =>
    cases hu : meaning u.kind with
    | none =>
      simp only [hu, unexpected_ne_ok, false_iff]
      rintro ⟨t, rest, heq, ht, -⟩
      obtain ⟨rfl, -⟩ := List.cons.inj heq
      simp [hu] at ht
    | some b =>
      simp only [hu, Except.ok.injEq, Prod.mk.injEq]
      constructor
      · rintro ⟨rfl, rfl⟩
        exact ⟨u, us, rfl, hu, rfl⟩
      · rintro ⟨t, rest, heq, ht, rfl⟩
        obtain ⟨rfl, -⟩ := List.cons.inj heq
        exact ⟨Option.some.inj (hu.symm.trans ht), rfl⟩

theorem expectAs_eq_ok : expectAs kind expected c = .ok (t, c') ↔
    ∃ rest, c.after = t :: rest ∧ t.kind = kind ∧ c' = c.skip 1 := by
  simp [expectAs, demandWith_eq_ok]

theorem expect_eq_ok : expect kind c = .ok (t, c') ↔
    ∃ rest, c.after = t :: rest ∧ t.kind = kind ∧ c' = c.skip 1 := expectAs_eq_ok

theorem name_eq_ok {text : String} : name c = .ok (text, c') ↔
    ∃ t rest, c.after = t :: rest ∧ t.kind.isName = true ∧ text = t.text ∧ c' = c.skip 1 := by
  simp only [name, bind_eq_ok, expectName, demandWith_eq_ok, pure_eq_ok]
  constructor
  · rintro ⟨t, c₁, ⟨rest, h, ht, rfl⟩, rfl, rfl⟩
    exact ⟨t, rest, h, ht, rfl, rfl⟩
  · rintro ⟨t, rest, h, ht, rfl, rfl⟩
    exact ⟨t, _, ⟨rest, h, ht, rfl⟩, rfl, rfl⟩

theorem name_of_steps (h : c.Steps [t] c') (ht : t.kind.isName = true) :
    name c = .ok (t.text, c') :=
  name_eq_ok.2 ⟨t, _, h.after, ht, rfl, h.eq_skip⟩

theorem comma_eq_ok {u : Unit} : comma expected c = .ok (u, c') ↔
    ∃ t rest, c.after = t :: rest ∧ t.kind = .op .comma ∧ c' = c.skip 1 := by
  simp only [comma, bind_eq_ok, expectAs_eq_ok, pure_eq_ok]
  constructor
  · rintro ⟨t, c₁, ⟨rest, h, ht, rfl⟩, -, rfl⟩
    exact ⟨t, rest, h, ht, rfl⟩
  · rintro ⟨t, rest, h, ht, rfl⟩
    exact ⟨t, _, ⟨rest, h, ht, rfl⟩, trivial, rfl⟩

theorem eat?_of_after {rest : List Token} (h : c.after = t :: rest) (ht : t.kind = kind) :
    eat? kind c = .ok (some t, c.skip 1) := by
  simp [eat?, Cursor.check_of_after h ht, Cursor.current?, h]

theorem eat?_of_check (h : c.check kind = false) : eat? kind c = .ok (none, c) := by
  simp [eat?, h]

theorem eat_of_after {rest : List Token} (h : c.after = t :: rest) (ht : t.kind = kind) :
    eat kind c = .ok (true, c.skip 1) := map_of_ok (eat?_of_after h ht)

theorem eat_of_check (h : c.check kind = false) : eat kind c = .ok (false, c) :=
  map_of_ok (eat?_of_check h)

theorem tryBy_of_after {rest : List Token} (h : c.after = t :: rest) (ht : meaning t.kind = some a) :
    tryBy meaning c = .ok (some a, c.skip 1) := by
  simp [tryBy, Cursor.currentKind?, Cursor.current?, h, ht]

theorem tryBy_of_forall (h : ∀ t rest, c.after = t :: rest → meaning t.kind = none) :
    tryBy meaning c = .ok (none, c) := by
  have hnext : c.currentKind?.bind meaning = none := by
    cases hnext : c.currentKind?.bind meaning with
    | none => rfl
    | some a =>
      obtain ⟨t, rest, hafter, ht⟩ := Cursor.after_of_currentKind? hnext
      rw [h t rest hafter] at ht
      cases ht
  simp [tryBy, hnext]

theorem expectEnd_eq_ok {u : Unit} : expectEnd expected c = .ok (u, c') ↔ c.after = [] ∧ c' = c := by
  unfold expectEnd
  cases h : c.after with
  | nil => simp [eq_comm]
  | cons t ts => simp [unexpected_ne_ok]

theorem filling_eq_ok : filling expected p c = .ok (a, c') ↔
    p c = .ok (a, c') ∧ c'.after = [] := by
  simp only [filling, bind_eq_ok, expectEnd_eq_ok, pure_eq_ok]
  constructor
  · rintro ⟨a, c₁, h, _, c₂, ⟨hend, rfl⟩, rfl, rfl⟩
    exact ⟨h, hend⟩
  · rintro ⟨h, hend⟩
    exact ⟨a, c', h, (), c', ⟨hend, rfl⟩, rfl, rfl⟩

end OneToken

/-! ### Parts of the span -/

/-- What stands before a token that is found ahead. -/
theorem spanBefore_of_steps {find : List Token → Option Nat} {expected : String} {ts : List Token}
    {m : Token} (h : c.Steps (ts ++ [m]) c') (hfind : find c.after = some ts.length) :
    spanBefore find expected c = .ok (c.ahead ts.length, c') := by
  simp [spanBefore, hfind, h.eq_skip]

theorem spanBefore?_of_steps {find : List Token → Option Nat} {ts : List Token} {m : Token}
    (h : c.Steps (ts ++ [m]) c') (hfind : find c.after = some ts.length) :
    spanBefore? find c = .ok (some (c.ahead ts.length), c') := by
  simp [spanBefore?, hfind, h.eq_skip]

theorem within_eq_ok {part : Cursor} : (within part p : Parser α) c = .ok (a, c') ↔
    (∃ c₁, p part = .ok (a, c₁)) ∧ c' = c := by
  show (p part).bind (fun r => .ok (r.1, c)) = _ ↔ _
  cases p part with
  | error e => simp [Except.bind]
  | ok r =>
    obtain ⟨a', c₁⟩ := r
    simp only [Except.bind, Except.ok.injEq, Prod.mk.injEq, exists_and_left, exists_eq', and_true]
    exact and_congr Iff.rfl eq_comm

theorem tagged_eq_ok {p : Parser (Site → α)} : (tagged p : Parser α) c = .ok (a, c') ↔
    ∃ f, p c = .ok (f, c') ∧ a = f ⟨c.location, ⟨c.position, c'.position⟩⟩ := by
  show (p c).bind (fun r => .ok (r.1 ⟨c.location, r.2.rangeFrom c.position⟩, r.2)) = _ ↔ _
  cases p c with
  | error e => simp [Except.bind]
  | ok r =>
    obtain ⟨f, c₁⟩ := r
    simp only [Except.bind, Except.ok.injEq, Prod.mk.injEq]
    constructor
    · rintro ⟨rfl, rfl⟩
      exact ⟨f, ⟨rfl, rfl⟩, rfl⟩
    · rintro ⟨f, ⟨rfl, rfl⟩, rfl⟩
      exact ⟨rfl, rfl⟩

theorem tagged_of_ok {p : Parser (Site → α)} {f : Site → α} (h : p c = .ok (f, c')) :
    (tagged p : Parser α) c = .ok (f ⟨c.location, ⟨c.position, c'.position⟩⟩, c') :=
  tagged_eq_ok.2 ⟨f, h, rfl⟩

/-! ### Elements behind separators -/

/-- Elements that are read up to the end of the span, each with a separator before it. -/
inductive Led (separator : Parser Unit) (p : Parser α) : Nat → Cursor → List α → Cursor → Prop
  | done {n : Nat} {c : Cursor} (last : c.after = []) : Led separator p n c [] c
  | more {n : Nat} {c c₁ c₂ c' : Cursor} {a : α} {as : List α} (ahead : c.after ≠ [])
    (mark : separator c = .ok ((), c₁)) (read : p c₁ = .ok (a, c₂)) (rest : Led separator p n c₂ as c') :
    Led separator p (n + 1) c (a :: as) c'

theorem followersUpTo_eq_ok {separator : Parser Unit} {n : Nat} {as : List α} :
    followersUpTo separator p n c = .ok (as, c') ↔ Led separator p n c as c' := by
  constructor
  · intro h
    induction n generalizing c as with
    | zero =>
      rw [followersUpTo, atEnd_bind] at h
      split at h
      · rename_i hend
        obtain ⟨rfl, rfl⟩ := pure_eq_ok.1 h
        exact .done (Cursor.atEnd_eq_true_iff.1 hend)
      · exact absurd h bottomless_ne_ok
    | succ n ih =>
      rw [followersUpTo, atEnd_bind] at h
      split at h
      · rename_i hend
        obtain ⟨rfl, rfl⟩ := pure_eq_ok.1 h
        exact .done (Cursor.atEnd_eq_true_iff.1 hend)
      · rename_i hahead
        obtain ⟨_, c₁, hmark, h⟩ := bind_eq_ok.1 h
        obtain ⟨a, c₂, hread, h⟩ := bind_eq_ok.1 h
        obtain ⟨as, c₃, hrest, hpure⟩ := bind_eq_ok.1 h
        obtain ⟨rfl, rfl⟩ := pure_eq_ok.1 hpure
        exact .more (fun hend => hahead (Cursor.atEnd_eq_true_iff.2 hend)) hmark hread (ih hrest)
  · intro h
    induction h with
    | @done n c hend =>
      have hatEnd : c.atEnd = true := Cursor.atEnd_eq_true_iff.2 hend
      cases n <;> rw [followersUpTo, atEnd_bind, if_pos hatEnd] <;> rfl
    | @more n c _ _ _ _ _ hahead hmark hread _ ih =>
      have hmore : ¬c.atEnd = true := fun hend => hahead (Cursor.atEnd_eq_true_iff.1 hend)
      rw [followersUpTo, atEnd_bind, if_neg hmore, bind_of_ok hmark, bind_of_ok hread, bind_of_ok ih]
      rfl

/-! ### Elements in front of commas -/

/-- Elements that are read up to the end of the span, with a comma behind each but perhaps the last. -/
inductive Listed (expected : String) (p : Parser α) : Cursor → List α → Prop
  | done {c : Cursor} (last : c.after = []) : Listed expected p c []
  | last {c c₁ : Cursor} {a : α} (read : p c = .ok (a, c₁)) (last : c₁.after = []) : Listed expected p c [a]
  | more {c c₁ c₂ : Cursor} {a : α} {as : List α} (read : p c = .ok (a, c₁)) (mark : comma expected c₁ = .ok ((), c₂))
    (rest : Listed expected p c₂ as) : Listed expected p c (a :: as)

theorem listed_of_entriesUpTo {n : Nat} {as : List α} (h : entriesUpTo expected p n c = .ok (as, c')) :
    Listed expected p c as := by
  induction n generalizing c as c' with
  | zero =>
    rw [entriesUpTo, atEnd_bind] at h
    split at h
    · rename_i hend
      obtain ⟨rfl, -⟩ := pure_eq_ok.1 h
      exact .done (Cursor.atEnd_eq_true_iff.1 hend)
    · exact absurd h bottomless_ne_ok
  | succ n ih =>
    rw [entriesUpTo, atEnd_bind] at h
    split at h
    · rename_i hend
      obtain ⟨rfl, -⟩ := pure_eq_ok.1 h
      exact .done (Cursor.atEnd_eq_true_iff.1 hend)
    · obtain ⟨a, c₁, hread, h⟩ := bind_eq_ok.1 h
      rw [atEnd_bind] at h
      split at h
      · rename_i hend
        obtain ⟨rfl, -⟩ := pure_eq_ok.1 h
        exact .last hread (Cursor.atEnd_eq_true_iff.1 hend)
      · obtain ⟨_, c₂, hmark, h⟩ := bind_eq_ok.1 h
        obtain ⟨as, c₃, hrest, hpure⟩ := bind_eq_ok.1 h
        obtain ⟨rfl, -⟩ := pure_eq_ok.1 hpure
        exact .more hread hmark (ih hrest)

theorem listed_of_entries {as : List α} (h : entries expected p c = .ok (as, c')) : Listed expected p c as :=
  listed_of_entriesUpTo h

end Parser

end SystemVerilog
