import SystemVerilog.Proofs.Reading.Steps

/-!
# Parsers and recorders at once

`Reader m` says what it means that a reader of the monad `m` gives a value. `Gives` speaks of some run and
is opened from the outside in; `Yields` speaks of every run, whatever notices were kept before, and is put
together from the inside out. `Stops` is for faults what `Yields` is for values. So what holds of parsers and
of recorders is proved once.
-/

namespace SystemVerilog

open SystemVerilog.Parser

/-- A monad of readers, and what its readers give. -/
class Reader (m : Type → Type) [Monad m] [MonadStateOf Cursor m] [MonadLiftT Parser m] where
  /-- The reader leads from the first cursor to the second with a value. -/
  Gives : {α : Type} → m α → Cursor → α → Cursor → Prop
  pure_inv {α : Type} {a b : α} {c c' : Cursor} : Gives (pure a) c b c' → b = a ∧ c' = c
  bind_inv {α β : Type} {p : m α} {f : α → m β} {b : β} {c c' : Cursor} :
    Gives (p >>= f) c b c' → ∃ a c₁, Gives p c a c₁ ∧ Gives (f a) c₁ b c'
  get_inv {a c c' : Cursor} : Gives (get : m Cursor) c a c' → a = c ∧ c' = c
  set_inv {part c c' : Cursor} {u : PUnit} : Gives (set part : m PUnit) c u c' → c' = part
  lift_inv {α : Type} {p : Parser α} {a : α} {c c' : Cursor} :
    Gives (monadLift p : m α) c a c' → p c = .ok (a, c')
  /-- The reader leads from the first cursor to the second with a value, whatever was noticed before. -/
  Yields : {α : Type} → m α → Cursor → α → Cursor → Prop
  gives {α : Type} {p : m α} {a : α} {c c' : Cursor} : Yields p c a c' → Gives p c a c'
  pure {α : Type} (a : α) (c : Cursor) : Yields (pure a) c a c
  bind {α β : Type} {p : m α} {f : α → m β} {a : α} {b : β} {c c₁ c' : Cursor} :
    Yields p c a c₁ → Yields (f a) c₁ b c' → Yields (p >>= f) c b c'
  get (c : Cursor) : Yields (get : m Cursor) c c c
  set (part c : Cursor) : Yields (set part : m PUnit) c ⟨⟩ part
  lift {α : Type} {p : Parser α} {a : α} {c c' : Cursor} :
    p c = .ok (a, c') → Yields (monadLift p : m α) c a c'
  /-- The reader fails at the cursor, whatever was noticed before. -/
  Stops : {α : Type} → m α → Cursor → Fault → Prop
  stops_first {α β : Type} {p : m α} {f : α → m β} {c : Cursor} {fault : Fault} :
    Stops p c fault → Stops (p >>= f) c fault
  stops_then {α β : Type} {p : m α} {f : α → m β} {a : α} {c c₁ : Cursor} {fault : Fault} :
    Yields p c a c₁ → Stops (f a) c₁ fault → Stops (p >>= f) c fault
  stops_lift {α : Type} {p : Parser α} {c : Cursor} {fault : Fault} :
    p c = .error fault → Stops (monadLift p : m α) c fault
  gives_unique {α : Type} {p : m α} {a b : α} {c c' c'' : Cursor} :
    Yields p c a c' → Gives p c b c'' → b = a ∧ c'' = c'
  not_gives {α : Type} {p : m α} {a : α} {c c' : Cursor} {fault : Fault} : Stops p c fault → ¬Gives p c a c'

instance : Reader Parser where
  Gives p c a c' := p c = .ok (a, c')
  pure_inv h := by
    cases h
    exact ⟨rfl, rfl⟩
  bind_inv h := bind_eq_ok.1 h
  get_inv h := by
    cases h
    exact ⟨rfl, rfl⟩
  set_inv h := by
    cases h
    rfl
  lift_inv h := h
  Yields p c a c' := p c = .ok (a, c')
  gives h := h
  pure _ _ := rfl
  bind hp hf := bind_eq_ok.2 ⟨_, _, hp, hf⟩
  get _ := rfl
  set _ _ := rfl
  lift h := h
  Stops p c fault := p c = .error fault
  stops_first {α β p f c fault} h := by
    show (p c).bind (fun r => f r.1 r.2) = _
    rw [h]
    rfl
  stops_then hp hf := (bind_of_ok hp).trans hf
  stops_lift h := h
  gives_unique h h' := Prod.mk.inj (Except.ok.inj (h'.symm.trans h))
  not_gives h h' := by
    cases h.symm.trans h'

/-- A recorder that is read behind another one goes on from the notices of that one. -/
theorem Recorder.run_bind {α β : Type} (p : Recorder α) (f : α → Recorder β) (c : Cursor)
    (ns : List Notice) : ((p >>= f) c).run ns = match (p c).run ns with
      | (.ok (a, c₁), ns₁) => (f a c₁).run ns₁
      | (.error fault, ns₁) => (.error fault, ns₁) := by
  have hbind : ((p >>= f) c).run ns =
      ((p c).run >>= ExceptT.bindCont fun (a, c₁) => f a c₁ : StateM (List Notice) _).run ns := rfl
  rw [hbind, StateT.run_bind]
  cases hp : (p c).run ns with
  | mk r ns₁ =>
    have hrun : ((p c).run : StateM (List Notice) _).run ns = pure (r, ns₁) := hp
    rw [hrun, pure_bind]
    cases r <;> rfl

instance : Reader Recorder where
  Gives p c a c' := ∃ ns ns', (p c).run ns = (.ok (a, c'), ns')
  pure_inv h := by
    obtain ⟨ns, ns', h⟩ := h
    cases h
    exact ⟨rfl, rfl⟩
  bind_inv h := by
    obtain ⟨ns, ns', h⟩ := h
    rw [Recorder.run_bind] at h
    split at h
    · rename_i a c₁ ns₁ hp
      exact ⟨a, c₁, ⟨ns, ns₁, hp⟩, ⟨ns₁, ns', h⟩⟩
    · cases h
  get_inv h := by
    obtain ⟨ns, ns', h⟩ := h
    cases h
    exact ⟨rfl, rfl⟩
  set_inv h := by
    obtain ⟨ns, ns', h⟩ := h
    cases h
    rfl
  lift_inv h := by
    obtain ⟨ns, ns', h⟩ := h
    exact (Prod.mk.inj h).1
  Yields p c a c' := ∀ ns, ∃ ns', (p c).run ns = (.ok (a, c'), ns')
  gives h := by
    obtain ⟨ns', h⟩ := h []
    exact ⟨[], ns', h⟩
  pure _ _ ns := ⟨ns, rfl⟩
  bind hp hf ns := by
    obtain ⟨ns₁, hp⟩ := hp ns
    obtain ⟨ns', hf⟩ := hf ns₁
    exact ⟨ns', by rw [Recorder.run_bind, hp]; exact hf⟩
  get _ ns := ⟨ns, rfl⟩
  set _ _ ns := ⟨ns, rfl⟩
  lift {α p a c c'} h ns := by
    refine ⟨ns, ?_⟩
    show (p c, ns) = _
    rw [h]
  Stops p c fault := ∀ ns, ∃ ns', (p c).run ns = (.error fault, ns')
  stops_first h ns := by
    obtain ⟨ns', h⟩ := h ns
    exact ⟨ns', by rw [Recorder.run_bind, h]⟩
  stops_then hp hf ns := by
    obtain ⟨ns₁, hp⟩ := hp ns
    obtain ⟨ns', hf⟩ := hf ns₁
    exact ⟨ns', by rw [Recorder.run_bind, hp]; exact hf⟩
  stops_lift {α p c fault} h ns := by
    refine ⟨ns, ?_⟩
    show (p c, ns) = _
    rw [h]
  gives_unique h h' := by
    obtain ⟨ns, ns', h'⟩ := h'
    obtain ⟨ns'', h⟩ := h ns
    exact Prod.mk.inj (Except.ok.inj (Prod.mk.inj (h'.symm.trans h)).1)
  not_gives h h' := by
    obtain ⟨ns, ns', h'⟩ := h'
    obtain ⟨ns'', h⟩ := h ns
    cases (Prod.mk.inj (h.symm.trans h')).1

section Generic

variable {m : Type → Type} [Monad m] [MonadStateOf Cursor m] [MonadLiftT Parser m] [Reader m]
  {α : Type} {p : m α} {a : α} {c c₁ c' : Cursor}

/-! ### Sites and parts of the span -/

theorem tagged_inv {p : m (Site → α)}
    (h : Reader.Gives (tagged p) c a c') :
    ∃ node, Reader.Gives p c node c' ∧ a = node ⟨c.location, c'.rangeFrom c.position⟩ := by
  obtain ⟨first, c₁, hfirst, hrest⟩ := Reader.bind_inv h
  obtain ⟨rfl, rfl⟩ := Reader.get_inv hfirst
  obtain ⟨node, c₂, hnode, hrest'⟩ := Reader.bind_inv hrest
  obtain ⟨last, c₃, hlast, hpure⟩ := Reader.bind_inv hrest'
  obtain ⟨rfl, rfl⟩ := Reader.get_inv hlast
  obtain ⟨rfl, rfl⟩ := Reader.pure_inv hpure
  exact ⟨node, hnode, rfl⟩

theorem yields_tagged {p : m (Site → α)} {node : Site → α} (h : Reader.Yields p c node c')
    (ha : a = node ⟨c.location, c'.rangeFrom c.position⟩) : Reader.Yields (tagged p) c a c' := by
  rw [ha]
  exact Reader.bind (Reader.get c) <| Reader.bind h <| Reader.bind (Reader.get c') (Reader.pure _ c')

theorem within_inv {part : Cursor} (h : Reader.Gives (within part p) c a c') :
    (∃ c₁, Reader.Gives p part a c₁) ∧ c' = c := by
  obtain ⟨outer, c₁, hget, h₁⟩ := Reader.bind_inv h
  obtain ⟨rfl, rfl⟩ := Reader.get_inv hget
  obtain ⟨u, c₂, hset, h₂⟩ := Reader.bind_inv h₁
  obtain rfl := Reader.set_inv hset
  obtain ⟨b, c₃, hp, h₃⟩ := Reader.bind_inv h₂
  obtain ⟨u', c₄, hset', h₄⟩ := Reader.bind_inv h₃
  obtain rfl := Reader.set_inv hset'
  obtain ⟨rfl, rfl⟩ := Reader.pure_inv h₄
  exact ⟨⟨c₃, hp⟩, rfl⟩

theorem yields_within {part : Cursor} (h : Reader.Yields p part a c₁) :
    Reader.Yields (within part p) c a c :=
  Reader.bind (Reader.get c) <| Reader.bind (Reader.set part c) <| Reader.bind h <|
    Reader.bind (Reader.set c c₁) (Reader.pure a c)

theorem stops_tagged {p : m (Site → α)} {fault : Fault} (h : Reader.Stops p c fault) :
    Reader.Stops (tagged p) c fault :=
  Reader.stops_then (Reader.get c) (Reader.stops_first h)

theorem stops_within {part : Cursor} {fault : Fault} (h : Reader.Stops p part fault) :
    Reader.Stops (within part p) c fault :=
  Reader.stops_then (Reader.get c) <| Reader.stops_then (Reader.set part c) <| Reader.stops_first h

theorem closerDistance_inv {opening closing : TokenKind} {n : Nat}
    (h : closerDistance opening closing c = .ok (n, c')) :
    c' = c ∧ c.after ≠ [] ∧ distanceToCloser? opening closing 0 c.after = some n := by
  unfold closerDistance at h
  split at h
  · cases h
  · rename_i t rest hafter
    have hne : c.after ≠ [] := List.ne_nil_iff_exists_cons.2 ⟨t, rest, hafter⟩
    split at h
    · split at h
      · rename_i n' hn
        cases h
        exact ⟨rfl, hne, hn⟩
      · cases h
    · cases h

/-- The next token opens the pair whose closer is found. -/
theorem opener_of_closerDistance {opening closing : TokenKind} {n : Nat}
    (h : closerDistance opening closing c = .ok (n, c')) :
    ∃ t ts, c.after = t :: ts ∧ t.kind.inFamily opening = true := by
  unfold closerDistance at h
  split at h
  · cases h
  · rename_i t ts hafter
    split at h
    · exact ⟨t, ts, hafter, ‹_›⟩
    · cases h

theorem closerDistance_of_found {opening closing : TokenKind} {n : Nat} {t : Token} {ts : List Token}
    (hafter : c.after = t :: ts) (hopener : t.kind.inFamily opening = true)
    (hn : distanceToCloser? opening closing 0 c.after = some n) : closerDistance opening closing c = .ok (n, c) := by
  rw [hafter] at hn
  simp [closerDistance, hafter, hopener, hn]

/-- Where the closer is found, a pair is read by reading its interior. -/
theorem enclosed_eq_ok_of_found {opening closing : TokenKind} {n : Nat} {t : Token} {ts : List Token} {q : Parser α}
    (hafter : c.after = t :: ts) (hopener : t.kind.inFamily opening = true)
    (hn : distanceToCloser? opening closing 0 c.after = some (n + 1)) :
    (enclosed opening closing q : Parser α) c = .ok (a, c') ↔
      (∃ c₁, q ((c.skip 1).ahead n) = .ok (a, c₁)) ∧ c' = c.skip (n + 2) := by
  have hpart : interior opening closing c = .ok ((c.skip 1).ahead n, c.skip (n + 2)) := by
    rw [Parser.interior, bind_of_ok (closerDistance_of_found hafter hopener hn)]
    rfl
  show (interior opening closing >>= fun part => within part q) c = _ ↔ _
  rw [bind_of_ok hpart, within_eq_ok]

theorem enclosed_inv {opening closing : TokenKind} (h : Reader.Gives (enclosed opening closing p) c a c') :
    c.after ≠ [] ∧ ∃ n c₁, Reader.Gives p ((c.skip 1).ahead (n - 1)) a c₁ ∧ c' = c.skip (n + 1) := by
  obtain ⟨part, c₁, hpart, hwithin⟩ := Reader.bind_inv h
  obtain ⟨n, c₂, hdistance, hspan⟩ := bind_eq_ok.1 (Reader.lift_inv hpart)
  obtain ⟨rfl, hne, -⟩ := closerDistance_inv hdistance
  obtain ⟨rfl, rfl⟩ := Prod.mk.inj (Except.ok.inj hspan)
  obtain ⟨⟨c₃, hread⟩, rfl⟩ := within_inv hwithin
  exact ⟨hne, n, c₃, hread, rfl⟩

theorem spanBefore_inv {find : List Token → Option Nat} {expected : String} {part : Cursor}
    (h : spanBefore find expected c = .ok (part, c')) :
    ∃ n, find c.after = some n ∧ part = c.ahead n ∧ c' = c.skip (n + 1) := by
  unfold spanBefore at h
  split at h
  · rename_i n hn
    cases h
    exact ⟨n, hn, rfl, rfl⟩
  · cases h

/-! ### Elements up to the end -/

/-- Steps one behind the other up to the end of the span. -/
inductive Chain (step : Cursor → α → Cursor → Prop) : Cursor → List α → Cursor → Prop
  | done {c : Cursor} : c.after = [] → Chain step c [] c
  | next {c c₁ c' : Cursor} {a : α} {as : List α} : c.after ≠ [] → step c a c₁ → Chain step c₁ as c' →
    Chain step c (a :: as) c'

variable {as : List α}

theorem Chain.after_eq_nil {step : Cursor → α → Cursor → Prop} (h : Chain step c as c') : c'.after = [] := by
  induction h with
  | done hend => exact hend
  | next _ _ _ ih => exact ih

theorem chain_of_untilEndUpTo {n : Nat} (h : Reader.Gives (untilEndUpTo p n) c as c') :
    Chain (Reader.Gives p) c as c' := by
  induction n generalizing c as with
  | zero =>
    obtain ⟨ended, c₁, hended, hrest⟩ := Reader.bind_inv h
    obtain ⟨rfl, rfl⟩ := Prod.mk.inj (Except.ok.inj (Reader.lift_inv hended))
    split at hrest
    · rename_i hend
      obtain ⟨rfl, rfl⟩ := Reader.pure_inv hrest
      exact .done (Cursor.atEnd_eq_true_iff.1 hend)
    · exact absurd (Reader.lift_inv hrest) bottomless_ne_ok
  | succ n ih =>
    obtain ⟨ended, c₁, hended, hrest⟩ := Reader.bind_inv h
    obtain ⟨rfl, rfl⟩ := Prod.mk.inj (Except.ok.inj (Reader.lift_inv hended))
    split at hrest
    · rename_i hend
      obtain ⟨rfl, rfl⟩ := Reader.pure_inv hrest
      exact .done (Cursor.atEnd_eq_true_iff.1 hend)
    · rename_i hmoreAhead
      obtain ⟨a, c₂, ha, hmore⟩ := Reader.bind_inv hrest
      obtain ⟨bs, c₃, hbs, hpure⟩ := Reader.bind_inv hmore
      obtain ⟨rfl, rfl⟩ := Reader.pure_inv hpure
      exact .next (fun hend => hmoreAhead (Cursor.atEnd_eq_true_iff.2 hend)) ha (ih hbs)

theorem chain_of_untilEnd (h : Reader.Gives (untilEnd p) c as c') : Chain (Reader.Gives p) c as c' := by
  obtain ⟨c₀, c₁, hget, hrest⟩ := Reader.bind_inv h
  obtain ⟨rfl, rfl⟩ := Reader.get_inv hget
  exact chain_of_untilEndUpTo hrest

theorem length_le_of_untilEndUpTo {n : Nat} (h : Reader.Gives (untilEndUpTo p n) c as c') : as.length ≤ n := by
  induction n generalizing c c' as with
  | zero =>
    obtain ⟨ended, c₁, -, hrest⟩ := Reader.bind_inv h
    split at hrest
    · obtain ⟨rfl, -⟩ := Reader.pure_inv hrest
      exact Nat.le_refl 0
    · exact absurd (Reader.lift_inv hrest) bottomless_ne_ok
  | succ n ih =>
    obtain ⟨ended, c₁, -, hrest⟩ := Reader.bind_inv h
    split at hrest
    · obtain ⟨rfl, -⟩ := Reader.pure_inv hrest
      exact Nat.zero_le _
    · obtain ⟨a, c₂, -, hmore⟩ := Reader.bind_inv hrest
      obtain ⟨bs, c₃, hbs, hpure⟩ := Reader.bind_inv hmore
      obtain ⟨rfl, -⟩ := Reader.pure_inv hpure
      exact Nat.succ_le_succ (ih hbs)

/-- There are no more elements than tokens. -/
theorem length_le_of_untilEnd (h : Reader.Gives (untilEnd p) c as c') : as.length ≤ c.after.length := by
  obtain ⟨c₀, c₁, hget, hrest⟩ := Reader.bind_inv h
  obtain ⟨rfl, rfl⟩ := Reader.get_inv hget
  exact length_le_of_untilEndUpTo hrest

theorem yields_untilEndUpTo {n : Nat} (h : Chain (Reader.Yields p) c as c') (hn : as.length ≤ n) :
    Reader.Yields (untilEndUpTo p n) c as c' := by
  induction h generalizing n with
  | @done c hend =>
    have hended : Parser.atEnd c = .ok (true, c) := by
      rw [← Cursor.atEnd_eq_true_iff.2 hend]
      rfl
    cases n <;> exact Reader.bind (Reader.lift hended) (Reader.pure [] c)
  | @next c c₁ c' a as hne ha _ ih =>
    obtain ⟨k, rfl⟩ : ∃ k, n = k + 1 := ⟨n - 1, by rw [List.length_cons] at hn; omega⟩
    have hended : Parser.atEnd c = .ok (false, c) := by
      have hatEnd : c.atEnd = false := by simpa [Cursor.atEnd] using hne
      rw [← hatEnd]
      rfl
    exact Reader.bind (Reader.lift hended) <| Reader.bind ha <|
      Reader.bind (ih (Nat.le_of_succ_le_succ hn)) (Reader.pure _ _)

/-- Steps that each read something are few enough. -/
theorem yields_untilEnd (h : Chain (Reader.Yields p) c as c') (hn : as.length ≤ c.after.length) :
    Reader.Yields (untilEnd p) c as c' :=
  Reader.bind (Reader.get c) (yields_untilEndUpTo h hn)

end Generic

end SystemVerilog
