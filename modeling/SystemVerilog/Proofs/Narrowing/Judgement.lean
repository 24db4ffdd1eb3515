import SystemVerilog.Proofs.Reading.Brackets
import SystemVerilog.Proofs.Reading.Readers

/-!
# Readers and the end of their span

A cut of a cursor has only the next tokens left. `NarrowsAt bound least c p q` says that `p` reads at least
`least` tokens from `c`, and that `q` reads the same from every cut of `c` that keeps what `p` has read and is no
longer than `bound`. So nothing that `p` looked at behind its own tokens has made a difference. The readers are
two because a budget that suffices for a cut may be smaller than the one that was used.
-/

namespace SystemVerilog

open SystemVerilog.Parser

/-! ### Cuts of a cursor -/

namespace Cursor

/-- The cursor with only the next tokens left of its span. -/
def cut (c : Cursor) (n : Nat) : Cursor := { c with after := c.after.take n }

variable {c : Cursor} {k n : Nat}

@[simp] theorem cut_after (c : Cursor) (n : Nat) : (c.cut n).after = c.after.take n := rfl

@[simp] theorem cut_position (c : Cursor) (n : Nat) : (c.cut n).position = c.position := rfl

theorem cut_of_length_le (h : c.after.length ≤ n) : c.cut n = c := by
  rw [cut, List.take_of_length_le h]

theorem cut_length (h : n ≤ c.after.length) : (c.cut n).after.length = n := by
  rw [cut_after, List.length_take, Nat.min_eq_left h]

/-- Reading on in a cut leads to a cut. -/
theorem cut_skip (h : k ≤ n) : (c.cut n).skip k = (c.skip k).cut (n - k) := by
  have hread : (c.after.take n).take k = c.after.take k := by rw [List.take_take, Nat.min_eq_left h]
  rw [skip_eq, skip_eq, cut, cut, hread, List.drop_take]

/-- A part that a cut keeps is the same part. -/
theorem cut_ahead (h : k ≤ n) : (c.cut n).ahead k = c.ahead k := by
  have hread : (c.after.take n).take k = c.after.take k := by rw [List.take_take, Nat.min_eq_left h]
  simp only [ahead, cut_after, hread]
  rfl

theorem cut_current? (h : 0 < n) : (c.cut n).current? = c.current? := by
  rw [current?, current?, cut_after, List.head?_take, if_neg (Nat.ne_of_gt h)]

theorem cut_currentKind? (h : 0 < n) : (c.cut n).currentKind? = c.currentKind? := by
  rw [currentKind?, currentKind?, cut_current? h]

/-- An empty cut has no next token. -/
theorem current?_cut_zero (c : Cursor) : (c.cut 0).current? = none := by
  rw [current?, cut_after, List.take_zero]
  rfl

theorem currentKind?_cut_zero (c : Cursor) : (c.cut 0).currentKind? = none := by
  rw [currentKind?, current?_cut_zero]
  rfl

theorem cut_check (h : 0 < n) (kind : TokenKind) : (c.cut n).check kind = c.check kind := by
  rw [check, check, cut_currentKind? h]

theorem cut_peekKind? (h : k < n) : (c.cut n).peekKind? k = c.peekKind? k := by
  rw [peekKind?, peekKind?, peek?, peek?, cut_after, List.getElem?_take, if_pos h]

theorem cut_location (h : 0 < n) : (c.cut n).location = c.location := by
  obtain ⟨n, rfl⟩ := Nat.exists_eq_succ_of_ne_zero (Nat.ne_of_gt h)
  cases hafter : c.after with
  | nil =>
    have hend : (c.cut (n + 1)).after = [] := by rw [cut_after, hafter, List.take_nil]
    rw [location, location, hafter, hend]
    rfl
  | cons t ts =>
    have hnext : (c.cut (n + 1)).after = t :: ts.take n := by rw [cut_after, hafter, List.take_succ_cons]
    rw [location, location, hafter, hnext]

theorem cut_skip_position (h : k ≤ n) : ((c.cut n).skip k).position = (c.skip k).position := by
  rw [cut_skip h, cut_position]

/-- All of a cut has been read behind as many tokens as it has. -/
theorem cut_skip_after (n : Nat) (c : Cursor) : ((c.cut n).skip n).after = [] := by
  rw [skip_after, cut_after, List.drop_take, Nat.sub_self, List.take_zero]

end Cursor

/-- A closer that is found is found in front of fewer tokens too, if they hold it. -/
theorem distanceToCloser?_take {opening closing : TokenKind} {ts : List Token} {depth k n : Nat}
    (h : distanceToCloser? opening closing depth ts = some k) (hn : k < n) :
    distanceToCloser? opening closing depth (ts.take n) = some k := by
  induction ts generalizing depth k n with
  | nil => cases h
  | cons t ts ih =>
    obtain ⟨n, rfl⟩ := Nat.exists_eq_succ_of_ne_zero (Nat.ne_zero_of_lt hn)
    have step {d : Nat} (h : (distanceToCloser? opening closing d ts).map (· + 1) = some k) :
        (distanceToCloser? opening closing d (ts.take n)).map (· + 1) = some k := by
      obtain ⟨j, hj, rfl⟩ := Option.map_eq_some_iff.1 h
      rw [ih hj (Nat.lt_of_succ_lt_succ hn), Option.map_some]
    rw [distanceToCloser?] at h
    rw [List.take_succ_cons, distanceToCloser?]
    split at h
    · rw [if_pos ‹_›]
      exact step h
    · rw [if_neg ‹_›]
      split at h
      · rw [if_pos ‹_›]
        split at h
        · rw [if_pos ‹_›]
          exact h
        · rw [if_neg ‹_›]
          exact step h
      · rw [if_neg ‹_›]
        exact step h

/-! ### The judgement -/

section Generic

variable {m : Type → Type} [Monad m] [MonadStateOf Cursor m] [MonadLiftT Parser m] [Reader m]
  {α β : Type} {bound least : Nat} {c : Cursor}

/-- What `p` reads from the cursor are at least so many tokens, and `q` reads the same from every cut within the
bound that keeps them. -/
def NarrowsAt (bound least : Nat) (c : Cursor) (p q : m α) : Prop :=
  ∀ ⦃a c'⦄, Reader.Gives p c a c' → ∃ k, least ≤ k ∧ k ≤ c.after.length ∧ c' = c.skip k ∧
    ∀ n, k ≤ n → n ≤ bound → n ≤ c.after.length → Reader.Yields q (c.cut n) a ((c.cut n).skip k)

namespace NarrowsAt

variable {p q : m α} {f g : α → m β}

theorem mono {bound' least' : Nat} (h : NarrowsAt bound least c p q) (hbound : bound' ≤ bound)
    (hleast : least' ≤ least) : NarrowsAt bound' least' c p q := by
  intro a c' hread
  obtain ⟨k, hk, hlen, hc', hq⟩ := h hread
  exact ⟨k, Nat.le_trans hleast hk, hlen, hc', fun n hn hb => hq n hn (Nat.le_trans hb hbound)⟩

theorem uncounted (h : NarrowsAt bound least c p q) : NarrowsAt bound 0 c p q :=
  h.mono (Nat.le_refl _) (Nat.zero_le least)

/-- Where no cut is long enough for what must be read, any reader will do. -/
theorem starved {q' : m α} (h : NarrowsAt bound least c p q) (hlt : bound < least) :
    NarrowsAt bound least c p q' := by
  intro a c' hread
  obtain ⟨k, hk, hlen, hc', -⟩ := h hread
  exact ⟨k, hk, hlen, hc', fun n hn hb => absurd hk (by omega)⟩

/-- What was read up to some token is read alike from a cut that keeps that token. -/
theorem at_cut {a : α} {k n : Nat} (h : NarrowsAt n least c p q) (hread : Reader.Gives p c a (c.skip k))
    (hk : k ≤ n) (hn : n ≤ c.after.length) : Reader.Yields q (c.cut n) a ((c.cut n).skip k) := by
  obtain ⟨k', -, hlen, hskip, hq⟩ := h hread
  obtain rfl : k = k' := by
    have hleft := congrArg (fun c => c.after.length) hskip
    simp only [Cursor.skip_after, List.length_drop] at hleft
    omega
  exact hq n hk (Nat.le_refl n) hn

theorem pure (a : α) : NarrowsAt bound 0 c (Pure.pure a : m α) (Pure.pure a) := by
  intro b c' hread
  obtain ⟨rfl, rfl⟩ := Reader.pure_inv hread
  exact ⟨0, Nat.le_refl 0, Nat.zero_le _, rfl, fun n _ _ _ => Reader.pure _ _⟩

/-- What is read first is taken off the bound. -/
theorem bind {least' : Nat} (hp : NarrowsAt bound least c p q)
    (hf : ∀ a c₁, NarrowsAt (bound - least) least' c₁ (f a) (g a)) :
    NarrowsAt bound (least + least') c (p >>= f) (q >>= g) := by
  intro b c' hread
  obtain ⟨a, c₁, ha, hrest⟩ := Reader.bind_inv hread
  obtain ⟨k, hk, hlen, rfl, hq⟩ := hp ha
  obtain ⟨j, hj, hlen', rfl, hg⟩ := hf a _ hrest
  rw [Cursor.skip_after, List.length_drop] at hlen' hg
  refine ⟨k + j, Nat.add_le_add hk hj, by omega, Cursor.skip_skip k j c, fun n hn hb hle => ?_⟩
  have hrest' := hg (n - k) (by omega) (by omega) (by omega)
  rw [← Cursor.cut_skip (by omega), Cursor.skip_skip] at hrest'
  exact Reader.bind (hq n (by omega) hb hle) hrest'

/-- What may read nothing comes first. -/
theorem step (hp : NarrowsAt bound 0 c p q) (hf : ∀ a c₁, NarrowsAt bound least c₁ (f a) (g a)) :
    NarrowsAt bound least c (p >>= f) (q >>= g) := by
  have h := hp.bind hf
  rwa [Nat.zero_add] at h

/-- A token is read first. -/
theorem lead (hp : NarrowsAt bound 1 c p q) (hf : ∀ a c₁, NarrowsAt (bound - 1) least c₁ (f a) (g a)) :
    NarrowsAt bound (least + 1) c (p >>= f) (q >>= g) := by
  have h := hp.bind hf
  rwa [Nat.add_comm] at h

theorem lift {p q : Parser α} (h : NarrowsAt bound least c p q) :
    NarrowsAt bound least c (monadLift p : m α) (monadLift q) := by
  intro a c' hread
  obtain ⟨k, hk, hlen, rfl, hq⟩ := h (Reader.lift_inv hread)
  exact ⟨k, hk, hlen, rfl, fun n hn hb hle => Reader.lift (hq n hn hb hle)⟩

/-- Readers that take a number which the tokens left give. -/
theorem get_length {p q : Nat → m α} (h : ∀ n, n ≤ bound → NarrowsAt n least c (p c.after.length) (q n)) :
    NarrowsAt bound least c (MonadState.get >>= fun c : Cursor => p c.after.length)
      (MonadState.get >>= fun c : Cursor => q c.after.length) := by
  intro a c' hread
  obtain ⟨_, _, hget, hrest⟩ := Reader.bind_inv hread
  obtain ⟨rfl, rfl⟩ := Reader.get_inv hget
  obtain ⟨k, hk, hlen, rfl, -⟩ := h bound (Nat.le_refl _) hrest
  refine ⟨k, hk, hlen, rfl, fun n hn hb hle => Reader.bind (Reader.get _) ?_⟩
  rw [Cursor.cut_length hle]
  exact (h n hb).at_cut hrest hn hle

/-- The site of what is read does not depend on what stands behind it. -/
theorem tagged {p q : m (Site → α)} (h : NarrowsAt bound (least + 1) c p q) :
    NarrowsAt bound (least + 1) c (SystemVerilog.tagged p) (SystemVerilog.tagged q) := by
  intro a c' hread
  obtain ⟨node, hnode, rfl⟩ := tagged_inv hread
  obtain ⟨k, hk, hlen, rfl, hq⟩ := h hnode
  refine ⟨k, hk, hlen, rfl, fun n hn hb hle => yields_tagged (hq n hn hb hle) ?_⟩
  have hpos : 0 < n := by omega
  rw [Cursor.cut_location hpos, Cursor.rangeFrom, Cursor.rangeFrom, Cursor.cut_skip_position hn, Cursor.cut_position]

/-- A pair that is read is kept by the cut, and with it its whole interior: `q` need not read anything from less. -/
theorem enclosed_of {opening closing : TokenKind}
    (h : ∀ ⦃c₁ a c₂⦄, c₁.after.length ≤ bound - 1 → Reader.Gives p c₁ a c₂ → Reader.Yields q c₁ a c₂) :
    NarrowsAt bound 1 c (SystemVerilog.enclosed opening closing p) (SystemVerilog.enclosed opening closing q) := by
  intro a c' hread
  obtain ⟨part, c₁, hpart, hrest⟩ := Reader.bind_inv hread
  obtain ⟨d, c₂, hdistance, hspan⟩ := bind_eq_ok.1 (Reader.lift_inv hpart)
  obtain ⟨t, ts, hafter, ho⟩ := opener_of_closerDistance hdistance
  obtain ⟨hsame, -, hd⟩ := closerDistance_inv hdistance
  rw [hsame] at hspan
  obtain ⟨rfl, rfl⟩ := Prod.mk.inj (Except.ok.inj hspan)
  obtain ⟨us, cl, vs, hfound, hus, -⟩ := closer_of_distance hd
  have hlen : d + 1 ≤ c.after.length := by
    rw [hfound, List.length_append, List.length_cons]
    omega
  obtain ⟨⟨c₃, hinner⟩, rfl⟩ := within_inv hrest
  refine ⟨d + 1, Nat.le_add_left 1 d, hlen, rfl, fun n hn hb hle => ?_⟩
  obtain ⟨n, rfl⟩ : ∃ l, n = l + 1 := ⟨n - 1, by omega⟩
  have hkept : (c.cut (n + 1)).after = t :: ts.take n := by rw [Cursor.cut_after, hafter, List.take_succ_cons]
  have hagain : closerDistance opening closing (c.cut (n + 1)) = .ok (d, c.cut (n + 1)) :=
    closerDistance_of_found hkept ho (distanceToCloser?_take hd hn)
  have hinterior : Parser.interior opening closing (c.cut (n + 1)) =
      .ok ((c.skip 1).ahead (d - 1), (c.cut (n + 1)).skip (d + 1)) := by
    rw [Parser.interior, bind_of_ok hagain, Cursor.cut_skip (by omega), Cursor.cut_ahead (by omega)]
  have hshort : ((c.skip 1).ahead (d - 1)).after.length ≤ bound - 1 := by
    rw [Cursor.ahead_after, List.length_take]
    omega
  exact Reader.bind (Reader.lift hinterior) (yields_within (h hshort hinner))

end NarrowsAt

/-! ### The same span -/

/-- What `p` reads from the span, `q` reads from it too if the span is within the bound. -/
def KeepsAt (bound : Nat) (c : Cursor) (p q : m α) : Prop :=
  ∀ ⦃a c'⦄, Reader.Gives p c a c' → ∃ k, c' = c.skip k ∧ (c.after.length ≤ bound → Reader.Yields q c a c')

section Same

variable {p q : m α} {f g : α → m β}

/-- The span is its own longest cut. -/
theorem NarrowsAt.keeps (h : NarrowsAt bound least c p q) : KeepsAt bound c p q := by
  intro a c' hread
  obtain ⟨k, -, hlen, rfl, hq⟩ := h hread
  refine ⟨k, rfl, fun hbound => ?_⟩
  have hwhole := hq c.after.length hlen hbound (Nat.le_refl _)
  rwa [Cursor.cut_of_length_le (Nat.le_refl _)] at hwhole

theorem NarrowsAt.enclosed_of_keeps {opening closing : TokenKind} (h : ∀ c₁, KeepsAt (bound - 1) c₁ p q) :
    NarrowsAt bound 1 c (SystemVerilog.enclosed opening closing p) (SystemVerilog.enclosed opening closing q) :=
  .enclosed_of fun c₁ _ _ hshort hread => (h c₁ hread).choose_spec.2 hshort

theorem NarrowsAt.enclosed {opening closing : TokenKind} (h : ∀ c₁, NarrowsAt (bound - 1) 0 c₁ p q) :
    NarrowsAt bound 1 c (SystemVerilog.enclosed opening closing p) (SystemVerilog.enclosed opening closing q) :=
  .enclosed_of_keeps fun c₁ => (h c₁).keeps

namespace KeepsAt

theorem pure (a : α) : KeepsAt bound c (Pure.pure a : m α) (Pure.pure a) := (NarrowsAt.pure a).keeps

theorem bind (hp : KeepsAt bound c p q) (hf : ∀ a c₁, KeepsAt bound c₁ (f a) (g a)) :
    KeepsAt bound c (p >>= f) (q >>= g) := by
  intro b c' hread
  obtain ⟨a, c₁, ha, hrest⟩ := Reader.bind_inv hread
  obtain ⟨k, rfl, hq⟩ := hp ha
  obtain ⟨j, rfl, hg⟩ := hf a _ hrest
  refine ⟨k + j, Cursor.skip_skip k j c, fun hbound => Reader.bind (hq hbound) (hg ?_)⟩
  rw [Cursor.skip_after, List.length_drop]
  omega

theorem lift {p q : Parser α} (h : KeepsAt bound c p q) : KeepsAt bound c (monadLift p : m α) (monadLift q) := by
  intro a c' hread
  obtain ⟨k, hk, hq⟩ := h (Reader.lift_inv hread)
  exact ⟨k, hk, fun hbound => Reader.lift (hq hbound)⟩

theorem get {f g : Cursor → m β} (h : KeepsAt bound c (f c) (g c)) :
    KeepsAt bound c (MonadState.get >>= f) (MonadState.get >>= g) := by
  intro b c' hread
  obtain ⟨_, _, hget, hrest⟩ := Reader.bind_inv hread
  obtain ⟨rfl, rfl⟩ := Reader.get_inv hget
  obtain ⟨k, hk, hg⟩ := h hrest
  exact ⟨k, hk, fun hbound => Reader.bind (Reader.get _) (hg hbound)⟩

theorem tagged {p q : m (Site → α)} (h : KeepsAt bound c p q) :
    KeepsAt bound c (SystemVerilog.tagged p) (SystemVerilog.tagged q) := by
  intro a c' hread
  obtain ⟨node, hnode, rfl⟩ := tagged_inv hread
  obtain ⟨k, hk, hq⟩ := h hnode
  exact ⟨k, hk, fun hbound => yields_tagged (hq hbound) rfl⟩

end KeepsAt

end Same

end Generic

/-! ### Primitives -/

namespace NarrowsAt

variable {α β : Type} {bound least : Nat} {c : Cursor} {p q : Parser α}

theorem of_error (h : ∀ a c', p c ≠ .ok (a, c')) : NarrowsAt bound least c p q :=
  fun a c' hread => absurd hread (h a c')

/-- A parser of one token, which looks at nothing behind it. -/
theorem of_first (hp : ∀ {a c'}, p c = .ok (a, c') → ∃ t rest, c.after = t :: rest ∧ c' = c.skip 1 ∧
      ∀ rest', q { c with after := t :: rest' } = .ok (a, Cursor.skip 1 { c with after := t :: rest' })) :
    NarrowsAt bound 1 c p q := by
  intro a c' hread
  obtain ⟨t, rest, hafter, rfl, hq⟩ := hp hread
  refine ⟨1, Nat.le_refl 1, by rw [hafter, List.length_cons]; omega, rfl, fun n hn _ _ => ?_⟩
  obtain ⟨n, rfl⟩ := Nat.exists_eq_succ_of_ne_zero (Nat.ne_zero_of_lt hn)
  have hcut : c.cut (n + 1) = { c with after := t :: rest.take n } := by
    rw [Cursor.cut, hafter, List.take_succ_cons]
  rw [hcut]
  exact hq (rest.take n)

theorem demandWith (test : TokenKind → Bool) (expected : String) :
    NarrowsAt bound 1 c (Parser.demandWith test expected) (Parser.demandWith test expected) :=
  of_first fun hread => by
    obtain ⟨rest, hafter, htest, hc'⟩ := demandWith_eq_ok.1 hread
    exact ⟨_, rest, hafter, hc', fun rest' => demandWith_eq_ok.2 ⟨rest', rfl, htest, rfl⟩⟩

theorem expectAs (kind : TokenKind) (expected : String) :
    NarrowsAt bound 1 c (Parser.expectAs kind expected) (Parser.expectAs kind expected) := demandWith _ _

theorem name : NarrowsAt bound 1 c Parser.name Parser.name := .lead (demandWith _ _) fun _ _ => .pure _

theorem comma (expected : String) : NarrowsAt bound 1 c (Parser.comma expected) (Parser.comma expected) :=
  .lead (expectAs _ _) fun _ _ => .pure _

/-- Where there is a token, the next one is read. -/
theorem advance? (h : c.after ≠ []) : NarrowsAt bound 1 c Parser.advance? Parser.advance? :=
  of_first fun hread => by
    cases hread
    cases hafter : c.after with
    | nil => exact absurd hafter h
    | cons t rest =>
      refine ⟨t, rest, rfl, rfl, fun rest' => ?_⟩
      rw [Cursor.current?, hafter]
      rfl

theorem expectEnd (expected : String) :
    NarrowsAt bound 0 c (Parser.expectEnd expected) (Parser.expectEnd expected) := by
  intro u c' hread
  obtain ⟨hend, rfl⟩ := expectEnd_eq_ok.1 hread
  refine ⟨0, Nat.le_refl 0, Nat.zero_le _, rfl, fun n _ _ _ => expectEnd_eq_ok.2 ⟨?_, rfl⟩⟩
  rw [Cursor.cut_after, hend, List.take_nil]

theorem since (first : Site) : NarrowsAt bound 0 c (Parser.since first) (Parser.since first) := by
  intro s c' hread
  cases hread
  exact ⟨0, Nat.le_refl 0, Nat.zero_le _, rfl, fun n _ _ _ => rfl⟩

theorem filling (expected : String) (h : NarrowsAt bound least c p q) :
    NarrowsAt bound least c (Parser.filling expected p) (Parser.filling expected q) := by
  intro a c' hread
  obtain ⟨hp, hend⟩ := filling_eq_ok.1 hread
  obtain ⟨k, hk, hlen, rfl, hq⟩ := h hp
  refine ⟨k, hk, hlen, rfl, fun n hn hb hle => filling_eq_ok.2 ⟨hq n hn hb hle, ?_⟩⟩
  rw [Cursor.cut_skip hn, Cursor.cut_after, hend, List.take_nil]

/-- A parser that reads its span to the end is asked for no shorter one. -/
theorem of_fills (h : ∀ ⦃a c'⦄, p c = .ok (a, c') → c'.after = [] ∧ ∃ k, c' = c.skip k) :
    NarrowsAt bound 0 c p p := by
  intro a c' hread
  have hread' : p c = .ok (a, c') := hread
  obtain ⟨hend, k, rfl⟩ := h hread'
  have hwhole : c.skip k = c.skip c.after.length := by
    rw [Cursor.skip_after, List.drop_eq_nil_iff] at hend
    simp only [Cursor.skip_eq, List.take_of_length_le hend, List.take_length, List.drop_length,
      List.drop_eq_nil_of_le hend]
  refine ⟨c.after.length, Nat.zero_le _, Nat.le_refl _, hwhole, fun n hn _ hle => ?_⟩
  show p (c.cut n) = _
  rw [Cursor.cut_of_length_le hn, ← hwhole]
  exact hread'

/-- The next token is read if it and the last one say so. -/
theorem of_option {p : Parser (Option α)} {f : Option Token → Option Token → Option α}
    (hp : ∀ c, p c = .ok (f c.last? c.current?, c.skip (f c.last? c.current?).isSome.toNat))
    (hf : ∀ last?, f last? none = none) : NarrowsAt bound 0 c p p := by
  intro a c' hread
  have hread' : p c = .ok (a, c') := hread
  rw [hp] at hread'
  obtain ⟨rfl, rfl⟩ := Prod.mk.inj (Except.ok.inj hread')
  refine ⟨_, Nat.zero_le _, ?_, rfl, fun n hn _ _ => ?_⟩
  · cases hafter : c.after with
    | nil =>
      have hnone : f c.last? c.current? = none := by
        rw [Cursor.current?, hafter]
        exact hf _
      rw [hnone]
      exact Nat.zero_le _
    | cons t ts =>
      rw [List.length_cons]
      exact Nat.le_trans (Bool.toNat_le _) (Nat.le_add_left 1 _)
  · have hagain : f (c.cut n).last? (c.cut n).current? = f c.last? c.current? := by
      rcases Nat.eq_zero_or_pos n with rfl | hpos
      · -- nothing was read, so the tokens did not say so
        have hnone : f c.last? c.current? = none := by
          cases hfound : f c.last? c.current? with
          | none => rfl
          | some a =>
            rw [hfound] at hn
            cases hn
        rw [hnone, Cursor.current?_cut_zero]
        exact hf _
      · rw [Cursor.cut_current? hpos]
        rfl
    show p (c.cut n) = _
    rw [hp, hagain]

theorem tryBy (meaning : TokenKind → Option α) :
    NarrowsAt bound 0 c (Parser.tryBy meaning) (Parser.tryBy meaning) := by
  refine of_option (f := fun _ next => (next.map fun t => t.kind).bind meaning) (fun c => ?_) fun _ => rfl
  unfold Parser.tryBy Cursor.currentKind?
  cases (c.current?.map fun t => t.kind).bind meaning <;> rfl

theorem eat? (kind : TokenKind) : NarrowsAt bound 0 c (Parser.eat? kind) (Parser.eat? kind) := by
  refine of_option (f := fun _ next => next.filter fun t => t.kind == kind) (fun c => ?_) fun _ => rfl
  unfold Parser.eat? Cursor.check Cursor.currentKind?
  cases hnext : c.current? with
  | none => rfl
  | some t =>
    by_cases hkind : t.kind = kind
    · simp [hkind, Option.filter]
    · simp [hkind, Option.filter]

theorem eat (kind : TokenKind) : NarrowsAt bound 0 c (Parser.eat kind) (Parser.eat kind) :=
  .step (eat? kind) fun _ _ => .pure _

/-! ### Looking at the next tokens

A cut that is not empty looks the same. If the cut is empty, nothing was read, and so a branch that reads a token
has not been taken. -/

/-- What is read behind a look at the cursor, if an empty cut leads to the same where nothing has to be read. -/
theorem look {m : Type → Type} [Monad m] [MonadStateOf Cursor m] [MonadLiftT Parser m] [Reader m] {σ : Type}
    {t : Parser σ} {test : Cursor → σ} {f g : σ → m β} (ht : ∀ c, t c = .ok (test c, c))
    (hcut : ∀ n, 0 < n → least ≤ n → test (c.cut n) = test c)
    (hempty : least = 0 → g (test (c.cut 0)) = g (test c)) (h : NarrowsAt bound least c (f (test c)) (g (test c))) :
    NarrowsAt bound least c (monadLift t >>= f) (monadLift t >>= g) := by
  intro b c' hread
  obtain ⟨s, c₁, hs, hrest⟩ := Reader.bind_inv hread
  obtain ⟨rfl, rfl⟩ := Prod.mk.inj (Except.ok.inj ((ht c).symm.trans (Reader.lift_inv hs)))
  obtain ⟨k, hk, hlen, rfl, hg⟩ := h hrest
  refine ⟨k, hk, hlen, rfl, fun n hn hb hle => Reader.bind (Reader.lift (ht _)) ?_⟩
  have hsame : g (test (c.cut n)) = g (test c) := by
    rcases Nat.eq_zero_or_pos n with rfl | hpos
    · exact hempty (by omega)
    · rw [hcut n hpos (Nat.le_trans hk hn)]
  rw [hsame]
  exact hg n hn hb hle

section Looking

variable {f g : Bool → Parser β}

theorem check {kind : TokenKind} (hfound : c.check kind = true → NarrowsAt bound 1 c (f true) (g true))
    (helse : NarrowsAt bound 0 c (f false) (g false)) :
    NarrowsAt bound 0 c (Parser.check kind >>= f) (Parser.check kind >>= g) := by
  have hcut {l : Nat} (n : Nat) (hn : 0 < n) (_ : l ≤ n) : (c.cut n).check kind = c.check kind :=
    Cursor.cut_check hn kind
  cases hcheck : c.check kind with
  | true =>
    have hread : NarrowsAt bound 1 c (Parser.check kind >>= f) (Parser.check kind >>= g) :=
      look (fun _ => rfl) hcut (absurd · Nat.one_ne_zero) (by rw [hcheck]; exact hfound hcheck)
    exact hread.uncounted
  | false =>
    have hempty : (c.cut 0).check kind = false := by
      rw [Cursor.check, Cursor.currentKind?_cut_zero]
      rfl
    refine look (fun _ => rfl) hcut (fun _ => by rw [hempty, hcheck]) ?_
    rw [hcheck]
    exact helse

theorem atEnd (hend : c.after = [] → NarrowsAt bound 0 c (f true) (g true))
    (hmore : c.after ≠ [] → NarrowsAt bound 1 c (f false) (g false)) :
    NarrowsAt bound 0 c (Parser.atEnd >>= f) (Parser.atEnd >>= g) := by
  by_cases hafter : c.after = []
  · have hatEnd (n : Nat) : (c.cut n).atEnd = true :=
      Cursor.atEnd_eq_true_iff.2 (by rw [Cursor.cut_after, hafter, List.take_nil])
    have hnow : c.atEnd = true := Cursor.atEnd_eq_true_iff.2 hafter
    refine look (fun _ => rfl) (fun n _ _ => by rw [hatEnd, hnow]) (fun _ => by rw [hatEnd, hnow]) ?_
    rw [hnow]
    exact hend hafter
  · have hnow : c.atEnd = false := by simpa [Cursor.atEnd] using hafter
    have hcut {l : Nat} (n : Nat) (hn : 0 < n) (_ : l ≤ n) : (c.cut n).atEnd = c.atEnd := by
      rw [hnow]
      simpa [Cursor.atEnd, hafter] using Nat.ne_of_gt hn
    have hread : NarrowsAt bound 1 c (Parser.atEnd >>= f) (Parser.atEnd >>= g) :=
      look (fun _ => rfl) hcut (absurd · Nat.one_ne_zero) (by rw [hnow]; exact hmore hafter)
    exact hread.uncounted

end Looking

theorem current? {f g : Option Token → Parser β} (hleast : least ≤ 1)
    (hsome : ∀ t rest, c.after = t :: rest → NarrowsAt bound 1 c (f (some t)) (g (some t)))
    (hnone : c.after = [] → NarrowsAt bound least c (f none) (g none)) :
    NarrowsAt bound least c (Parser.current? >>= f) (Parser.current? >>= g) := by
  have hcut {l : Nat} (n : Nat) (hn : 0 < n) (_ : l ≤ n) : (c.cut n).current? = c.current? := Cursor.cut_current? hn
  cases hafter : c.after with
  | nil =>
    have hnow : c.current? = none := by rw [Cursor.current?, hafter]; rfl
    refine look (fun _ => rfl) hcut (fun _ => by rw [Cursor.current?_cut_zero, hnow]) ?_
    rw [hnow]
    exact hnone hafter
  | cons t rest =>
    have hnow : c.current? = some t := by rw [Cursor.current?, hafter]; rfl
    have hread : NarrowsAt bound 1 c (Parser.current? >>= f) (Parser.current? >>= g) :=
      look (fun _ => rfl) hcut (absurd · Nat.one_ne_zero) (by rw [hnow]; exact hsome t rest hafter)
    exact hread.mono (Nat.le_refl _) hleast

/-- The kind of the next token, if it leads to a reader of a token or where the end of the span leads. -/
theorem currentKind? {f g : Option TokenKind → Parser β}
    (hsome : ∀ kind, c.currentKind? = some kind → NarrowsAt bound 1 c (f (some kind)) (g (some kind)) ∨
      f (some kind) = f none ∧ g (some kind) = g none)
    (hnone : NarrowsAt bound 0 c (f none) (g none)) :
    NarrowsAt bound 0 c (Parser.currentKind? >>= f) (Parser.currentKind? >>= g) := by
  have hcut {l : Nat} (n : Nat) (hn : 0 < n) (_ : l ≤ n) : (c.cut n).currentKind? = c.currentKind? :=
    Cursor.cut_currentKind? hn
  cases hkind : c.currentKind? with
  | none =>
    refine look (fun _ => rfl) hcut (fun _ => by rw [Cursor.currentKind?_cut_zero, hkind]) ?_
    rw [hkind]
    exact hnone
  | some kind =>
    rcases hsome kind hkind with hreads | ⟨hf, hg⟩
    · have hread : NarrowsAt bound 1 c (Parser.currentKind? >>= f) (Parser.currentKind? >>= g) :=
        look (fun _ => rfl) hcut (absurd · Nat.one_ne_zero) (by rw [hkind]; exact hreads)
      exact hread.uncounted
    · refine look (fun _ => rfl) hcut (fun _ => by rw [Cursor.currentKind?_cut_zero, hkind, hg]) ?_
      rw [hkind, hf, hg]
      exact hnone

/-- The place of the next token, if that token is then read. -/
theorem location {f g : Location → Parser β} (h : NarrowsAt bound (least + 1) c (f c.location) (g c.location)) :
    NarrowsAt bound (least + 1) c (Parser.location >>= f) (Parser.location >>= g) :=
  look (fun _ => rfl) (fun _ hn _ => Cursor.cut_location hn) (absurd · (Nat.succ_ne_zero _)) h

/-- A token further ahead, if what is read then reaches as far. -/
theorem peekKind? {i : Nat} {f g : Option TokenKind → Parser β}
    (h : NarrowsAt bound (i + 1) c (f (c.peekKind? i)) (g (c.peekKind? i))) :
    NarrowsAt bound (i + 1) c (Parser.peekKind? i >>= f) (Parser.peekKind? i >>= g) :=
  look (fun _ => rfl) (fun _ _ hn => Cursor.cut_peekKind? hn) (absurd · (Nat.succ_ne_zero _)) h

/-! ### Lists -/

/-- A separator, an element and more of them: there may be as many as the bound. -/
theorem followersUpTo {separator : Parser Unit} (hs : ∀ bound c, NarrowsAt bound 1 c separator separator)
    (hp : ∀ c, NarrowsAt bound 0 c p q) {l l' : Nat} (hl : bound ≤ l') :
    NarrowsAt bound 0 c (Parser.followersUpTo separator p l) (Parser.followersUpTo separator q l') := by
  induction l generalizing bound c l' with
  | zero =>
    have hdone : NarrowsAt bound 0 c (Parser.followersUpTo separator p 0) (Parser.followersUpTo separator q 0) :=
      .atEnd (fun _ => .pure []) fun _ => .of_error nofun
    cases l' with
    | zero => exact hdone
    | succ l' => exact .atEnd (fun _ => .pure []) fun _ => .of_error nofun
  | succ l ih =>
    -- the elements are read alike with any number that is enough behind the separator
    have hmore {l' : Nat} (hl : bound - 1 ≤ l') : NarrowsAt bound 1 c
        (do separator; let a ← p; let as ← Parser.followersUpTo separator p l; return a :: as)
        (do separator; let a ← q; let as ← Parser.followersUpTo separator q l'; return a :: as) :=
      .lead (hs bound c) fun _ c₁ => .step ((hp c₁).mono (Nat.sub_le bound 1) (Nat.le_refl 0)) fun a c₂ =>
        .step (ih (fun c => (hp c).mono (Nat.sub_le bound 1) (Nat.le_refl 0)) hl) fun _ _ => .pure _
    cases l' with
    | zero => exact .atEnd (fun _ => .pure []) fun _ => (hmore (Nat.le_refl _)).starved (by omega)
    | succ l' => exact .atEnd (fun _ => .pure []) fun _ => hmore (by omega)

/-- Parsers that take a number of steps which the tokens left give. -/
theorem of_length {p q : Nat → Parser α}
    (h : ∀ n, n ≤ bound → NarrowsAt n least c (p c.after.length) (q n)) :
    NarrowsAt (m := Parser) bound least c (fun c => p c.after.length c) (fun c => q c.after.length c) :=
  get_length (m := Parser) h

theorem followers {separator : Parser Unit} (hs : ∀ bound c, NarrowsAt bound 1 c separator separator)
    (hp : ∀ c, NarrowsAt bound 0 c p q) :
    NarrowsAt bound 0 c (Parser.followers separator p) (Parser.followers separator q) :=
  of_length fun n hn => followersUpTo hs (fun c => (hp c).mono hn (Nat.le_refl 0)) (Nat.le_refl n)

theorem listBy {separator : Parser Unit} (hs : ∀ bound c, NarrowsAt bound 1 c separator separator)
    (hp : ∀ c, NarrowsAt bound 1 c p q) :
    NarrowsAt bound 1 c (Parser.listBy separator p) (Parser.listBy separator q) :=
  .lead (hp c) fun _ _ =>
    .step (followers hs fun c => (hp c).mono (Nat.sub_le bound 1) (Nat.zero_le 1)) fun _ _ => .pure _

/-- Elements in brackets: there may be as many as the bound. -/
theorem bracketedUpTo (hp : ∀ c, NarrowsAt bound 1 c p q) {l l' : Nat} (hl : bound ≤ l') :
    NarrowsAt bound 0 c (Parser.bracketedUpTo p l) (Parser.bracketedUpTo q l') := by
  induction l generalizing bound c l' with
  | zero =>
    cases l' with
    | zero => exact .check (fun _ => .of_error nofun) (.pure [])
    | succ l' => exact .check (fun _ => .of_error nofun) (.pure [])
  | succ l ih =>
    have hmore {l' : Nat} (hl : bound - 1 ≤ l') : NarrowsAt bound 1 c
        (do let a ← p; let as ← Parser.bracketedUpTo p l; return a :: as)
        (do let a ← q; let as ← Parser.bracketedUpTo q l'; return a :: as) :=
      .lead (hp c) fun a c₁ => .step (ih (fun c => (hp c).mono (Nat.sub_le bound 1) (Nat.le_refl 1)) hl) fun _ _ =>
        .pure _
    cases l' with
    | zero => exact .check (fun _ => (hmore (Nat.le_refl _)).starved (by omega)) (.pure [])
    | succ l' => exact .check (fun _ => hmore (by omega)) (.pure [])

theorem bracketed (hp : ∀ c, NarrowsAt bound 1 c p q) :
    NarrowsAt bound 0 c (Parser.bracketed p) (Parser.bracketed q) :=
  of_length fun n hn => bracketedUpTo (fun c => (hp c).mono hn (Nat.le_refl 1)) (Nat.le_refl n)

end NarrowsAt

end SystemVerilog
