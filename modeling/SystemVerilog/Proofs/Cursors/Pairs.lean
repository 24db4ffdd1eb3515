import SystemVerilog.Proofs.Cursors.Operations

/-!
# Pairs and the counts of their tokens

The search for the partner of an opener counts the pairs that are open. It stops at the first token behind which as
many openers as closers have been read, and at no other; up to there the count is positive, so that a closer always
has a pair to close. What stands between the two tokens is nested: no part of it from its start on has more closers
than openers, and all of it has as many.
-/

namespace SystemVerilog

open SystemVerilog.Parser

/-! ### Counts -/

/-- The number of tokens that count as a kind. -/
def familyCount (kind : TokenKind) (ts : List Token) : Nat := ts.countP fun t => t.kind.inFamily kind

section Counts

variable {kind : TokenKind} {t : Token} {ts us : List Token}

@[simp] theorem familyCount_nil (kind : TokenKind) : familyCount kind [] = 0 := rfl

theorem familyCount_append (kind : TokenKind) (ts us : List Token) :
    familyCount kind (ts ++ us) = familyCount kind ts + familyCount kind us := List.countP_append

theorem familyCount_cons (kind : TokenKind) (t : Token) (ts : List Token) :
    familyCount kind (t :: ts) = (t.kind.inFamily kind).toNat + familyCount kind ts := by
  rw [familyCount, List.countP_cons, familyCount, Nat.add_comm]
  cases t.kind.inFamily kind <;> rfl

/-- One token more is counted at most once. -/
theorem familyCount_take_succ {n : Nat} (h : ts[n]? = some t) :
    familyCount kind (ts.take (n + 1)) = familyCount kind (ts.take n) + (t.kind.inFamily kind).toNat := by
  obtain ⟨hn, rfl⟩ := List.getElem?_eq_some_iff.1 h
  rw [List.take_succ_eq_append_getElem hn, familyCount_append, familyCount_cons, familyCount_nil, Nat.add_zero]

end Counts

/-- No kind counts as the opener and as the closer. -/
def DisjointFamilies (opening closing : TokenKind) : Prop :=
  ∀ kind : TokenKind, kind.inFamily opening = true → kind.inFamily closing = false

/-- No part from the start on has more closers than openers, and the whole has as many. -/
structure PairsNest (opening closing : TokenKind) (ts : List Token) : Prop where
  parts : ∀ n, familyCount closing (ts.take n) ≤ familyCount opening (ts.take n)
  whole : familyCount opening ts = familyCount closing ts

/-! ### The search -/

section Search

variable {opening closing : TokenKind} {t : Token} {ts : List Token} {depth next n : Nat}

/-- With so many pairs open at the start, none is open behind the token at this distance, for the first time. -/
structure EvenFirst (opening closing : TokenKind) (depth : Nat) (ts : List Token) (n : Nat) : Prop where
  there : n < ts.length
  even : depth + familyCount opening (ts.take (n + 1)) = familyCount closing (ts.take (n + 1))
  least : ∀ m < n, depth + familyCount opening (ts.take (m + 1)) ≠ familyCount closing (ts.take (m + 1))

/-- The number of pairs that are open behind a token. -/
def OpenBehind (opening closing : TokenKind) (depth : Nat) (t : Token) (next : Nat) : Prop :=
  depth + (t.kind.inFamily opening).toNat = (t.kind.inFamily closing).toNat + next

theorem OpenBehind.even_iff (h : OpenBehind opening closing depth t next) (ts : List Token) (n : Nat) :
    depth + familyCount opening ((t :: ts).take (n + 1)) = familyCount closing ((t :: ts).take (n + 1)) ↔
      next + familyCount opening (ts.take n) = familyCount closing (ts.take n) := by
  unfold OpenBehind at h
  rw [List.take_succ_cons, familyCount_cons, familyCount_cons]
  omega

theorem evenFirst_zero (h : OpenBehind opening closing depth t next) :
    EvenFirst opening closing depth (t :: ts) 0 ↔ next = 0 := by
  have heven := h.even_iff ts 0
  rw [List.take_zero, familyCount_nil, familyCount_nil, Nat.add_zero] at heven
  exact ⟨fun hfirst => heven.1 hfirst.even,
    fun hnext => ⟨Nat.succ_pos _, heven.2 hnext, fun m hm => absurd hm (Nat.not_lt_zero m)⟩⟩

theorem evenFirst_succ (h : OpenBehind opening closing depth t next) :
    EvenFirst opening closing depth (t :: ts) (n + 1) ↔ next ≠ 0 ∧ EvenFirst opening closing next ts n := by
  constructor
  · rintro ⟨hthere, heven, hleast⟩
    refine ⟨fun hnext => hleast 0 (Nat.succ_pos n) ((h.even_iff _ 0).2 (by simpa using hnext)), ?_⟩
    exact ⟨Nat.lt_of_succ_lt_succ hthere, (h.even_iff _ (n + 1)).1 heven,
      fun m hm hm' => hleast (m + 1) (Nat.succ_lt_succ hm) ((h.even_iff _ (m + 1)).2 hm')⟩
  · rintro ⟨hnext, hthere, heven, hleast⟩
    refine ⟨Nat.succ_lt_succ hthere, (h.even_iff _ (n + 1)).2 heven, fun m hm hm' => ?_⟩
    cases m with
    | zero => exact hnext (by simpa using (h.even_iff _ 0).1 hm')
    | succ m => exact hleast m (Nat.lt_of_succ_lt_succ hm) ((h.even_iff _ (m + 1)).1 hm')

/-- A token that is an opener, or that is met with a pair open, leaves a number of pairs open. -/
theorem exists_openBehind (closing : TokenKind) (hopen : 0 < depth + (t.kind.inFamily opening).toNat) :
    ∃ next, OpenBehind opening closing depth t next := by
  refine ⟨depth + (t.kind.inFamily opening).toNat - (t.kind.inFamily closing).toNat, ?_⟩
  unfold OpenBehind
  have hle := Bool.toNat_le (t.kind.inFamily closing)
  omega

/-- The search stops at a token behind which no pair is open, and else goes on with those that are. -/
theorem distanceToCloser?_step (hdisjoint : DisjointFamilies opening closing)
    (hopen : 0 < depth + (t.kind.inFamily opening).toNat) (h : OpenBehind opening closing depth t next) :
    distanceToCloser? opening closing depth (t :: ts) =
      if next = 0 then some 0 else (distanceToCloser? opening closing next ts).map (· + 1) := by
  unfold OpenBehind at h
  rw [distanceToCloser?]
  cases ho : t.kind.inFamily opening with
  | true =>
    rw [ho, hdisjoint _ ho, Bool.toNat_true, Bool.toNat_false, Nat.zero_add] at h
    rw [if_pos rfl, if_neg (by omega), h]
  | false =>
    rw [ho, Bool.toNat_false, Nat.add_zero] at h hopen
    rw [if_neg Bool.false_ne_true]
    cases hc : t.kind.inFamily closing with
    | true =>
      rw [hc, Bool.toNat_true] at h
      rw [if_pos rfl]
      by_cases hnext : next = 0
      · rw [if_pos (by omega), if_pos hnext]
      · rw [if_neg (by omega), if_neg hnext, h, Nat.add_sub_cancel_left]
    | false =>
      rw [hc, Bool.toNat_false, Nat.zero_add] at h
      rw [if_neg Bool.false_ne_true, if_neg (by omega), h]

/-- With a pair open, or in front of an opener, the search finds the first token behind which none is open. -/
theorem distanceToCloser?_eq_some_iff (hdisjoint : DisjointFamilies opening closing)
    (hopen : 0 < depth ∨ ∃ t rest, ts = t :: rest ∧ t.kind.inFamily opening = true) :
    distanceToCloser? opening closing depth ts = some n ↔ EvenFirst opening closing depth ts n := by
  induction ts generalizing depth n with
  | nil =>
    rw [distanceToCloser?]
    constructor
    · intro hfound
      cases hfound
    · intro hfirst
      exact absurd hfirst.there (Nat.not_lt_zero n)
  | cons t ts ih =>
    have hopen' : 0 < depth + (t.kind.inFamily opening).toNat := by
      rcases hopen with hpos | ⟨_, _, heq, ht⟩
      · exact Nat.add_pos_left hpos _
      · rw [(List.cons.inj heq).1, ht]
        exact Nat.succ_pos _
    obtain ⟨next, hnext⟩ := exists_openBehind closing hopen'
    rw [distanceToCloser?_step hdisjoint hopen' hnext]
    by_cases hzero : next = 0
    · rw [if_pos hzero]
      cases n with
      | zero => exact ⟨fun _ => (evenFirst_zero hnext).2 hzero, fun _ => rfl⟩
      | succ n =>
        constructor
        · intro hfound
          cases hfound
        · intro hfirst
          exact absurd hzero ((evenFirst_succ hnext).1 hfirst).1
    · rw [if_neg hzero]
      cases n with
      | zero =>
        constructor
        · intro hfound
          obtain ⟨m, -, hm⟩ := Option.map_eq_some_iff.1 hfound
          exact absurd hm (Nat.succ_ne_zero m)
        · exact fun hfirst => absurd ((evenFirst_zero hnext).1 hfirst) hzero
      | succ n =>
        rw [evenFirst_succ hnext, ← ih (.inl (Nat.pos_of_ne_zero hzero)), Option.map_eq_some_iff]
        constructor
        · rintro ⟨m, hm, hmn⟩
          obtain rfl := Nat.succ.inj hmn
          exact ⟨hzero, hm⟩
        · rintro ⟨-, hm⟩
          exact ⟨n, hm, rfl⟩

/-! ### The counter -/

/-- What the search has come to behind some tokens: it counts the pairs that are open there, and goes on with that
count. -/
structure CountsTo (opening closing : TokenKind) (ts : List Token) (n depth : Nat) : Prop where
  counted : familyCount opening (ts.take n) = familyCount closing (ts.take n) + depth
  goes : distanceToCloser? opening closing 0 ts =
    (distanceToCloser? opening closing depth (ts.drop n)).map (· + n)

/-- In front of an opener, and as long as no pair has been closed for good, the search counts the open pairs; the
count is zero in front of the first token only. -/
theorem exists_countsTo (hdisjoint : DisjointFamilies opening closing) (ho : t.kind.inFamily opening = true)
    (hn : n ≤ (t :: ts).length)
    (hodd : ∀ m < n, familyCount opening ((t :: ts).take (m + 1)) ≠ familyCount closing ((t :: ts).take (m + 1))) :
    ∃ depth, CountsTo opening closing (t :: ts) n depth ∧ (0 < n → 0 < depth) := by
  induction n with
  | zero => exact ⟨0, ⟨rfl, by simp⟩, fun h => absurd h (Nat.lt_irrefl 0)⟩
  | succ n ih =>
    obtain ⟨depth, ⟨hcounted, hgoes⟩, hpos⟩ := ih (by omega) fun m hm => hodd m (by omega)
    have hthere : (t :: ts)[n]? = some (t :: ts)[n] := List.getElem?_eq_getElem hn
    generalize (t :: ts)[n] = u at hthere
    have hopen : 0 < depth + (u.kind.inFamily opening).toNat := by
      cases n with
      | zero =>
        obtain rfl := Option.some.inj hthere
        rw [ho]
        exact Nat.succ_pos _
      | succ n => exact Nat.add_pos_left (hpos (Nat.succ_pos n)) _
    obtain ⟨next, hnext⟩ := exists_openBehind closing hopen
    have hcounted' : familyCount opening ((t :: ts).take (n + 1)) =
        familyCount closing ((t :: ts).take (n + 1)) + next := by
      have hstep := hnext
      unfold OpenBehind at hstep
      rw [familyCount_take_succ hthere, familyCount_take_succ hthere]
      omega
    have hnonzero : next ≠ 0 := fun hzero => hodd n (Nat.lt_succ_self n) (by rw [hcounted', hzero, Nat.add_zero])
    refine ⟨next, ⟨hcounted', ?_⟩, fun _ => Nat.pos_of_ne_zero hnonzero⟩
    have hdrop : (t :: ts).drop n = u :: (t :: ts).drop (n + 1) := by
      obtain ⟨hlt, rfl⟩ := List.getElem?_eq_some_iff.1 hthere
      exact List.drop_eq_getElem_cons hlt
    rw [hgoes, hdrop, distanceToCloser?_step hdisjoint hopen hnext, if_neg hnonzero, Option.map_map]
    congr 1
    funext m
    exact Nat.add_right_comm m 1 n

/-- Between the opener and the token that is found, pairs nest. -/
theorem pairsNest_of_evenFirst (hdisjoint : DisjointFamilies opening closing) (ho : t.kind.inFamily opening = true)
    (h : EvenFirst opening closing 0 (t :: ts) (n + 1)) : PairsNest opening closing (ts.take n) := by
  have hlen : n < ts.length := Nat.lt_of_succ_lt_succ h.there
  have hodd : ∀ m < n + 1,
      familyCount opening ((t :: ts).take (m + 1)) ≠ familyCount closing ((t :: ts).take (m + 1)) :=
    fun m hm heven => h.least m hm (by rw [Nat.zero_add]; exact heven)
  -- behind the opener at least its own pair is open
  have hopen (m : Nat) (hm : m ≤ n) : familyCount closing (ts.take m) ≤ familyCount opening (ts.take m) := by
    obtain ⟨depth, ⟨hcounted, -⟩, hpos⟩ := exists_countsTo hdisjoint ho (n := m + 1)
      (by rw [List.length_cons]; omega) fun k hk => hodd k (by omega)
    have hdepth := hpos (Nat.succ_pos m)
    rw [List.take_succ_cons, familyCount_cons, familyCount_cons, ho, hdisjoint _ ho, Bool.toNat_true,
      Bool.toNat_false] at hcounted
    omega
  refine ⟨fun m => ?_, ?_⟩
  · rw [List.take_take]
    exact hopen _ (Nat.min_le_right m n)
  · have hparts := hopen n (Nat.le_refl n)
    have hthere : ts[n]? = some ts[n] := List.getElem?_eq_getElem hlen
    have heven := h.even
    rw [List.take_succ_cons, familyCount_cons, familyCount_cons, ho, hdisjoint _ ho, Bool.toNat_true,
      Bool.toNat_false, familyCount_take_succ hthere, familyCount_take_succ hthere] at heven
    have hle := Bool.toNat_le (ts[n].kind.inFamily closing)
    omega

end Search

/-! ### Contexts -/

/-- The tokens from the cursor up to an index and the one at the index. -/
def Cursor.through (c : Cursor) (index : Nat) : List Token := c.after.take (index + 1 - c.position)

/-- An index of the span at which the tokens from the cursor on are as many openers as closers, and the first. -/
structure FirstEven (opening closing : TokenKind) (c : Cursor) (index : Nat) : Prop where
  lower : c.position ≤ index
  upper : index < c.finish
  even : familyCount opening (c.through index) = familyCount closing (c.through index)
  least : ∀ i, c.position ≤ i → i < index →
    familyCount opening (c.through i) ≠ familyCount closing (c.through i)

/-- The next token is an opener. -/
def Cursor.AtOpener (c : Cursor) (opening : TokenKind) : Prop :=
  ∃ t, c.current? = some t ∧ t.kind.inFamily opening = true

/-- How the partner of an opener is found from a cursor. -/
structure PairMatching (opening closing : TokenKind) (c : Cursor) : Prop where
  /-- The partner is where as many openers as closers have been read for the first time. -/
  found : ∀ index c', moveToCloser opening closing c = .ok (index, c') ↔
    c.AtOpener opening ∧ FirstEven opening closing c index ∧ c' = c.skip (index - c.position)
  onto : ∀ index c', moveToCloser opening closing c = .ok (index, c') →
    c'.position = index ∧ c'.bounds = c.bounds
  /-- The interior lies between the two tokens, and is read with both of them. -/
  interior : ∀ part c'', Parser.interior opening closing c = .ok (part, c'') ↔
    ∃ index c', moveToCloser opening closing c = .ok (index, c') ∧ c'' = c'.skip 1 ∧
      part = (c.skip 1).ahead (index - c.position - 1)
  nested : ∀ index c' part c'', moveToCloser opening closing c = .ok (index, c') →
    Parser.interior opening closing c = .ok (part, c'') → part.bounds = ⟨c.position + 1, index⟩ ∧
      c''.position = index + 1 ∧ PairsNest opening closing part.after
  /-- An opener without a partner is reported. -/
  unmatched : ∀ t, c.current? = some t → t.kind.inFamily opening = true →
    (∀ index, ¬FirstEven opening closing c index) →
      moveToCloser opening closing c = .error ⟨.unmatchedPair opening closing, t.location⟩ ∧
      Parser.interior opening closing c = .error ⟨.unmatchedPair opening closing, t.location⟩
  /-- Wherever the search comes, it counts the open pairs, and a closer there closes one of them. -/
  counter : c.AtOpener opening → ∀ n t, c.after[n]? = some t →
    (∀ i < n, familyCount opening (c.after.take (i + 1)) ≠ familyCount closing (c.after.take (i + 1))) →
      ∃ depth, CountsTo opening closing c.after n depth ∧ (t.kind.inFamily closing = true → 0 < depth)

section Cursors

variable {opening closing : TokenKind} {c c' : Cursor} {t : Token} {rest : List Token}

theorem Cursor.through_add (c : Cursor) (n : Nat) : c.through (c.position + n) = c.after.take (n + 1) := by
  rw [through, Nat.add_assoc, Nat.add_sub_cancel_left]

theorem Cursor.after_of_current? (h : c.current? = some t) : ∃ rest, c.after = t :: rest := by
  rw [current?] at h
  exact ⟨c.after.tail, List.eq_cons_of_mem_head? h⟩

/-- Indices of the span are told by their distances. -/
theorem firstEven_iff {n : Nat} : FirstEven opening closing c (c.position + n) ↔
    EvenFirst opening closing 0 c.after n := by
  constructor
  · rintro ⟨-, hupper, heven, hleast⟩
    rw [Cursor.through_add] at heven
    refine ⟨Nat.lt_of_add_lt_add_left hupper, by rw [Nat.zero_add]; exact heven, fun m hm hm' => ?_⟩
    rw [Nat.zero_add, ← Cursor.through_add] at hm'
    exact hleast _ (Nat.le_add_right _ m) (Nat.add_lt_add_left hm _) hm'
  · rintro ⟨hthere, heven, hleast⟩
    rw [Nat.zero_add] at heven
    refine ⟨Nat.le_add_right _ n, Nat.add_lt_add_left hthere _, by rw [Cursor.through_add]; exact heven, ?_⟩
    intro i hi hlt
    obtain ⟨m, rfl⟩ := Nat.exists_eq_add_of_le hi
    rw [Cursor.through_add]
    have hodd := hleast m (Nat.lt_of_add_lt_add_left hlt)
    rwa [Nat.zero_add] at hodd

/-- The distance to the closer is that of the first token behind which no pair is open. -/
theorem closerDistance_eq_ok (hdisjoint : DisjointFamilies opening closing) {n : Nat} :
    closerDistance opening closing c = .ok (n, c') ↔
      c.AtOpener opening ∧ FirstEven opening closing c (c.position + n) ∧ c' = c := by
  rw [firstEven_iff]
  constructor
  · intro h
    obtain ⟨rfl, -, hn⟩ := closerDistance_inv h
    obtain ⟨t, ts, hafter, ho⟩ := opener_of_closerDistance h
    refine ⟨⟨t, by rw [Cursor.current?, hafter]; rfl, ho⟩, ?_, rfl⟩
    exact (distanceToCloser?_eq_some_iff hdisjoint (.inr ⟨t, ts, hafter, ho⟩)).1 hn
  · rintro ⟨⟨t, ht, ho⟩, hfirst, rfl⟩
    obtain ⟨ts, hafter⟩ := Cursor.after_of_current? ht
    exact closerDistance_of_found hafter ho
      ((distanceToCloser?_eq_some_iff hdisjoint (.inr ⟨t, ts, hafter, ho⟩)).2 hfirst)

/-- Without such a token, the search fails at the opener. -/
theorem closerDistance_eq_error (hdisjoint : DisjointFamilies opening closing) (ht : c.current? = some t)
    (ho : t.kind.inFamily opening = true) (hnone : ∀ index, ¬FirstEven opening closing c index) :
    closerDistance opening closing c = .error ⟨.unmatchedPair opening closing, t.location⟩ := by
  obtain ⟨ts, hafter⟩ := Cursor.after_of_current? ht
  have hnot : distanceToCloser? opening closing 0 c.after = none := by
    rw [Option.eq_none_iff_forall_ne_some]
    intro n hn
    exact hnone _ (firstEven_iff.2 ((distanceToCloser?_eq_some_iff hdisjoint (.inr ⟨t, ts, hafter, ho⟩)).1 hn))
  rw [hafter] at hnot
  simp [closerDistance, hafter, ho, hnot]

/-- The partner of an opener stands behind it, and the tokens between the two nest. -/
theorem FirstEven.nested (hdisjoint : DisjointFamilies opening closing) (hopener : c.AtOpener opening) {n : Nat}
    (h : FirstEven opening closing c (c.position + n)) :
    0 < n ∧ n < c.after.length ∧ PairsNest opening closing ((c.skip 1).ahead (n - 1)).after := by
  obtain ⟨t, ht, ho⟩ := hopener
  obtain ⟨ts, hafter⟩ := Cursor.after_of_current? ht
  have heven := firstEven_iff.1 h
  rw [hafter] at heven
  obtain ⟨m, rfl⟩ : ∃ m, n = m + 1 := by
    refine Nat.exists_eq_succ_of_ne_zero fun hzero => ?_
    have hcount := heven.even
    rw [hzero, List.take_succ_cons, familyCount_cons, familyCount_cons, ho, hdisjoint _ ho] at hcount
    cases hcount
  rw [Cursor.ahead_after, Cursor.skip_after, hafter]
  exact ⟨Nat.succ_pos m, heven.there, pairsNest_of_evenFirst hdisjoint ho heven⟩

theorem moveToCloser_eq_ok (hdisjoint : DisjointFamilies opening closing) {index : Nat} :
    moveToCloser opening closing c = .ok (index, c') ↔
      c.AtOpener opening ∧ FirstEven opening closing c index ∧ c' = c.skip (index - c.position) := by
  constructor
  · intro h
    obtain ⟨n, c₁, hn, hmove⟩ := bind_eq_ok.1 h
    obtain ⟨hopener, hfirst, rfl⟩ := (closerDistance_eq_ok hdisjoint).1 hn
    obtain ⟨rfl, rfl⟩ := Prod.mk.inj (Except.ok.inj hmove)
    exact ⟨hopener, hfirst, by rw [Nat.add_sub_cancel_left]⟩
  · rintro ⟨hopener, hfirst, rfl⟩
    obtain ⟨n, rfl⟩ := Nat.exists_eq_add_of_le hfirst.lower
    refine (bind_of_ok ((closerDistance_eq_ok hdisjoint).2 ⟨hopener, hfirst, rfl⟩)).trans ?_
    rw [Nat.add_sub_cancel_left]

end Cursors

/-- From every cursor the partner of an opener is found by counting openers and closers. -/
theorem pairMatching_exact {opening closing : TokenKind} (hdisjoint : DisjointFamilies opening closing) (c : Cursor) :
    PairMatching opening closing c := by
  constructor
  case found => exact fun _ _ => moveToCloser_eq_ok hdisjoint
  case onto =>
    intro index c' h
    obtain ⟨-, hfirst, rfl⟩ := (moveToCloser_eq_ok hdisjoint).1 h
    obtain ⟨n, rfl⟩ := Nat.exists_eq_add_of_le hfirst.lower
    have hthere := (firstEven_iff.1 hfirst).there
    rw [Nat.add_sub_cancel_left]
    refine ⟨by rw [Cursor.position_skip, Nat.min_eq_left (Nat.le_of_lt hthere)], ?_⟩
    rw [Cursor.bounds, Cursor.skip_start, Cursor.finish_skip, Cursor.bounds]
  case interior =>
    intro part c''
    constructor
    · intro h
      obtain ⟨n, c₁, hn, hspan⟩ := bind_eq_ok.1 h
      obtain ⟨hopener, hfirst, rfl⟩ := (closerDistance_eq_ok hdisjoint).1 hn
      obtain ⟨rfl, rfl⟩ := Prod.mk.inj (Except.ok.inj hspan)
      refine ⟨_, _, (moveToCloser_eq_ok hdisjoint).2 ⟨hopener, hfirst, rfl⟩, ?_, ?_⟩
      · rw [Nat.add_sub_cancel_left, Cursor.skip_skip]
      · rw [Nat.add_sub_cancel_left]
    · rintro ⟨index, c', hmove, rfl, rfl⟩
      obtain ⟨hopener, hfirst, rfl⟩ := (moveToCloser_eq_ok hdisjoint).1 hmove
      obtain ⟨n, rfl⟩ := Nat.exists_eq_add_of_le hfirst.lower
      refine (bind_of_ok ((closerDistance_eq_ok hdisjoint).2 ⟨hopener, hfirst, rfl⟩)).trans ?_
      rw [Nat.add_sub_cancel_left, Cursor.skip_skip]
  case nested =>
    intro index c' part c'' hmove hinterior
    obtain ⟨n, c₁, hn, hspan⟩ := bind_eq_ok.1 hinterior
    obtain ⟨hopener, hfirst, rfl⟩ := (closerDistance_eq_ok hdisjoint).1 hn
    obtain ⟨rfl, rfl⟩ := Prod.mk.inj (Except.ok.inj hspan)
    obtain ⟨hpos, hlen, hnest⟩ := hfirst.nested hdisjoint hopener
    have hmove' := (moveToCloser_eq_ok hdisjoint).2 ⟨hopener, hfirst, rfl⟩
    obtain ⟨rfl, -⟩ := Prod.mk.inj (Except.ok.inj (hmove.symm.trans hmove'))
    refine ⟨?_, ?_, hnest⟩
    · have hstart : ((c₁.skip 1).ahead (n - 1)).position = c₁.position + 1 := by
        rw [Cursor.position_ahead, Cursor.position_skip]
        omega
      rw [Cursor.bounds, Cursor.finish, hstart, Cursor.ahead_after, Cursor.skip_after, List.length_take,
        List.length_drop, TokenRange.mk.injEq]
      exact ⟨hstart, by omega⟩
    · rw [Cursor.position_skip]
      omega
  case unmatched =>
    intro t ht ho hnone
    have hfails := closerDistance_eq_error hdisjoint ht ho hnone
    have hstop {α : Type} (f : Nat → Parser α) : (closerDistance opening closing >>= f) c =
        .error ⟨.unmatchedPair opening closing, t.location⟩ := by
      show (closerDistance opening closing c).bind _ = _
      rw [hfails]
      rfl
    exact ⟨hstop _, hstop _⟩
  case counter =>
    rintro ⟨o, hcurrent, ho⟩ n t hthere hodd
    obtain ⟨ts, hafter⟩ := Cursor.after_of_current? hcurrent
    rw [hafter] at hthere hodd ⊢
    have hn : n ≤ (o :: ts).length := Nat.le_of_lt (List.getElem?_eq_some_iff.1 hthere).1
    obtain ⟨depth, hcounts, hpos⟩ := exists_countsTo hdisjoint ho hn hodd
    refine ⟨depth, hcounts, fun hc => hpos (Nat.pos_of_ne_zero fun hzero => ?_)⟩
    rw [hzero] at hthere
    obtain rfl := Option.some.inj hthere
    rw [hdisjoint _ ho] at hc
    cases hc

/-- The partner of `casez` is the second `endcase`: the first one closes the `casex` between them. -/
theorem pairMatching_exact_case :
    let token (kind : TokenKind) (text : String) : Token := ⟨⟨kind, text⟩, 0, .origin, .origin⟩
    let c : Cursor := ⟨.origin, 3, [], [token (.word .kwCasez) "casez", token (.word .kwCasex) "casex",
      token (.word .kwEndCase) "endcase", token (.word .kwEndCase) "endcase", token (.word .kwEndCase) "endcase"]⟩
    DisjointFamilies (.word .kwCase) (.word .kwEndCase) ∧ PairMatching (.word .kwCase) (.word .kwEndCase) c ∧
      ∃ c', moveToCloser (.word .kwCase) (.word .kwEndCase) c = .ok (6, c') := by
  intro token c
  have hdisjoint : DisjointFamilies (.word .kwCase) (.word .kwEndCase) := by
    intro kind h
    simp only [TokenKind.inFamily, Bool.or_eq_true, beq_iff_eq] at h
    rcases h with (rfl | rfl) | rfl <;> decide
  exact ⟨hdisjoint, pairMatching_exact hdisjoint c, _, rfl⟩

end SystemVerilog
