import SystemVerilog.Proofs.Correspondence.Combinators
import SystemVerilog.Proofs.Reading.Brackets

/-!
# Contexts and the places of their faults

A context is a cursor at some index of a part of a list of tokens. What the cursor keeps besides is
determined by the list, so contexts are closed under reading on and narrowing. `FaultPlace` says where a
fault may be when reading stops in a context. A `Correspondence` of a source with itself that forgets
everything but whether a place is admitted shows that readers which agree with themselves stop there only.
-/

namespace SystemVerilog

open SystemVerilog.Parser

/-! ### Contexts -/

/-- The place in front of an index: where the token before it ends, or where the tokens start. -/
def placeBefore (tokens : List Token) : Nat → Location
  | 0 => (tokens.head?.map fun t => t.location).getD .origin
  | n + 1 => (tokens[n]?.map fun t => t.stop).getD .origin

/-- The cursor at an index of the part of a list of tokens from `start` up to `stop`. -/
def Cursor.context (tokens : List Token) (start cursor stop : Nat) : Cursor where
  lead := placeBefore tokens start
  start := start
  before := ((tokens.take cursor).drop start).reverse
  after := (tokens.take stop).drop cursor

variable {tokens : List Token} {start cursor stop : Nat}

namespace Cursor

theorem context_position (hstart : start ≤ cursor) (hlength : cursor ≤ tokens.length) :
    (context tokens start cursor stop).position = cursor := by
  simp [context, position]
  omega

theorem context_readUpTo (hstart : start ≤ cursor) (hlength : cursor ≤ tokens.length) :
    (context tokens start cursor stop).readUpTo = placeBefore tokens cursor := by
  rcases Nat.eq_or_lt_of_le hstart with rfl | hlt
  · have hbefore : (context tokens start start stop).before = [] := by simp [context]
    rw [readUpTo, hbefore]
    rfl
  · obtain ⟨n, rfl⟩ : ∃ n, cursor = n + 1 := ⟨cursor - 1, by omega⟩
    have hn : n < tokens.length := hlength
    have hbefore : (context tokens start (n + 1) stop).before =
        tokens[n] :: ((tokens.take n).drop start).reverse := by
      have hle : start ≤ (tokens.take n).length := by
        rw [List.length_take]
        omega
      rw [context, List.take_succ_eq_append_getElem hn, List.drop_append_of_le_length hle, List.reverse_append]
      rfl
    rw [readUpTo, hbefore, placeBefore, List.getElem?_eq_getElem hn]
    rfl

/-- Reading on leads to a context of the same part. -/
theorem context_skip (hstart : start ≤ cursor) (hcursor : cursor ≤ stop) (hstop : stop ≤ tokens.length) (n : Nat) :
    (context tokens start cursor stop).skip n = context tokens start (min (cursor + n) stop) stop := by
  have hread : (((tokens.take stop).drop cursor).take n).reverse ++ ((tokens.take cursor).drop start).reverse =
      ((tokens.take (min (cursor + n) stop)).drop start).reverse := by
    have hle : start ≤ (tokens.take cursor).length := by
      rw [List.length_take]
      omega
    have htake : tokens.take (min (cursor + n) stop) =
        tokens.take cursor ++ ((tokens.take stop).drop cursor).take n := by
      have hfront : tokens.take cursor = (tokens.take (min (cursor + n) stop)).take cursor := by
        rw [List.take_take, Nat.min_eq_left (by omega)]
      rw [List.take_drop, List.take_take, hfront, List.take_append_drop]
    rw [htake, List.drop_append_of_le_length hle, List.reverse_append]
  have hrest : ((tokens.take stop).drop cursor).drop n = (tokens.take stop).drop (min (cursor + n) stop) := by
    rw [List.drop_drop]
    rcases Nat.le_total (cursor + n) stop with hle | hle
    · rw [Nat.min_eq_left hle]
    · rw [Nat.min_eq_right hle, List.drop_eq_nil_of_le (by rw [List.length_take]; omega),
        List.drop_eq_nil_of_le (by rw [List.length_take]; omega)]
  rw [skip_eq, context, hread, hrest]
  rfl

/-- A part of what is ahead is a context of its own. -/
theorem context_ahead (hstart : start ≤ cursor) (hcursor : cursor ≤ stop) (hstop : stop ≤ tokens.length) (n : Nat) :
    (context tokens start cursor stop).ahead n = context tokens cursor cursor (min (cursor + n) stop) := by
  have hlength : cursor ≤ tokens.length := Nat.le_trans hcursor hstop
  have hafter : ((tokens.take stop).drop cursor).take n = (tokens.take (min (cursor + n) stop)).drop cursor := by
    rw [List.take_drop, List.take_take]
  rw [ahead, context_readUpTo hstart hlength, context_position hstart hlength, context, hafter, context]
  simp

end Cursor

/-! ### Places of faults -/

/-- Where a fault of a context may be: where one of the tokens from its index on starts, or where one of them
ends or the token before them. At the start of all tokens a context without tokens has no such token. -/
def FaultPlace (tokens : List Token) (cursor stop : Nat) (l : Location) : Prop :=
  (∃ i t, tokens[i]? = some t ∧ cursor ≤ i ∧ i < stop ∧ l = t.location) ∨
    (∃ i t, tokens[i]? = some t ∧ cursor ≤ i + 1 ∧ i < stop ∧ l = t.stop) ∨
    (cursor = 0 ∧ stop = 0 ∧ l = placeBefore tokens 0)

/-- In front of the index of a context is such a place. -/
theorem FaultPlace.before (hcursor : cursor ≤ stop) (hstop : stop ≤ tokens.length) :
    FaultPlace tokens cursor stop (placeBefore tokens cursor) := by
  cases cursor with
  | zero =>
    cases tokens with
    | nil =>
      obtain rfl : stop = 0 := Nat.le_zero.1 hstop
      exact .inr (.inr ⟨rfl, rfl, rfl⟩)
    | cons t ts =>
      rcases Nat.eq_zero_or_pos stop with rfl | hpos
      · exact .inr (.inr ⟨rfl, rfl, rfl⟩)
      · exact .inl ⟨0, t, rfl, Nat.le_refl 0, hpos, rfl⟩
  | succ n =>
    have hn : n < tokens.length := by omega
    refine .inr (.inl ⟨n, tokens[n], List.getElem?_eq_getElem hn, Nat.le_refl _, hcursor, ?_⟩)
    rw [placeBefore, List.getElem?_eq_getElem hn]
    rfl

namespace Correspondence

/-- Every token whose places are admitted corresponds to itself. -/
def admitting (P : Location → Prop) : Correspondence (Site × Prop) where
  token t u := u = t ∧ P t.location ∧ P t.stop
  place l l' := l' = l ∧ P l
  index := Eq
  left s := (s, P s.location)
  right s := (s, True)
  lexeme {t u} h := by rw [h.1]
  touches {t t' u u'} h h' := by rw [h.1, h'.1]
  location {t u} h := ⟨by rw [h.1], h.2.1⟩
  stop {t u} h := ⟨by rw [h.1], h.2.2⟩
  add {i j} n h := by rw [h]
  site {l l' i i' j j'} h hi hj := by rw [h.1, hi, hj, eq_true h.2]
  since {s s' i j} hs hi := by
    obtain ⟨rfl, hP⟩ := Prod.mk.inj hs
    rw [hi]
    exact Prod.ext rfl hP
  through {s s' t t'} hs ht := by
    obtain ⟨rfl, hP⟩ := Prod.mk.inj hs
    obtain ⟨rfl, -⟩ := Prod.mk.inj ht
    exact Prod.ext rfl hP
  located {s s'} hs := by
    obtain ⟨rfl, hP⟩ := Prod.mk.inj hs
    exact ⟨rfl, of_eq_true hP⟩

/-- A reader that agrees with itself stops at admitted places. -/
theorem Agree.admitted {α : Type} {p : Recorder α} {Q : α → α → Prop} {P : Location → Prop} {c : Cursor} {fault : Fault}
    {ns ns' : List Notice} (h : (admitting P).Agree c c p p Q) (hrun : (p c).run ns = (.error fault, ns')) :
    P fault.location := by
  cases h with
  | read hp =>
    obtain ⟨ns₁, hread⟩ := hp ns
    cases hread.symm.trans hrun
  | stop hp _ same =>
    obtain ⟨ns₁, hstop⟩ := hp ns
    cases hstop.symm.trans hrun
    exact same.place.2

end Correspondence

/-! ### Pairs -/

section Parts

variable {opening closing : TokenKind} {part c' : Cursor}

end Parts

end SystemVerilog
