import Mathlib.Data.List.Forall2
import SystemVerilog.Proofs.Reading.Readers

/-!
# Corresponding tokens are read alike

What is read depends on the kinds and texts of tokens and on which of them touch; where the tokens stand
shows in the sites of the tree and in the places of faults alone. A `Correspondence` says when two tokens,
places or indices stand for each other, and makes sites comparable by two maps into a common type.
`k.Agrees p q Q` says that from corresponding tokens `p` and `q` either both read, with values in the relation
`Q`, or both fail, for the same cause and at corresponding places.
-/

namespace SystemVerilog

open SystemVerilog.Parser

/-- What corresponds to what in two sources. -/
structure Correspondence (τ : Type) where
  token : Token → Token → Prop
  place : Location → Location → Prop
  index : Nat → Nat → Prop
  /-- What the sites of the first tree are compared by. -/
  left : Site → τ
  /-- What the sites of the second tree are compared by. -/
  right : Site → τ
  lexeme {t u : Token} : token t u → t.toLexeme = u.toLexeme
  touches {t t' u u' : Token} : token t u → token t' u' → t'.touches t = u'.touches u
  location {t u : Token} : token t u → place t.location u.location
  stop {t u : Token} : token t u → place t.stop u.stop
  add {i j : Nat} (n : Nat) : index i j → index (i + n) (j + n)
  site {l l' : Location} {i i' j j' : Nat} : place l l' → index i j → index i' j' →
    left ⟨l, ⟨i, i'⟩⟩ = right ⟨l', ⟨j, j'⟩⟩
  since {s s' : Site} {i j : Nat} : left s = right s' → index i j →
    left ⟨s.location, ⟨s.range.start, i⟩⟩ = right ⟨s'.location, ⟨s'.range.start, j⟩⟩
  through {s s' t t' : Site} : left s = right s' → left t = right t' →
    left (s.through t) = right (s'.through t')
  located {s s' : Site} : left s = right s' → place s.location s'.location

namespace Correspondence

variable {τ : Type} {k : Correspondence τ} {c d : Cursor} {t u : Token} {ts us : List Token}

/-! ### Cursors -/

/-- Cursors with the same still to read. -/
structure Abreast (k : Correspondence τ) (c d : Cursor) : Prop where
  after : List.Forall₂ k.token c.after d.after
  index : k.index c.position d.position

/-- Cursors with the same still to read that have also read up to the same place. -/
structure Alike (k : Correspondence τ) (c d : Cursor) : Prop extends Abreast k c d where
  place : k.place c.readUpTo d.readUpTo

/-- Alike cursors that two others have come to; if they have moved, what they have read last corresponds. -/
structure Onward (k : Correspondence τ) (c d c' d' : Cursor) : Prop extends Alike k c' d' where
  last : (c' = c ∧ d' = d) ∨ Option.Rel k.token c'.last? d'.last?

theorem kind_eq (h : k.token t u) : t.kind = u.kind := congrArg Lexeme.kind (k.lexeme h)

theorem text_eq (h : k.token t u) : t.text = u.text := congrArg Lexeme.text (k.lexeme h)

theorem lexemes_eq (h : List.Forall₂ k.token ts us) : ts.map Token.toLexeme = us.map Token.toLexeme := by
  induction h with
  | nil => rfl
  | cons htoken _ ih => rw [List.map_cons, List.map_cons, k.lexeme htoken, ih]

theorem Abreast.length_eq (h : Abreast k c d) : c.after.length = d.after.length := h.after.length_eq

/-- Cursors that are abreast are both at the end, or both stand before a token. -/
theorem Abreast.cases (h : Abreast k c d) : (c.after = [] ∧ d.after = []) ∨
    ∃ t ts u us, c.after = t :: ts ∧ d.after = u :: us ∧ k.token t u := by
  rcases (List.forall₂_iff _ _ _).1 h.after with hend | ⟨t, u, ts, us, htoken, _, hc, hd⟩
  · exact .inl hend
  · exact .inr ⟨t, ts, u, us, hc, hd, htoken⟩

theorem Abreast.atEnd_eq (h : Abreast k c d) : c.atEnd = d.atEnd := by
  rcases h.cases with ⟨hc, hd⟩ | ⟨t, ts, u, us, hc, hd, -⟩
  · rw [Cursor.atEnd, Cursor.atEnd, hc, hd]
  · rw [Cursor.atEnd, Cursor.atEnd, hc, hd]
    rfl

theorem Onward.refl (h : Alike k c d) : Onward k c d c d := ⟨h, .inl ⟨rfl, rfl⟩⟩

theorem Onward.trans {c₁ d₁ c' d' : Cursor} (h : Onward k c d c₁ d₁) (h' : Onward k c₁ d₁ c' d') :
    Onward k c d c' d' := by
  refine ⟨h'.toAlike, ?_⟩
  rcases h'.last with ⟨rfl, rfl⟩ | hlast
  · exact h.last
  · exact .inr hlast

/-- Cursors that have come from behind corresponding tokens are behind such tokens. -/
theorem Onward.last_of {c' d' : Cursor} (h : Onward k c d c' d') (hlast : Option.Rel k.token c.last? d.last?) :
    Option.Rel k.token c'.last? d'.last? := by
  rcases h.last with ⟨rfl, rfl⟩ | hlast'
  · exact hlast
  · exact hlast'

/-- A token that both cursors read. -/
theorem Abreast.read (h : Abreast k c d) (hc : c.after = t :: ts) (hd : d.after = u :: us) :
    Onward k c d { c with before := t :: c.before, after := ts } { d with before := u :: d.before, after := us } := by
  have hafter := h.after
  rw [hc, hd] at hafter
  obtain ⟨htoken, hrest⟩ := List.forall₂_cons.1 hafter
  exact ⟨⟨⟨hrest, k.add 1 h.index⟩, k.stop htoken⟩, .inr (.some htoken)⟩

theorem Alike.skip (h : Alike k c d) (n : Nat) : Onward k c d (c.skip n) (d.skip n) := by
  induction n generalizing c d with
  | zero => exact .refl h
  | succ n ih =>
    rcases h.cases with ⟨hc, hd⟩ | ⟨t, ts, u, us, hc, hd, -⟩
    · rw [Cursor.skip, Cursor.skip, hc, hd]
      exact .refl h
    · rw [Cursor.skip_cons n hc, Cursor.skip_cons n hd]
      have hread := h.read hc hd
      exact hread.trans (ih hread.toAlike)

/-- Behind a token, cursors that are abreast have come from the same. -/
theorem Abreast.skip (h : Abreast k c d) (hne : c.after ≠ []) (n : Nat) :
    Onward k c d (c.skip (n + 1)) (d.skip (n + 1)) := by
  rcases h.cases with ⟨hc, hd⟩ | ⟨t, ts, u, us, hc, hd, -⟩
  · exact absurd hc hne
  · rw [Cursor.skip_cons n hc, Cursor.skip_cons n hd]
    have hread := h.read hc hd
    exact hread.trans (hread.toAlike.skip n)

theorem Abreast.ahead (h : Abreast k c d) (n : Nat) : Abreast k (c.ahead n) (d.ahead n) :=
  ⟨List.forall₂_take n h.after, h.index⟩

theorem Alike.ahead (h : Alike k c d) (n : Nat) : Alike k (c.ahead n) (d.ahead n) :=
  ⟨h.toAbreast.ahead n, h.place⟩

theorem Abreast.location (h : Abreast k c d) (hne : c.after ≠ []) : k.place c.location d.location := by
  rcases h.cases with ⟨hc, hd⟩ | ⟨t, ts, u, us, hc, hd, htoken⟩
  · exact absurd hc hne
  · rw [Cursor.location, Cursor.location, hc, hd]
    exact k.location htoken

theorem Alike.location (h : Alike k c d) : k.place c.location d.location := by
  rcases h.cases with ⟨hc, hd⟩ | ⟨t, ts, u, us, hc, hd, htoken⟩
  · rw [Cursor.location, Cursor.location, hc, hd]
    exact h.place
  · rw [Cursor.location, Cursor.location, hc, hd]
    exact k.location htoken

/-- The spans of alike cursors end at corresponding places. -/
theorem Alike.endLocation (h : Alike k c d) : k.place c.endLocation d.endLocation := by
  rw [Cursor.endLocation, Cursor.endLocation, ← List.head?_reverse, ← List.head?_reverse]
  have hreverse := List.forall₂_reverse_iff.2 h.after
  generalize c.after.reverse = ts at hreverse
  generalize d.after.reverse = us at hreverse
  cases hreverse with
  | nil => exact h.place
  | cons htoken _ => exact k.stop htoken

/-! ### Looking -/

/-- The next tokens of both cursors correspond. -/
theorem Abreast.current? (h : Abreast k c d) : Option.Rel k.token c.current? d.current? := by
  rcases h.cases with ⟨hc, hd⟩ | ⟨t, ts, u, us, hc, hd, htoken⟩
  · rw [Cursor.current?, Cursor.current?, hc, hd]
    exact .none
  · rw [Cursor.current?, Cursor.current?, hc, hd]
    exact .some htoken

theorem Abreast.currentKind?_eq (h : Abreast k c d) : c.currentKind? = d.currentKind? := by
  rcases h.cases with ⟨hc, hd⟩ | ⟨t, ts, u, us, hc, hd, htoken⟩
  · rw [Cursor.currentKind?, Cursor.currentKind?, Cursor.current?, Cursor.current?, hc, hd]
  · rw [Cursor.currentKind?_of_after hc rfl, Cursor.currentKind?_of_after hd rfl, kind_eq htoken]

theorem Abreast.check_eq (h : Abreast k c d) (kind : TokenKind) : c.check kind = d.check kind := by
  rw [Cursor.check, Cursor.check, h.currentKind?_eq]

theorem Abreast.peekKind?_eq (h : Abreast k c d) (n : Nat) : c.peekKind? n = d.peekKind? n := by
  have hmap : c.after.map (fun t => t.kind) = d.after.map fun t => t.kind := by
    have hlexemes := congrArg (List.map Lexeme.kind) (lexemes_eq h.after)
    rw [List.map_map, List.map_map] at hlexemes
    exact hlexemes
  have hget := congrArg (fun kinds => kinds[n]?) hmap
  simpa [Cursor.peekKind?, Cursor.peek?] using hget

end Correspondence

end SystemVerilog
