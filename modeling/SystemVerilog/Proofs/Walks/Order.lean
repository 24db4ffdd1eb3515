import SystemVerilog.Proofs.Walks.Segments

/-!
# The order of a walk

Where the tokens of an expression are laid out as its segments say, the parts of the expression stand one behind the
other, and each leaves a token of its own to the expression. So a walk comes by its expressions in the order of the
text, by the larger one first where two start together, and no two of them have the same range.
-/

namespace SystemVerilog

/-- A token at an index makes up a segment. -/
def Segment.Fits (index : Nat) (t : Token) : Segment → Prop
  | mark => t.kind.isNeutral = true
  | unit index' => index' = index ∧ t.kind.isName = true
  | name text => t.kind.isName = true ∧ t.text = text
  | qualified | part _ => False

theorem Segment.Fits.walk_eq {index : Nat} {t : Token} {seg : Segment} (h : seg.Fits index t) : seg.walk = [] := by
  cases seg with
  | part e => cases h
  | _ => rfl

/-- The tokens from an index on are laid out as the segments say, and those of every part as its own segments say. -/
inductive Occupies : Nat → List Segment → List Token → Prop
  | nil {start : Nat} : Occupies start [] []
  | token {start : Nat} {t : Token} {seg : Segment} {segs : List Segment} {us : List Token} (fits : seg.Fits start t)
    (rest : Occupies (start + 1) segs us) : Occupies start (seg :: segs) (t :: us)
  | qualified {start : Nat} {qualifier word : Token} {segs : List Segment} {us : List Token}
    (qualifies : qualifier.kind.isQualifier = true) (plain : word.kind.isQualifier = false)
    (rest : Occupies (start + 2) segs us) : Occupies start (.qualified :: segs) (qualifier :: word :: us)
  | part {start : Nat} {e : Expr Site} {segs : List Segment} {us vs : List Token}
    (range : e.tag.range = ⟨start, start + us.length⟩) (inner : Occupies start e.segments us)
    (rest : Occupies (start + us.length) segs vs) : Occupies start (.part e :: segs) (us ++ vs)

/-- The expression starts earlier than another one, or where the other starts, and is longer. -/
def Expr.Precedes (e e' : Expr Site) : Prop :=
  e.tag.range.start < e'.tag.range.start ∨
    e.tag.range.start = e'.tag.range.start ∧ e'.tag.range.stop < e.tag.range.stop

/-- The range of an expression lies between two indices and holds a token. -/
structure Expr.Lies (start stop : Nat) (e : Expr Site) : Prop where
  start_le : start ≤ e.tag.range.start
  lt : e.tag.range.start < e.tag.range.stop
  stop_le : e.tag.range.stop ≤ stop

theorem Expr.Lies.mono {start stop start' stop' : Nat} {e : Expr Site} (h : e.Lies start stop) (hs : start' ≤ start)
    (ht : stop ≤ stop') : e.Lies start' stop' :=
  ⟨Nat.le_trans hs h.start_le, h.lt, Nat.le_trans h.stop_le ht⟩

namespace Occupies

variable {start : Nat} {segs segs' : List Segment} {us vs : List Token} {e e' : Expr Site}

theorem append (h : Occupies start segs us) (h' : Occupies (start + us.length) segs' vs) :
    Occupies start (segs ++ segs') (us ++ vs) := by
  induction h with
  | nil => exact h'
  | token hfits _ ih => exact .token hfits (ih (by rwa [Nat.add_assoc, Nat.add_comm 1]))
  | qualified hq hw _ ih => exact .qualified hq hw (ih (by rwa [Nat.add_assoc, Nat.add_comm 2]))
  | part hrange hinner _ _ ih =>
    rw [List.append_assoc]
    exact .part hrange hinner (ih (by rwa [Nat.add_assoc, ← List.length_append]))

/-- Every segment has a token. -/
theorem length_le (h : Occupies start segs us) : segs.length ≤ us.length := by
  induction h with
  | nil => exact Nat.le_refl 0
  | token _ _ ih => exact Nat.succ_le_succ ih
  | qualified _ _ _ ih => exact Nat.le_succ_of_le (Nat.succ_le_succ ih)
  | @part _ e _ us _ _ _ _ hinner ih =>
    have hpos := List.length_pos_iff.2 e.segments_ne_nil
    rw [List.length_cons, List.length_append]
    omega

/-- A part holds a token. -/
theorem part_pos (h : Occupies start e.segments us) : 0 < us.length :=
  Nat.lt_of_lt_of_le (List.length_pos_iff.2 e.segments_ne_nil) h.length_le

/-- What is walked in the segments lies in their tokens. -/
theorem lies (h : Occupies start segs us) : ∀ x ∈ segs.flatMap Segment.walk, x.Lies start (start + us.length) := by
  induction h with
  | nil => nofun
  | token hfits _ ih =>
    rw [List.flatMap_cons, hfits.walk_eq, List.length_cons]
    exact fun x hx => (ih x hx).mono (Nat.le_succ _) (by omega)
  | qualified _ _ _ ih =>
    exact fun x hx => (ih x hx).mono (Nat.le_add_right ..) (by rw [List.length_cons, List.length_cons]; omega)
  | @part start e segs us vs hrange hinner _ ihinner ih =>
    have hpos := hinner.part_pos
    rw [List.flatMap_cons, Segment.walk, Expr.walk_eq_segments, List.length_append]
    refine List.forall_mem_append.2 ⟨List.forall_mem_cons.2 ⟨?_, fun x hx => ?_⟩, fun x hx => ?_⟩
    · refine ⟨?_, ?_, ?_⟩ <;> rw [hrange] <;> dsimp only <;> omega
    · exact (ihinner x hx).mono (Nat.le_refl _) (by omega)
    · exact (ih x hx).mono (Nat.le_add_right ..) (by omega)

/-- What is walked in several segments does not take up all their tokens. -/
theorem narrower (h : Occupies start segs us) (hsegs : ∀ e, segs ≠ [.part e]) :
    ∀ x ∈ segs.flatMap Segment.walk, start < x.tag.range.start ∨ x.tag.range.stop < start + us.length := by
  cases h with
  | nil => nofun
  | token hfits hrest =>
    rw [List.flatMap_cons, hfits.walk_eq]
    exact fun x hx => .inl (hrest.lies x hx).start_le
  | qualified _ _ hrest => exact fun x hx => .inl (Nat.lt_of_succ_lt (hrest.lies x hx).start_le)
  | @part _ e segs us vs hrange hinner hrest =>
    have hpos := hinner.part_pos
    have hbehind : 0 < segs.length := List.length_pos_iff.2 fun hnil => hsegs e (hnil ▸ rfl)
    have hlength := hrest.length_le
    have hfirst : Occupies start [.part e] (us ++ []) := .part hrange hinner .nil
    rw [List.flatMap_cons, List.length_append]
    refine List.forall_mem_append.2 ⟨fun x hx => .inr ?_, fun x hx => .inl ?_⟩
    · have hstop := (hfirst.lies x (by simpa using hx)).stop_le
      rw [List.append_nil] at hstop
      omega
    · have hstart := (hrest.lies x hx).start_le
      omega

/-- The walks of the segments, one behind the other, are in order. -/
theorem pairwise_precedes (h : Occupies start segs us) : (segs.flatMap Segment.walk).Pairwise Expr.Precedes := by
  induction h with
  | nil => exact .nil
  | token hfits _ ih =>
    rw [List.flatMap_cons, hfits.walk_eq]
    exact ih
  | qualified _ _ _ ih => exact ih
  | @part start e segs us vs hrange hinner hrest ihinner ih =>
    rw [List.flatMap_cons, Segment.walk, Expr.walk_eq_segments]
    refine List.pairwise_append.2 ⟨List.pairwise_cons.2 ⟨fun x hx => ?_, ihinner⟩, ih, fun x hx y hy => .inl ?_⟩
    · have hlies := hinner.lies x hx
      have hnarrow := hinner.narrower e.segments_ne_part x hx
      have hstart := hlies.start_le
      simp only [Expr.Precedes, hrange]
      omega
    · have hbehind := (hrest.lies y hy).start_le
      have hfront : x.tag.range.start < start + us.length := by
        rcases List.mem_cons.1 hx with rfl | hx
        · rw [hrange]
          exact Nat.lt_add_of_pos_right hinner.part_pos
        · exact Nat.lt_of_lt_of_le (hinner.lies x hx).lt (hinner.lies x hx).stop_le
      omega

end Occupies

/-- Expressions in order have different ranges. -/
theorem nodup_ranges {es : List (Expr Site)} (h : es.Pairwise Expr.Precedes) :
    (es.map fun e => e.tag.range).Nodup := by
  refine List.pairwise_map.2 (h.imp fun {e e'} hprecedes heq => ?_)
  rw [Expr.Precedes, heq] at hprecedes
  omega

end SystemVerilog
