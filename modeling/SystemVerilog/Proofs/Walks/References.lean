import SystemVerilog.Proofs.Walks.Layout

/-!
# The names that an expression refers to

A token of an expression is a reference if it is a name, does not stand behind a qualifier, and is not the unit of a
delay. `referencesIn` collects the references of a range from the tokens alone. Where an expression does not itself
start behind a qualifier, a walk through its tree collects the same names in the same order.
-/

namespace SystemVerilog

variable {code : List Token}

/-- Whether the token before an index is a qualifier. -/
def qualifiedAt (code : List Token) : Nat → Bool
  | 0 => false
  | i + 1 => code[i]?.any fun t => t.kind.isQualifier

/-- The text of the token at an index, if it is a name that is neither qualified nor the unit of a delay. -/
def referenceAt? (code : List Token) (units : List Nat) (i : Nat) : Option String :=
  code[i]?.bind fun t =>
    if t.kind.isName = true ∧ qualifiedAt code i = false ∧ i ∉ units then some t.text else none

/-- The references among the tokens of a range, in the order of the text. -/
def referencesIn (code : List Token) (units : List Nat) (range : TokenRange) : List String :=
  (List.range' range.start range.length).filterMap (referenceAt? code units)

/-- The names that the expression refers to are the references among its tokens. -/
def Expr.Collects (code : List Token) (e : Expr Site) : Prop :=
  e.identifiers = referencesIn code e.unitIndices e.tag.range

/-! ### Tokens at an index -/

section Tokens

variable {i : Nat} {t : Token} {units : List Nat} {us vs : List Token}

theorem cons_prefix_drop (h : t :: us <+: code.drop i) : code[i]? = some t ∧ us <+: code.drop (i + 1) := by
  obtain ⟨rest, hrest⟩ := h
  have hget : (code.drop i)[0]? = some t := by rw [← hrest]; rfl
  refine ⟨by rwa [List.getElem?_drop, Nat.add_zero] at hget, rest, ?_⟩
  rw [← List.drop_drop, ← hrest]
  rfl

theorem append_prefix_drop (h : us ++ vs <+: code.drop i) :
    us <+: code.drop i ∧ vs <+: code.drop (i + us.length) := by
  refine ⟨(List.prefix_append us vs).trans h, ?_⟩
  obtain ⟨rest, hrest⟩ := h
  refine ⟨rest, ?_⟩
  rw [← List.drop_drop, ← hrest, List.append_assoc, List.drop_left]

theorem qualifiedAt_succ (h : code[i]? = some t) : qualifiedAt code (i + 1) = t.kind.isQualifier := by
  rw [qualifiedAt, h, Option.any_some]

theorem referenceAt?_of_getElem? (h : code[i]? = some t) : referenceAt? code units i =
    if t.kind.isName = true ∧ qualifiedAt code i = false ∧ i ∉ units then some t.text else none := by
  rw [referenceAt?, h, Option.bind_some]

theorem referenceAt?_eq_none (h : code[i]? = some t)
    (hnot : t.kind.isName = false ∨ qualifiedAt code i = true ∨ i ∈ units) : referenceAt? code units i = none := by
  rw [referenceAt?_of_getElem? h, if_neg]
  rintro ⟨hname, hqualified, hunit⟩
  rcases hnot with h | h | h
  · rw [h] at hname
    cases hname
  · rw [h] at hqualified
    cases hqualified
  · exact hunit h

/-- Units that are known over two neighbouring ranges are known over each of them. -/
theorem units_split {is js : List Nat} {start middle stop : Nat} (hfront : start ≤ middle) (hback : middle ≤ stop)
    (hbelow : ∀ i ∈ is, i < middle) (habove : ∀ i ∈ js, middle ≤ i)
    (h : ∀ i, start ≤ i → i < stop → (i ∈ units ↔ i ∈ is ++ js)) :
    (∀ i, start ≤ i → i < middle → (i ∈ units ↔ i ∈ is)) ∧ ∀ i, middle ≤ i → i < stop → (i ∈ units ↔ i ∈ js) := by
  refine ⟨fun i hstart hmiddle => ?_, fun i hmiddle hstop => ?_⟩
  · rw [h i hstart (by omega), List.mem_append, or_iff_left fun hmem => ?_]
    exact absurd (habove i hmem) (Nat.not_le.2 hmiddle)
  · rw [h i (by omega) hstop, List.mem_append, or_iff_right fun hmem => ?_]
    exact absurd (hbelow i hmem) (Nat.not_lt.2 hmiddle)

end Tokens

/-! ### References in segments -/

theorem Segment.Fits.isQualifier {i : Nat} {t : Token} {seg : Segment} (h : seg.Fits i t) :
    t.kind.isQualifier = false := by
  cases seg with
  | mark => exact TokenKind.isQualifier_of_isNeutral h
  | unit => exact TokenKind.isQualifier_of_isName h.2
  | name => exact TokenKind.isQualifier_of_isName h.1
  | qualified => cases h
  | part => cases h

/-- The only unit that a token can be is itself. -/
theorem Segment.Fits.eq_of_mem_unitIndices {i j : Nat} {t : Token} {seg : Segment} (h : seg.Fits i t)
    (hj : j ∈ seg.unitIndices) : j = i := by
  cases seg with
  | unit => exact (List.mem_singleton.1 hj).trans h.1
  | part => cases h
  | _ => cases hj

/-- A token is a reference where its segment says so. -/
theorem Segment.Fits.referenceAt? {i : Nat} {t : Token} {seg : Segment} {units : List Nat} (h : seg.Fits i t)
    (hget : code[i]? = some t) (hplain : qualifiedAt code i = false) (hunits : i ∈ units ↔ i ∈ seg.unitIndices) :
    (SystemVerilog.referenceAt? code units i).toList = seg.names := by
  cases seg with
  | mark => rw [referenceAt?_eq_none hget (.inl (TokenKind.isName_of_isNeutral h))]; rfl
  | unit index => rw [referenceAt?_eq_none hget (.inr (.inr (hunits.2 (List.mem_singleton.2 h.1.symm))))]; rfl
  | name text =>
    have hnot : i ∉ units := fun hmem => nomatch hunits.1 hmem
    rw [referenceAt?_of_getElem? hget, if_pos ⟨h.1, hplain, hnot⟩, h.2]
    rfl
  | qualified => cases h
  | part => cases h

namespace Occupies

variable {start : Nat} {segs : List Segment} {us : List Token} {units : List Nat}

/-- No name behind an expression is qualified by its last token. -/
theorem qualifiedAt_stop (h : Occupies start segs us) (hus : us <+: code.drop start)
    (hplain : qualifiedAt code start = false) : qualifiedAt code (start + us.length) = false := by
  induction h with
  | nil => exact hplain
  | token hfits _ ih =>
    obtain ⟨hget, hrest⟩ := cons_prefix_drop hus
    rw [List.length_cons, ← Nat.add_assoc, Nat.add_right_comm]
    exact ih hrest (by rw [qualifiedAt_succ hget, hfits.isQualifier])
  | qualified _ hword _ ih =>
    obtain ⟨-, hrest⟩ := cons_prefix_drop hus
    obtain ⟨hget, hrest⟩ := cons_prefix_drop hrest
    rw [List.length_cons, List.length_cons, ← Nat.add_assoc, Nat.add_right_comm, ← Nat.add_assoc, Nat.add_right_comm]
    exact ih hrest (by rw [qualifiedAt_succ hget, hword])
  | part _ _ _ ihinner ih =>
    obtain ⟨hinner, hrest⟩ := append_prefix_drop hus
    rw [List.length_append, ← Nat.add_assoc]
    exact ih hrest (ihinner hinner hplain)

/-- The units of delays in segments are among their tokens. -/
theorem unitIndices_bounds (h : Occupies start segs us) :
    ∀ i ∈ segs.flatMap Segment.unitIndices, start ≤ i ∧ i < start + us.length := by
  induction h with
  | nil => nofun
  | token hfits _ ih =>
    rw [List.flatMap_cons, List.length_cons]
    refine List.forall_mem_append.2 ⟨fun i hi => ?_, fun i hi => ?_⟩
    · rw [hfits.eq_of_mem_unitIndices hi]
      omega
    · have hbounds := ih i hi
      omega
  | qualified _ _ _ ih =>
    rw [List.length_cons, List.length_cons]
    intro i hi
    have hbounds := ih i hi
    omega
  | part _ _ _ ihinner ih =>
    rw [List.flatMap_cons, List.length_append]
    refine List.forall_mem_append.2 ⟨fun i hi => ?_, fun i hi => ?_⟩
    · have hbounds := ihinner i (Expr.mem_unitIndices_iff.1 hi)
      omega
    · have hbounds := ih i hi
      omega

/-- The names in segments are the references among their tokens, if the units of delays among these tokens are known. -/
theorem names_eq (h : Occupies start segs us) (hus : us <+: code.drop start) (hplain : qualifiedAt code start = false)
    (hunits : ∀ i, start ≤ i → i < start + us.length → (i ∈ units ↔ i ∈ segs.flatMap Segment.unitIndices)) :
    segs.flatMap Segment.names = (List.range' start us.length).filterMap (referenceAt? code units) := by
  induction h with
  | nil => rfl
  | @token start t seg segs us hfits hrest ih =>
    obtain ⟨hget, hus⟩ := cons_prefix_drop hus
    rw [List.length_cons, Nat.add_comm us.length, ← Nat.add_assoc, List.flatMap_cons] at hunits
    obtain ⟨hhead, htail⟩ := units_split (Nat.le_succ start) (Nat.le_add_right _ _)
      (fun i hi => Nat.lt_succ_of_le (Nat.le_of_eq (hfits.eq_of_mem_unitIndices hi)))
      (fun i hi => (hrest.unitIndices_bounds i hi).1) hunits
    have hplain' : qualifiedAt code (start + 1) = false := by rw [qualifiedAt_succ hget, hfits.isQualifier]
    rw [List.flatMap_cons, ← hfits.referenceAt? hget hplain (hhead start (Nat.le_refl _) (Nat.lt_succ_self _)),
      ih hus hplain' htail, List.length_cons, List.range'_succ, List.filterMap_cons]
    cases SystemVerilog.referenceAt? code units start <;> rfl
  | @qualified start qualifier word segs us hqualifies hword hrest ih =>
    obtain ⟨hget, hus⟩ := cons_prefix_drop hus
    obtain ⟨hget', hus⟩ := cons_prefix_drop hus
    rw [List.length_cons, List.length_cons] at hunits
    have hqualified : qualifiedAt code (start + 1) = true := by rw [qualifiedAt_succ hget, hqualifies]
    have hplain' : qualifiedAt code (start + 1 + 1) = false := by rw [qualifiedAt_succ hget', hword]
    have hhead : referenceAt? code units start = none :=
      referenceAt?_eq_none hget (.inl (TokenKind.isName_of_isQualifier hqualifies))
    have hsecond : referenceAt? code units (start + 1) = none :=
      referenceAt?_eq_none hget' (.inr (.inl hqualified))
    rw [List.flatMap_cons, ih hus hplain' fun i _ _ => hunits i (by omega) (by omega), List.length_cons,
      List.length_cons, List.range'_succ, List.range'_succ, List.filterMap_cons, hhead, List.filterMap_cons, hsecond]
    rfl
  | @part start e segs us vs hrange hinner hrest ihinner ih =>
    obtain ⟨hus, hvs⟩ := append_prefix_drop hus
    rw [List.length_append, ← Nat.add_assoc, List.flatMap_cons] at hunits
    obtain ⟨hfront, hbehind⟩ := units_split (Nat.le_add_right _ _) (Nat.le_add_right _ _)
      (fun i hi => (hinner.unitIndices_bounds i (Expr.mem_unitIndices_iff.1 hi)).2)
      (fun i hi => (hrest.unitIndices_bounds i hi).1) hunits
    have hfront' (i : Nat) (hstart : start ≤ i) (hstop : i < start + us.length) :
        i ∈ units ↔ i ∈ e.segments.flatMap Segment.unitIndices :=
      (hfront i hstart hstop).trans Expr.mem_unitIndices_iff
    rw [List.flatMap_cons, Segment.names, Expr.identifiers_eq_segments, ihinner hus hplain hfront',
      ih hvs (hinner.qualifiedAt_stop hus hplain) hbehind, ← List.filterMap_append, List.range'_append_1,
      List.length_append]

/-- Every expression that a walk through segments comes by collects the references among its tokens. -/
theorem collects (h : Occupies start segs us) (hus : us <+: code.drop start) (hplain : qualifiedAt code start = false) :
    ∀ x ∈ segs.flatMap Segment.walk, x.Collects code := by
  induction h with
  | nil => nofun
  | token hfits _ ih =>
    obtain ⟨hget, hus⟩ := cons_prefix_drop hus
    rw [List.flatMap_cons, hfits.walk_eq]
    exact ih hus (by rw [qualifiedAt_succ hget, hfits.isQualifier])
  | qualified _ hword _ ih =>
    obtain ⟨-, hus⟩ := cons_prefix_drop hus
    obtain ⟨hget, hus⟩ := cons_prefix_drop hus
    exact ih hus (by rw [qualifiedAt_succ hget, hword])
  | @part start e segs us vs hrange hinner _ ihinner ih =>
    obtain ⟨hus, hvs⟩ := append_prefix_drop hus
    rw [List.flatMap_cons, Segment.walk, Expr.walk_eq_segments]
    refine List.forall_mem_append.2 ⟨List.forall_mem_cons.2 ⟨?_, ihinner hus hplain⟩,
      ih hvs (hinner.qualifiedAt_stop hus hplain)⟩
    rw [Expr.Collects, referencesIn, hrange, Expr.identifiers_eq_segments, TokenRange.length, Nat.add_sub_cancel_left]
    exact hinner.names_eq hus hplain fun _ _ _ => Expr.mem_unitIndices_iff

end Occupies

end SystemVerilog
