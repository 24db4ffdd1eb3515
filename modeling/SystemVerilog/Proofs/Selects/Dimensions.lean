import SystemVerilog.Grammar.Declaration
import SystemVerilog.Proofs.Selects.Balance
import SystemVerilog.Proofs.Widening.Expressions

/-!
# Dimensions and part-selects

Two bounds in a dimension are told apart by a scan for the first colon outside brackets and conditionals, two
bounds in a part-select by where the first expression ends. Both hold the same bounds (`Cursor.HoldsBounds`). Since
the first bound is balanced, the scan finds the colon behind it; and since an expression cannot go on with a colon,
the first bound is read in front of the colon as it is read on its own.
-/

namespace SystemVerilog

open SystemVerilog.Parser

/-! ### What a span holds -/

/-- All of the span is read as two bounds with a colon between them. -/
def Cursor.HoldsBounds (c : Cursor) (left right : Expr Site) : Prop :=
  ∃ ts m us, c.after = ts ++ m :: us ∧ m.kind = .op .colon ∧ (c.cut ts.length).Holds left ∧
    (c.skip (ts.length + 1)).Holds right

section Interior

variable {c c' : Cursor} {budget : Nat} {left right index target : Expr Site} {tag site : Site}

/-! ### Part-selects -/

theorem selectorOf_index_iff (hbudget : c.after.length ≤ budget) :
    (∃ node c', selectorOf (expressionWithin budget .compares) target c = .ok (node, c') ∧
      ∃ tag target', node site = .index tag target' index) ↔ c.Holds index := by
  rw [Cursor.holds_iff_expressionWithin hbudget]
  constructor
  · rintro ⟨node, c', hread, tag, target', hnode⟩
    rcases selectorOf_eq_ok.1 hread with ⟨index', hindex, hend, rfl⟩ | ⟨_, _, _, _, _, _, _, _, _, _, rfl⟩
    · obtain ⟨-, -, rfl⟩ := Expr.index.inj hnode
      exact ⟨c', hindex, hend⟩
    · cases hnode
  · rintro ⟨c', hread, hend⟩
    exact ⟨_, c', selectorOf_eq_ok.2 (.inl ⟨index, hread, hend, rfl⟩), site, target, rfl⟩

theorem selectorOf_slice_iff (hbudget : c.after.length ≤ budget) :
    (∃ node c', selectorOf (expressionWithin budget .compares) target c = .ok (node, c') ∧
      ∃ tag target', node site = .slice tag .range target' left right) ↔ c.HoldsBounds left right := by
  constructor
  · rintro ⟨node, c', hread, tag, target', hnode⟩
    rcases selectorOf_eq_ok.1 hread with
      ⟨_, _, _, rfl⟩ | ⟨kind, left', c₁, m, us, right', hleft, hafter, hm, hright, rfl⟩
    · cases hnode
    · obtain ⟨-, rfl, -, rfl, rfl⟩ := Expr.slice.inj hnode
      obtain ⟨ts, hts, -⟩ := undividedAt_expressionWithin budget .compares 0 c hleft
      have hwhole : c.after = ts ++ m :: us := by rw [hts.after, hafter]
      refine ⟨ts, m, us, hwhole, hm, Cursor.holds_cut_of_read hwhole hleft hafter, ?_⟩
      rw [← Cursor.skip_skip, ← hts.eq_skip]
      have hshort : (c₁.skip 1).after.length ≤ budget := by
        have hlength := hts.length
        rw [Cursor.skip_after, List.length_drop]
        omega
      exact (Cursor.holds_iff_expressionWithin hshort).2 ⟨c', filling_eq_ok.1 hright⟩
  · rintro ⟨ts, m, us, hafter, hm, hleft, hright⟩
    have hread := Cursor.read_of_holds_cut hafter hleft (.of_colon hm) hbudget
    have hnext : (c.skip ts.length).after = m :: us := by rw [Cursor.skip_after, hafter, List.drop_left]
    have hshort : (c.skip (ts.length + 1)).after.length ≤ budget := by
      rw [Cursor.skip_after, List.length_drop]
      omega
    rw [Cursor.holds_iff_expressionWithin hshort, ← Cursor.skip_skip] at hright
    obtain ⟨c', hright⟩ := hright
    exact ⟨fun tag => .slice tag .range target left right, c', selectorOf_eq_ok.2 <|
      .inr ⟨.range, left, _, m, us, right, hread, hnext, hm, filling_eq_ok.2 hright, rfl⟩, site, target, rfl⟩

/-! ### Dimensions -/

/-- The interior of a dimension is split at the colon that the scan finds, or it is one size. -/
theorem dimensionInterior_eq_ok {node : Site → Dimension Site} : dimensionInterior c = .ok (node, c') ↔
    (∃ n left c₁ right, distanceAtTop? (.op .colon) 0 0 c.after = some n ∧
      filling "':'" expression (c.ahead n) = .ok (left, c₁) ∧
      filling "']'" expression (c.skip (n + 1)) = .ok (right, c') ∧ node = fun tag => .bounds ⟨tag, left, right⟩) ∨
    ∃ index, distanceAtTop? (.op .colon) 0 0 c.after = none ∧ filling "']'" expression c = .ok (index, c') ∧
      node = fun tag => .size tag index := by
  unfold dimensionInterior
  cases hn : distanceAtTop? (.op .colon) 0 0 c.after with
  | none =>
    have hspan : spanBefore? (distanceAtTop? (.op .colon) 0 0) c = .ok (none, c) := by simp [spanBefore?, hn]
    rw [bind_of_ok hspan]
    constructor
    · intro hread
      obtain ⟨index, c₁, hindex, hpure⟩ := bind_eq_ok.1 hread
      obtain ⟨rfl, rfl⟩ := pure_eq_ok.1 hpure
      exact .inr ⟨index, rfl, hindex, rfl⟩
    · rintro (⟨_, _, _, _, hsome, _⟩ | ⟨index, -, hindex, rfl⟩)
      · cases hsome
      · exact map_of_ok hindex
  | some n =>
    have hspan : spanBefore? (distanceAtTop? (.op .colon) 0 0) c = .ok (some (c.ahead n), c.skip (n + 1)) := by
      simp [spanBefore?, hn]
    rw [bind_of_ok hspan]
    constructor
    · intro hread
      obtain ⟨left, c₁, hleft, hrest⟩ := bind_eq_ok.1 hread
      obtain ⟨right, c₂, hright, hpure⟩ := bind_eq_ok.1 hrest
      obtain ⟨⟨c₃, hinside⟩, rfl⟩ := within_eq_ok.1 hleft
      obtain ⟨rfl, rfl⟩ := pure_eq_ok.1 hpure
      exact .inl ⟨n, left, c₃, right, rfl, hinside, hright, rfl⟩
    · rintro (⟨n', left, c₁, right, hsome, hleft, hright, rfl⟩ | ⟨_, hnone, _⟩)
      · obtain rfl := Option.some.inj hsome
        exact (bind_of_ok (within_eq_ok.2 ⟨⟨c₁, hleft⟩, rfl⟩)).trans (map_of_ok hright)
      · cases hnone

/-- An expression is balanced, so the scan passes over it. -/
theorem passes_top_of_holds {e : Expr Site} {ts : List Token} (h : c.Holds e) (hafter : c.after = ts) :
    Passes (distanceAtTop? (.op .colon) 0 0) (distanceAtTop? (.op .colon) 0 0) ts := by
  obtain ⟨c', hread, hend⟩ := h
  obtain ⟨us, hus, hundivided⟩ := undividedAt_expressionWithin _ .compares 0 c hread
  obtain rfl : ts = us := by rw [← hafter, hus.after, hend, List.append_nil]
  exact hundivided.balanced.passes_top (fun _ h => h) 0

theorem dimensionInterior_size_iff :
    (∃ node c', dimensionInterior c = .ok (node, c') ∧ ∃ tag, node site = .size tag index) ↔ c.Holds index := by
  constructor
  · rintro ⟨node, c', hread, tag, hnode⟩
    rcases dimensionInterior_eq_ok.1 hread with ⟨_, _, _, _, _, _, _, rfl⟩ | ⟨index', -, hindex, rfl⟩
    · cases hnode
    · obtain ⟨-, rfl⟩ := Dimension.size.inj hnode
      exact Cursor.holds_iff_filling.2 ⟨c', hindex⟩
  · intro hindex
    have hnone : distanceAtTop? (.op .colon) 0 0 c.after = none := by
      have hpasses : distanceAtTop? (.op .colon) 0 0 (c.after ++ []) = none :=
        (passes_top_of_holds hindex rfl).not_found rfl
      rwa [List.append_nil] at hpasses
    obtain ⟨c', hread⟩ := Cursor.holds_iff_filling.1 hindex
    exact ⟨fun tag => .size tag index, c', dimensionInterior_eq_ok.2 (.inr ⟨index, hnone, hread, rfl⟩), site, rfl⟩

/-- At the start of a span, a fresh cursor over the tokens ahead is the span cut behind them. -/
theorem Cursor.ahead_eq_cut (hfresh : c.before = []) (n : Nat) : c.ahead n = c.cut n := by
  obtain ⟨lead, start, before, after⟩ := c
  obtain rfl : before = [] := hfresh
  rfl

theorem dimensionInterior_bounds_iff (hfresh : c.before = []) :
    (∃ node c', dimensionInterior c = .ok (node, c') ∧ ∃ tag, node site = .bounds ⟨tag, left, right⟩) ↔
      c.HoldsBounds left right := by
  constructor
  · rintro ⟨node, c', hread, tag, hnode⟩
    rcases dimensionInterior_eq_ok.1 hread with ⟨n, left', c₁, right', hn, hleft, hright, rfl⟩ | ⟨_, _, _, rfl⟩
    · obtain ⟨-, rfl, rfl⟩ := Bounds.mk.inj (Dimension.bounds.inj hnode)
      obtain ⟨m, hafter, hlength, hkind⟩ := distanceAtTop?_parts hn
      rw [Cursor.ahead_eq_cut hfresh] at hleft
      refine ⟨c.after.take n, m, _, hafter, hkind, ?_, ?_⟩
      · rw [hlength]
        exact Cursor.holds_iff_filling.2 ⟨c₁, hleft⟩
      · rw [hlength]
        exact Cursor.holds_iff_filling.2 ⟨c', hright⟩
    · cases hnode
  · rintro ⟨ts, m, us, hafter, hm, hleft, hright⟩
    have hcut : (c.cut ts.length).after = ts := Cursor.cut_append_after hafter
    have hfound : distanceAtTop? (.op .colon) 0 0 (m :: us) = some 0 := by
      rw [distanceAtTop?, if_neg (by omega), if_pos hm]
    have hn : distanceAtTop? (.op .colon) 0 0 c.after = some ts.length := by
      rw [hafter]
      exact (passes_top_of_holds hleft hcut).found hfound
    obtain ⟨c₁, hleft⟩ := Cursor.holds_iff_filling.1 hleft
    obtain ⟨c', hright⟩ := Cursor.holds_iff_filling.1 hright
    rw [← Cursor.ahead_eq_cut hfresh] at hleft
    exact ⟨fun tag => .bounds ⟨tag, left, right⟩, c',
      dimensionInterior_eq_ok.2 (.inl ⟨ts.length, left, c₁, right, hn, hleft, hright, rfl⟩), site, rfl⟩

end Interior

/-! ### Bracket spans -/

/-- A square bracket, what stands in it, and the bracket that closes it. -/
structure SquarePair (o : Token) (ts : List Token) (cl : Token) : Prop where
  opens : o.kind = .op .lBracket
  closes : distanceToCloser? (.op .lBracket) (.op .rBracket) 0 (o :: (ts ++ [cl])) = some (ts.length + 1)

section Pairs

variable {c d : Cursor} {name o cl : Token} {ts rest : List Token}

/-- A dimension is read by reading its interior. -/
theorem dimension_iff (hpair : SquarePair o ts cl) (hd : d.after = o :: (ts ++ [cl]) ++ rest)
    (P : Dimension Site → Prop) : (∃ dim d', dimension d = .ok (dim, d') ∧ P dim) ↔
      ∃ node c', dimensionInterior ((d.skip 1).ahead ts.length) = .ok (node, c') ∧
        P (node ⟨d.location, ⟨d.position, (d.skip (ts.length + 2)).position⟩⟩) := by
  have hdistance : distanceToCloser? (.op .lBracket) (.op .rBracket) 0 d.after = some (ts.length + 1) := by
    rw [hd]
    exact distanceToCloser?_append hpair.closes rest
  have hopener : o.kind.inFamily (.op .lBracket) = true := by rw [hpair.opens]; rfl
  simp only [dimension, tagged_eq_ok, enclosed_eq_ok_of_found hd hopener hdistance]
  constructor
  · rintro ⟨dim, d', ⟨node, ⟨⟨c', hread⟩, rfl⟩, rfl⟩, hP⟩
    exact ⟨node, c', hread, hP⟩
  · rintro ⟨node, c', hread, hP⟩
    exact ⟨_, _, ⟨node, ⟨⟨c', hread⟩, rfl⟩, rfl⟩, hP⟩

/-- An expression that starts with a name without arguments goes on behind the name. -/
theorem expression_of_name (hname : name.kind.isName = true) (hc : c.after = name :: ts)
    (huncalled : ∀ t us, ts = t :: us → t.kind ≠ .op .lParen) :
    expression c = climbUpTo (expressionWithin c.after.length .compares) .compares 0 ts.length
      (.identifier ⟨c.location, ⟨c.position, (c.skip 1).position⟩⟩ name.text) (c.skip 1) := by
  have hrest : (c.skip 1).after = ts := by
    rw [Cursor.skip_after, hc]
    rfl
  have hoperand : operandOf (expressionWithin c.after.length .compares) c =
      .ok (.identifier ⟨c.location, ⟨c.position, (c.skip 1).position⟩⟩ name.text, c.skip 1) := by
    rw [operandOf_of_primary hc (UnaryOp.ofKind?_of_isName hname), primaryOf_of_isName hname]
    refine (bind_of_ok (tagged_of_ok rfl)).trans ?_
    exact callOf_complete_of_name (fun t us h => huncalled t us (hrest ▸ h)) _
  rw [← hrest]
  exact bind_of_ok hoperand

/-- A name with a select behind it is read by reading the interior of the select. -/
theorem expression_iff (hname : name.kind.isName = true) (hpair : SquarePair o ts cl)
    (hc : c.after = name :: o :: (ts ++ [cl])) (P : Expr Site → Prop) :
    (∃ e c', expression c = .ok (e, c') ∧ c'.after = [] ∧ P e) ↔
      ∃ node c', selectorOf (expressionWithin c.after.length .compares)
          (.identifier ⟨c.location, ⟨c.position, (c.skip 1).position⟩⟩ name.text)
          (((c.skip 1).skip 1).ahead ts.length) = .ok (node, c') ∧
        P (node ⟨c.location, ⟨c.position, ((c.skip 1).skip (ts.length + 2)).position⟩⟩) := by
  have hselect : (c.skip 1).after = o :: (ts ++ [cl]) := by
    rw [Cursor.skip_after, hc]
    rfl
  have hend : ((c.skip 1).skip (ts.length + 2)).after = [] := by
    rw [Cursor.skip_after, hselect]
    simp
  have hk : Connective.ofKind? .compares o.kind = some .select := by rw [hpair.opens]; rfl
  have huncalled : ∀ t us, o :: (ts ++ [cl]) = t :: us → t.kind ≠ .op .lParen := by
    intro t us h
    rw [← (List.cons.inj h).1, hpair.opens]
    decide
  rw [expression_of_name hname hc huncalled]
  generalize hlhs : (.identifier ⟨c.location, ⟨c.position, (c.skip 1).position⟩⟩ name.text : Expr Site) = lhs
  have hselector (node : Site → Expr Site) (c' : Cursor) :
      connectiveOf (expressionWithin c.after.length .compares) .select lhs (c.skip 1) = .ok (node, c') ↔
        (∃ c₁, selectorOf (expressionWithin c.after.length .compares) lhs (((c.skip 1).skip 1).ahead ts.length) =
          .ok (node, c₁)) ∧ c' = (c.skip 1).skip (ts.length + 2) :=
    enclosed_eq_ok_of_found hselect (by rw [hpair.opens]; rfl) (hselect ▸ hpair.closes)
  have hlast : ∀ node c₁, connectiveOf (expressionWithin c.after.length .compares) .select lhs (c.skip 1) =
      .ok (node, c₁) → c₁.after = [] := fun node c₁ h => by rw [((hselector node c₁).1 h).2, hend]
  constructor
  · rintro ⟨e, c', hread, -, hP⟩
    obtain ⟨node, hnode, rfl⟩ := (climbUpTo_last hselect hk (by decide) hlast).1 hread
    obtain ⟨⟨c₁, hinner⟩, rfl⟩ := (hselector node c').1 hnode
    rw [grown, ← hlhs] at hP
    exact ⟨node, c₁, hinner, hP⟩
  · rintro ⟨node, c', hinner, hP⟩
    have hnode := (hselector node _).2 ⟨⟨c', hinner⟩, rfl⟩
    refine ⟨_, _, (climbUpTo_last hselect hk (by decide) hlast).2 ⟨node, hnode, rfl⟩, hend, ?_⟩
    rw [grown, ← hlhs]
    exact hP

/-- A dimension has the bounds that the select behind a name has, if they are the same tokens at the same positions,
and so it is with a size and an index. -/
theorem dimension_iff_select (hname : name.kind.isName = true) (hpair : SquarePair o ts cl)
    (hc : c.after = name :: o :: (ts ++ [cl])) (hd : d.after = o :: (ts ++ [cl]) ++ rest)
    (hposition : d.position = c.position + 1) :
    (∀ left right, (∃ tag d', dimension d = .ok (.bounds ⟨tag, left, right⟩, d')) ↔
      ∃ tag target c', expression c = .ok (.slice tag .range target left right, c') ∧ c'.after = []) ∧
    (∀ index, (∃ tag d', dimension d = .ok (.size tag index, d')) ↔
      ∃ tag target c', expression c = .ok (.index tag target index, c') ∧ c'.after = []) := by
  have hinterior : ((c.skip 1).skip 1).ahead ts.length = (d.skip 1).ahead ts.length := by
    rw [Cursor.ahead, Cursor.ahead, Cursor.mk.injEq]
    refine ⟨?_, ?_, rfl, ?_⟩
    · simp [Cursor.readUpTo, hc, hd]
    · simp only [Cursor.position_skip]
      simp [hc, hd, hposition]
    · simp [hc, hd]
  have hbudget : ((d.skip 1).ahead ts.length).after.length ≤ c.after.length := by
    simp only [Cursor.ahead_after, Cursor.skip_after, hc, hd, List.length_cons, List.length_append, List.length_take]
    omega
  constructor
  · intro left right
    have hdimension := dimension_iff hpair hd fun dim => ∃ tag, dim = .bounds ⟨tag, left, right⟩
    have hexpression := expression_iff hname hpair hc fun e => ∃ tag target, e = .slice tag .range target left right
    rw [dimensionInterior_bounds_iff rfl] at hdimension
    rw [hinterior, selectorOf_slice_iff hbudget] at hexpression
    constructor
    · rintro ⟨tag, d', hread⟩
      obtain ⟨-, c', hread', hend, tag', target, rfl⟩ := hexpression.2 (hdimension.1 ⟨_, d', hread, tag, rfl⟩)
      exact ⟨tag', target, c', hread', hend⟩
    · rintro ⟨tag, target, c', hread, hend⟩
      obtain ⟨-, d', hread', tag', rfl⟩ := hdimension.2 (hexpression.1 ⟨_, c', hread, hend, tag, target, rfl⟩)
      exact ⟨tag', d', hread'⟩
  · intro index
    have hdimension := dimension_iff hpair hd fun dim => ∃ tag, dim = .size tag index
    have hexpression := expression_iff hname hpair hc fun e => ∃ tag target, e = .index tag target index
    rw [dimensionInterior_size_iff] at hdimension
    rw [hinterior, selectorOf_index_iff hbudget] at hexpression
    constructor
    · rintro ⟨tag, d', hread⟩
      obtain ⟨-, c', hread', hend, tag', target, rfl⟩ := hexpression.2 (hdimension.1 ⟨_, d', hread, tag, rfl⟩)
      exact ⟨tag', target, c', hread', hend⟩
    · rintro ⟨tag, target, c', hread, hend⟩
      obtain ⟨-, d', hread', tag', rfl⟩ := hdimension.2 (hexpression.1 ⟨_, c', hread, hend, tag, target, rfl⟩)
      exact ⟨tag', d', hread'⟩

/-- The select in `r[s ? a : b : z]` has the bounds that the dimension has. -/
theorem dimension_iff_select_conditional :
    let token (kind : TokenKind) (text : String) : Token := ⟨⟨kind, text⟩, 0, .origin, .origin⟩
    let ts := [token .identifier "s", token (.op .questionMark) "?", token .identifier "a", token (.op .colon) ":",
      token .identifier "b", token (.op .colon) ":", token .identifier "z"]
    let c : Cursor := ⟨.origin, 0, [], token .identifier "r" :: token (.op .lBracket) "[" ::
      (ts ++ [token (.op .rBracket) "]"])⟩
    ∃ left right, (∃ tag d', dimension (c.skip 1) = .ok (.bounds ⟨tag, left, right⟩, d')) ∧
      (∃ tag target c', expression c = .ok (.slice tag .range target left right, c') ∧ c'.after = []) ∧
      left.erase = .conditional () (.identifier () "s") (.identifier () "a") (.identifier () "b") ∧
      right.erase = .identifier () "z" := by
  intro token ts c
  have hpair : SquarePair (token (.op .lBracket) "[") ts (token (.op .rBracket) "]") := ⟨rfl, by decide⟩
  have hc : c.after = token .identifier "r" :: token (.op .lBracket) "[" :: (ts ++ [token (.op .rBracket) "]"]) := rfl
  have hd : (c.skip 1).after = token (.op .lBracket) "[" :: (ts ++ [token (.op .rBracket) "]"]) ++ [] := rfl
  obtain ⟨hbounds, -⟩ := dimension_iff_select rfl hpair hc hd rfl
  exact ⟨_, _, ⟨_, _, rfl⟩, (hbounds _ _).1 ⟨_, _, rfl⟩, rfl, rfl⟩

end Pairs

end SystemVerilog
