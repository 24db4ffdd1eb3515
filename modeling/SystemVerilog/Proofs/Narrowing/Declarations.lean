import SystemVerilog.Proofs.Narrowing.Expressions
import SystemVerilog.Proofs.Ranges.Declarations
import SystemVerilog.Proofs.Selects.Dimensions

/-!
# Declarations do not depend on what stands behind them

Data types, declarators and the entries of module headers are read from a span as from every shorter span that
holds them. What stands between the brackets of a dimension is read to the closing bracket, so no shorter span
comes into question there.
-/

namespace SystemVerilog

open SystemVerilog.Parser

/-- All that stands between the brackets of a dimension is read. -/
theorem dimensionInterior_fills {c c' : Cursor} {node : Site → Dimension Site}
    (h : dimensionInterior c = .ok (node, c')) : c'.after = [] ∧ ∃ k, c' = c.skip k := by
  have hfills {n : Nat} {e : Expr Site} (h : filling "']'" expression (c.skip n) = .ok (e, c')) :
      c'.after = [] ∧ ∃ k, c' = c.skip k := by
    obtain ⟨hread, hend⟩ := filling_eq_ok.1 h
    obtain ⟨ts, hts, -⟩ := undividedAt_expressionWithin _ .compares 0 _ hread
    exact ⟨hend, n + ts.length, by rw [hts.eq_skip, Cursor.skip_skip]⟩
  rcases dimensionInterior_eq_ok.1 h with ⟨_, _, _, _, _, _, hright, _⟩ | ⟨_, _, hindex, _⟩
  · exact hfills hright
  · exact hfills (n := 0) hindex

namespace NarrowsAt

variable {α : Type} {bound : Nat} {c : Cursor} {p q : Parser α}

/-- A reader that is known to move on reads at least one token. -/
theorem of_moves (h : NarrowsAt bound 0 c p q) (hmoves : ∀ ts, Moves ts c p) : NarrowsAt bound 1 c p q := by
  intro a c' hread
  obtain ⟨k, -, hlen, rfl, hq⟩ := h hread
  obtain ⟨ts, hc⟩ := c.exists_sees
  have hlt := hmoves ts hc hread
  refine ⟨k, Nat.pos_of_ne_zero ?_, hlen, rfl, hq⟩
  rintro rfl
  exact Nat.lt_irrefl _ hlt

/-! ### Dimensions and data types -/

theorem expression : NarrowsAt bound 1 c Parser.expression Parser.expression :=
  of_length (p := fun n => Parser.expressionWithin (n + 1) .compares 0)
    (q := fun n => Parser.expressionWithin (n + 1) .compares 0) fun _ _ =>
      expressionWithin _ (Nat.le_succ _) .compares 0

theorem dimension : NarrowsAt bound 1 c Parser.dimension Parser.dimension :=
  .tagged <| .enclosed fun _ => .of_fills fun _ _ => dimensionInterior_fills

theorem packedBounds : NarrowsAt bound 1 c Parser.packedBounds Parser.packedBounds :=
  .location <| .lead dimension fun d _ => by
    cases d with
    | bounds b => exact .pure b
    | size tag index => exact .of_error fun _ _ => fail_ne_ok

theorem typeParts : NarrowsAt bound 0 c Parser.typeParts Parser.typeParts := by
  refine .step (tryBy _) fun keyword c₁ => .step (?_ : NarrowsAt _ 0 _ (signingOf keyword) _) fun signing c₂ =>
    .step (?_ : NarrowsAt _ 0 _ (packedOf keyword) _) fun packed _ => .pure _
  · unfold signingOf
    split
    · exact tryBy _
    · exact .pure none
  · unfold packedOf
    split
    · exact bracketed fun _ => packedBounds
    · exact .pure []

theorem dataType : NarrowsAt bound 0 c Parser.dataType Parser.dataType := by
  rw [dataType_eq]
  refine .currentKind? (fun kind hkind => ?_) (.pure none)
  dsimp only
  by_cases hstarts : kind.startsDataType = true
  · rw [if_pos hstarts]
    obtain ⟨t, rest, hafter, rfl⟩ := Cursor.after_of_kind hkind
    exact .inl (.tagged (typeParts.of_moves fun _ => Moves.typeParts hafter hstarts))
  · rw [if_neg hstarts]
    exact .inr ⟨rfl, rfl⟩

/-! ### Declarators and entries -/

theorem declarator : NarrowsAt bound 1 c Parser.declarator Parser.declarator := by
  refine .tagged <| .lead name fun _ _ => .step (bracketed fun _ => dimension) fun _ _ =>
    .step (eat _) fun found c₁ => ?_
  split
  · exact .step expression.uncounted fun _ _ => .pure _
  · exact .pure _

theorem parameterKeyword : NarrowsAt bound 0 c Parser.parameterKeyword Parser.parameterKeyword := by
  refine .step (eat _) fun found c₁ => ?_
  split
  · exact .pure _
  · refine .step (eat _) fun found c₁ => ?_
    split
    · exact .pure _
    · exact .pure _

theorem parameterEntry : NarrowsAt bound 1 c Parser.parameterEntry Parser.parameterEntry :=
  .tagged <| .step parameterKeyword fun _ _ => .step dataType fun _ _ => .lead declarator fun _ _ => .pure _

theorem portEntry : NarrowsAt bound 1 c Parser.portEntry Parser.portEntry :=
  .tagged <| .step (tryBy _) fun _ _ => .step (tryBy _) fun _ _ => .step dataType fun _ _ =>
    .lead declarator fun _ _ => .pure _

end NarrowsAt

end SystemVerilog
