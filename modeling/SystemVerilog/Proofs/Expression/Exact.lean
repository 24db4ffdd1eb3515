import SystemVerilog.Proofs.Expression.Complete
import SystemVerilog.Proofs.Expression.Sound

/-!
# The grammar of expressions is exact

Where no delay is written, the trees that an expression reader gives for a whole span are the canonical
expressions that the span spells, no more and no fewer. There is at most one of them.
-/

namespace SystemVerilog

namespace Parser

variable {c : Cursor} {e e' : Expr Unit}

/-- Every canonical expression that a span spells is read from it. -/
theorem expressionWithin_of_spells {reading : LessEqualReading} (message : String) (hcan : e.Canonical reading)
    (hspell : e.Spells c.after) :
    ∃ tree c', filling message (expressionWithin (budget c) reading 0) c = .ok (tree, c') ∧ tree.erase = e := by
  have hs : c.Steps c.after (c.skip c.after.length) := .of_after (List.append_nil _).symm
  have hend : (c.skip c.after.length).after = [] := by simp
  obtain ⟨tree, hread, herase⟩ :=
    expressionWithin_complete (Nat.zero_le _) hs hspell hcan e.one_le_level (hend ▸ .nil)
  exact ⟨tree, _, filling_eq_ok.2 ⟨hread, hend⟩, herase⟩

/-- Both readings of `<=`: a span is read as the canonical expressions that it spells. -/
theorem expressionWithin_exact (reading : LessEqualReading) (message : String) (hc : Undelayed c) :
    (∃ tree c', filling message (expressionWithin (budget c) reading 0) c = .ok (tree, c') ∧
      tree.erase = e) ↔ e.Canonical reading ∧ e.Spells c.after := by
  constructor
  · rintro ⟨tree, c', hread, rfl⟩
    obtain ⟨hread, hend⟩ := filling_eq_ok.1 hread
    obtain ⟨⟨ts, hts, hspell⟩, hcan, -, -⟩ := expressionWithin_sound _ _ hc hread
    rw [steps_to_end hts hend]
    exact ⟨(Expr.canonical_map _ _ tree).2 hcan, (Expr.spells_map _ tree _).2 hspell⟩
  · rintro ⟨hcan, hspell⟩
    exact expressionWithin_of_spells message hcan hspell

/-- Reading an expression and demanding the end of the span succeeds with a tree if and only if the
tree is canonical and spelled by exactly the tokens of the span. -/
theorem expression_exact (message : String) (c : Cursor) (hc : ∀ t ∈ c.after, t.kind ≠ .op .sharp)
    (e : Expr Unit) :
    (∃ tree c', filling message expression c = .ok (tree, c') ∧ tree.erase = e) ↔
      e.Canonical .compares ∧ e.Spells c.after := by
  rw [← expressionWithin_exact .compares message hc]
  simp only [filling_eq_ok]
  exact Iff.rfl

/-- The tokens of `s ? -a : b` are read as that conditional. -/
theorem expression_exact_conditional :
    let token (kind : TokenKind) (text : String) : Token := ⟨⟨kind, text⟩, 0, .origin, .origin⟩
    let c : Cursor := ⟨.origin, 0, [], [token .identifier "s", token (.op .questionMark) "?",
      token (.op .sub) "-", token .identifier "a", token (.op .colon) ":", token .identifier "b"]⟩
    (∀ t ∈ c.after, t.kind ≠ .op .sharp) ∧
      ∃ tree c', filling "end of expression" expression c = .ok (tree, c') ∧ tree.erase =
        .conditional () (.identifier () "s") (.unary () .minus (.identifier () "a"))
          (.identifier () "b") := by
  intro token c
  have hc : ∀ t ∈ c.after, t.kind ≠ .op .sharp := by decide
  refine ⟨hc, (expression_exact "end of expression" c hc _).2 ⟨?_, ?_⟩⟩
  · exact ⟨by decide, by decide, trivial, ⟨by decide, trivial⟩, trivial⟩
  · exact ⟨[_], _, [_, _], _, [_], rfl, ⟨_, rfl, rfl, rfl⟩, rfl,
      ⟨_, [_], rfl, List.mem_singleton.2 rfl, _, rfl, rfl, rfl⟩, rfl, ⟨_, rfl, rfl, rfl⟩⟩

/-- The same at the head of a statement. -/
theorem statementExpression_exact (message : String) (hc : Undelayed c) :
    (∃ tree c', filling message statementExpression c = .ok (tree, c') ∧ tree.erase = e) ↔
      e.Canonical .assigns ∧ e.Spells c.after := by
  rw [← expressionWithin_exact .assigns message hc]
  simp only [filling_eq_ok]
  exact Iff.rfl

/-- No tokens spell two canonical expressions. -/
theorem canonical_unique {reading : LessEqualReading} {ts : List Token} (hcan : e.Canonical reading)
    (hspell : e.Spells ts) (hcan' : e'.Canonical reading) (hspell' : e'.Spells ts) : e = e' := by
  let c : Cursor := ⟨.origin, 0, [], ts⟩
  obtain ⟨tree, c₁, hread, rfl⟩ := expressionWithin_of_spells (c := c) "end of expression" hcan hspell
  obtain ⟨tree', c₂, hread', rfl⟩ := expressionWithin_of_spells (c := c) "end of expression" hcan' hspell'
  rw [(Prod.mk.inj (Except.ok.inj (hread.symm.trans hread'))).1]

end Parser

end SystemVerilog
