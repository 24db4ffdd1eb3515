import SystemVerilog.Proofs.Roots.Items

/-!
# Walks through the trees of a source

Whatever a source is read as, an expression, a statement or a whole unit, a walk through any expression of the tree
comes by every subexpression once and in the order of the text, and collects the names among the tokens.
-/

namespace SystemVerilog

variable {code : List Token} {e x : Expr Site}

/-- How a walk through an expression fits the code that the expression was read from. -/
structure Expr.WalksIn (code : List Token) (e : Expr Site) : Prop where
  /-- The range of the expression is one of tokens of the code. -/
  lies : e.Lies 0 code.length
  /-- The walk lists the subexpression at every path, and no path twice. -/
  visits : ∃ paths, Expr.Enumerates (Expr.at? · e) paths e.walk
  distinct : (e.walk.map fun x => x.tag.range).Nodup
  ordered : e.walk.Pairwise Expr.Precedes
  collects : e.Collects code

/-- The tokens of an expression that was read are laid out as it says. -/
theorem Expr.ReadFrom.occupies (h : e.ReadFrom code) :
    ∃ start us, us <+: code.drop start ∧ qualifiedAt code start = false ∧ Occupies start [.part e] us := by
  obtain ⟨c, c', budget, reading, floor, hc, hread⟩ := h
  obtain ⟨us, hsteps, hocc⟩ := Fills.part (expressionWithin_fills hread)
  have hahead : us ++ c'.after <+: code.drop c.position := hsteps.after ▸ (hc.sees : c.after <+: code.drop c.position)
  exact ⟨c.position, us, (append_prefix_drop hahead).1, hc.plain, hocc⟩

/-- A walk through any part of an expression that was read fits the code. -/
theorem Expr.ReadFrom.walksIn (h : e.ReadFrom code) (hx : x ∈ e.walk) : x.WalksIn code := by
  obtain ⟨start, us, hus, hplain, hocc⟩ := h.occupies
  have hwalk : [Segment.part e].flatMap Segment.walk = e.walk := List.flatMap_singleton ..
  have hordered : x.walk.Pairwise Precedes := (hwalk ▸ hocc.pairwise_precedes).sublist (walk_sublist hx)
  have hlies : x.Lies start (start + us.length) := hocc.lies x (hwalk.symm ▸ hx)
  have hbound : start + us.length ≤ code.length := by
    have hle := hus.length_le
    have hlt := hlies.lt
    have hstop := hlies.stop_le
    have hstart := hlies.start_le
    rw [List.length_drop] at hle
    omega
  exact ⟨hlies.mono (Nat.zero_le _) hbound, x.exists_paths, nodup_ranges hordered, hordered,
    hocc.collects hus hplain x (hwalk.symm ▸ hx)⟩

/-- A walk through an expression of a source, be it the whole source, in a statement or in a unit, or a part of one,
lists its subexpressions each once. No two of them have the same range; they are listed by where they start, and the
longer first where two start together. The names that the expression refers to are the names among the tokens of its
range, in their order, but for those behind a dot, a scope mark or a dollar sign and the units of delays. -/
theorem Arena.walks_of_ofSource {source : Source} {arena : Arena} (h : ofSource source = .ok arena) :
    (∀ e, arena.expression = .ok e → ∀ x ∈ e.walk, x.WalksIn arena.code) ∧
    (∀ s, arena.statement = .ok s → ∀ x ∈ s.expressions.flatMap Expr.walk, x.WalksIn arena.code) ∧
    ∀ depth unit, (arena.read depth).result = .ok unit → ∀ x ∈ unit.expressionNodes, x.WalksIn unit.code := by
  have hready := Arena.ready_root h
  refine ⟨fun e he x hx => ?_, fun s hs x hx => ?_, fun depth unit hunit x hx => ?_⟩
  · obtain ⟨c', hread, -⟩ := readWith_eq_ok.1 he
    exact (Opens.expression hready hread).2.walksIn hx
  · obtain ⟨c', hread, -⟩ := readWith_eq_ok.1 hs
    obtain ⟨root, hroot, hx⟩ := List.mem_flatMap.1 hx
    exact ((Opens.statement hready hread).2 root hroot).walksIn hx
  · obtain ⟨is, c', hgives, rfl⟩ := Arena.read_eq_ok hunit
    obtain ⟨-, hitems⟩ := Opens.untilEnd (fun _ => Opens.item depth) hready hgives
    obtain ⟨root, hroot, hx⟩ := List.mem_flatMap.1 hx
    exact (Rooted.flatMap hitems root hroot).walksIn hx

/-- An assignment with a delay, with names behind a dot, a scope mark and a dollar sign, and with a unit. -/
theorem Arena.walks_of_ofSource_delayed :
    let source : Source := { path := "t", text := "a[i.j] <= #5ns f(x, $time) + p::q;", ending := .lf }
    ∃ arena s, ofSource source = .ok arena ∧ arena.statement = .ok s ∧
      (s.expressions.map fun e => (e.walk.length, e.identifiers, e.unitIndices)) =
        [(13, ["a", "i", "f", "x", "p"], [9])] ∧
      ∀ x ∈ s.expressions.flatMap Expr.walk, x.WalksIn arena.code := by
  intro source
  have hread : ((ofSource source).toOption.bind fun arena => arena.statement.toOption.map fun s =>
      s.expressions.map fun e => (e.walk.length, e.identifiers, e.unitIndices)) =
      some [(13, ["a", "i", "f", "x", "p"], [9])] := by decide +kernel
  cases harena : ofSource source with
  | error fault =>
    rw [harena] at hread
    cases hread
  | ok arena =>
    rw [harena] at hread
    obtain ⟨_, ⟨⟩, hstatement⟩ := Option.bind_eq_some_iff.1 hread
    cases hs : arena.statement with
    | error fault =>
      rw [hs] at hstatement
      cases hstatement
    | ok s =>
      rw [hs] at hstatement
      exact ⟨arena, s, rfl, hs, Option.some.inj hstatement, (Arena.walks_of_ofSource harena).2.1 s hs⟩

end SystemVerilog
