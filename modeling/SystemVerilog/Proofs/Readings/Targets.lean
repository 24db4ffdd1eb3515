import SystemVerilog.Proofs.Readings.Assignments
import SystemVerilog.Proofs.Widening.Expressions

/-!
# Targets of non-blocking assignments

An expression that binds tightest is an operand and connectives that bind tightest, for behind any other connective
none of these is left. They are read whatever the reading of `<=` is and whatever follows. So where such an
expression heads a statement, the mark `<=` behind it assigns to it the whole expression that follows the mark.
-/

namespace SystemVerilog

open SystemVerilog.Parser

/-- Connectives that bind tightest do not depend on the reading. -/
theorem Connective.ofKind?_of_power {reading reading' : LessEqualReading} {kind : TokenKind} {k : Connective}
    (h : ofKind? reading kind = some k) (hpower : k.power = postfixPower) : ofKind? reading' kind = some k := by
  rw [ofKind?_eq_some_iff] at h ⊢
  cases k with
  | select | scope | member | postfixOp => exact h
  | conditional => cases hpower
  | assignment op => cases hpower
  | binary op => cases op <;> cases hpower

/-! ### Levels -/

section Levels

variable {nested : Nested} {reading : LessEqualReading} {floor n budget : Nat} {k : Connective} {lhs e : Expr Site}
  {node : Site → Expr Site} {c c' : Cursor}

/-- The larger expression stands at the power of its connective. -/
theorem level_grown {kind : TokenKind} (hk : Connective.ofKind? reading kind = some k)
    (h : connectiveOf nested k lhs c = .ok (node, c')) : (grown lhs node c').level = k.power :=
  Expr.level_of_joint (connectiveOf_joint hk h _)

/-- Behind a connective that does not bind tightest nothing that does is left. -/
theorem connectiveOf_quiet (hpower : k.power ≠ postfixPower)
    (h : connectiveOf (expressionWithin budget .compares) k lhs c = .ok (node, c')) :
    Quiet .compares prefixPower c'.after := by
  cases connectiveOf_inv h with
  | index | slice | scope | member | postfixOp => exact absurd rfl hpower
  | conditional _ _ _ helse => exact (expressionWithin_quiet helse).mono (by decide)
  | assignment _ hvalue | delayedAssignment _ _ hvalue => exact (expressionWithin_quiet hvalue).mono (by decide)
  | @binary op _ _ hrhs => exact (expressionWithin_quiet hrhs).mono (Nat.le_trans op.power_bounds.2.1 (by decide))

/-- Where nothing that binds tightest is left, the loop makes no expression that does. -/
theorem Parser.Turns.level_lt (h : Turns (expressionWithin budget .compares) reading floor n lhs c e c')
    (hquiet : Quiet .compares prefixPower c.after) (hlevel : lhs.level < postfixPower) : e.level < postfixPower := by
  induction h with
  | stop => exact hlevel
  | turn hafter hk _ hnode _ ih =>
    have hpower := Nat.lt_of_le_of_lt (hquiet.of_compares _ _ _ hafter hk) (show prefixPower < postfixPower by decide)
    refine ih (connectiveOf_quiet (Nat.ne_of_lt hpower) hnode) ?_
    rw [level_grown hk hnode]
    exact hpower

end Levels

/-! ### What binds tightest, in front of more tokens -/

section Tight

variable {budget n : Nat} {lhs e : Expr Site} {c c' : Cursor} {more : List Token}

/-- An operand is read again in front of more tokens, or it does not bind tightest and nothing behind it does. -/
theorem operandOf_followedBy (hmore : ∀ t rest, more = t :: rest → t.kind ≠ .op .lParen)
    (h : operandOf (expressionWithin budget .compares) c = .ok (e, c')) :
    operandOf (expressionWithin budget .compares) (c.followedBy more) = .ok (e, c'.followedBy more) ∨
      e.level < postfixPower ∧ Quiet .compares prefixPower c'.after := by
  obtain ⟨t, rest, hafter, ⟨op, operand, hop, hread, rfl⟩ | ⟨hop, hread⟩⟩ := operandOf_inv h
  · refine .inr ⟨?_, expressionWithin_quiet hread⟩
    rw [Expr.level, if_neg (by simp [(UnaryOp.ofKind?_eq_some_iff.1 hop).1])]
    decide
  · left
    have hne : c.after ≠ [] := List.ne_nil_iff_exists_cons.2 ⟨t, rest, hafter⟩
    rw [operandOf_of_primary (Cursor.followedBy_after_cons hafter _) hop]
    exact WidensAt.primaryOf hmore hne hread

/-- The rounds that make an expression that binds tightest are the same under every reading and in front of any
tokens. -/
theorem climbUpTo_followedBy (reading : LessEqualReading) (more : List Token) (hlevel : postfixPower ≤ e.level)
    (h : climbUpTo (expressionWithin budget .compares) .compares 0 n lhs c = .ok (e, c')) :
    ∃ m ≤ n, ∀ l, climbUpTo (expressionWithin budget .compares) reading 0 (l + m) lhs (c.followedBy more) =
      climbUpTo (expressionWithin budget .compares) reading 0 l e (c'.followedBy more) := by
  replace h := climbUpTo_eq_ok.1 h
  induction h with
  | stop => exact ⟨0, Nat.zero_le _, fun l => rfl⟩
  | @turn n t rest k node lhs e c c₁ c' hafter hk hfloor hnode hmore ih =>
    have hpower : k.power = postfixPower := by
      by_contra hpower
      refine absurd hlevel (Nat.not_le.2 (hmore.level_lt (connectiveOf_quiet hpower hnode) ?_))
      rw [level_grown hk hnode]
      exact Nat.lt_of_le_of_ne k.power_bounds.2 hpower
    obtain ⟨m, hm, hagain⟩ := ih hlevel
    refine ⟨m + 1, Nat.succ_le_succ hm, fun l => ?_⟩
    have hne : c.after ≠ [] := List.ne_nil_iff_exists_cons.2 ⟨t, rest, hafter⟩
    have hafter' := Cursor.followedBy_after_cons hafter more
    have hnode' : connectiveOf (expressionWithin budget .compares) k lhs (c.followedBy more) =
        .ok (node, c₁.followedBy more) := WidensAt.connectiveOf_tight hpower lhs hne hnode
    exact (climbUpTo_connective hafter' (Connective.ofKind?_of_power hk hpower) hfloor hnode').trans (hagain l)

end Tight

/-! ### Statements -/

section Statements

variable {c d : Cursor} {m : Token} {ts us more : List Token} {e t v : Expr Site}

/-- What a span holds depends on its tokens, their positions and the place before them. -/
theorem Cursor.Holds.of_alike (h : c.Holds e) (halike : (Correspondence.moved 0 0 0).Alike c d) : d.Holds e := by
  obtain ⟨c', hread, hend⟩ := h
  obtain ⟨e', d', hread', hsame, honward⟩ := (Correspondence.Agrees.expression halike).gives hread
  have heq : e.map id = e'.map id := hsame.eq
  rw [Expr.map_id, Expr.map_id] at heq
  refine ⟨d', heq ▸ hread', List.length_eq_zero_iff.1 ?_⟩
  rw [← honward.length_eq, hend, List.length_nil]

/-- A fresh cursor over the next tokens holds what the span cut behind them holds. -/
theorem Cursor.holds_ahead_iff (n : Nat) : (c.ahead n).Holds e ↔ (c.cut n).Holds e :=
  ⟨fun h => h.of_alike ⟨⟨List.forall₂_same.2 fun _ _ => rfl, rfl⟩, rfl⟩,
    fun h => h.of_alike ⟨⟨List.forall₂_same.2 fun _ _ => rfl, rfl⟩, rfl⟩⟩

/-- A statement starts with the target that its first tokens hold and goes on behind it. -/
theorem statementExpression_of_holds_cut (hmore : ∀ t rest, more = t :: rest → t.kind ≠ .op .lParen)
    (hafter : c.after = ts ++ more) (htarget : (c.cut ts.length).Holds t) (hlevel : postfixPower ≤ t.level) :
    ∃ l, more.length ≤ l ∧ statementExpression c =
      climbUpTo (expressionWithin c.after.length .compares) .assigns 0 l t (c.skip ts.length) := by
  have hcut := Cursor.cut_append_after hafter
  have hshort : (c.cut ts.length).after.length ≤ c.after.length + 1 := by
    rw [hcut, hafter, List.length_append]
    omega
  obtain ⟨c', hread, hend⟩ := (Cursor.holds_iff_expressionWithin hshort).1 htarget
  have hbehind : c' = (c.cut ts.length).skip ts.length :=
    Cursor.eq_skip_of_read hread (by rw [hcut, hend, List.append_nil])
  obtain ⟨lhs, c₁, hlhs, hclimb⟩ := bind_eq_ok.1 hread
  have hoperand : operandOf (expressionWithin c.after.length .compares) ((c.cut ts.length).followedBy more) =
      .ok (lhs, c₁.followedBy more) := by
    rcases operandOf_followedBy hmore hlhs with hoperand | ⟨hlow, hquiet⟩
    · exact hoperand
    · exact absurd hlevel (Nat.not_le.2 ((climbUpTo_eq_ok.1 hclimb).level_lt hquiet hlow))
  obtain ⟨n, hn, hloop⟩ := climbUpTo_followedBy .assigns more hlevel hclimb
  have hrounds : (c₁.followedBy more).after.length = c₁.after.length - n + more.length + n := by
    rw [Cursor.followedBy_after, List.length_append]
    omega
  refine ⟨c₁.after.length - n + more.length, Nat.le_add_left _ _, ?_⟩
  calc statementExpression c
      = expressionWithin (c.after.length + 1) .assigns 0 ((c.cut ts.length).followedBy more) := by
        rw [Cursor.cut_followedBy hafter]
        rfl
    _ = climbUpTo (expressionWithin c.after.length .compares) .assigns 0 (c₁.followedBy more).after.length lhs
          (c₁.followedBy more) := bind_of_ok hoperand
    _ = climbUpTo (expressionWithin c.after.length .compares) .assigns 0 (c₁.after.length - n + more.length) t
          (c'.followedBy more) := by
        rw [hrounds]
        exact hloop _
    _ = _ := by rw [hbehind, Cursor.cut_skip_followedBy hafter]

/-- No expression starts with a delay. -/
theorem Cursor.Holds.check_sharp (h : c.Holds e) : c.check (.op .sharp) = false := by
  obtain ⟨c', hread, -⟩ := h
  obtain ⟨lhs, c₁, hlhs, -⟩ := bind_eq_ok.1 hread
  obtain ⟨t, rest, hafter, hoperand⟩ := operandOf_inv hlhs
  refine Cursor.check_eq_false fun u us hu hsharp => ?_
  obtain ⟨rfl, -⟩ := List.cons.inj (hafter.symm.trans hu)
  rcases hoperand with ⟨op, operand, hop, -, -⟩ | ⟨-, hprimary⟩
  · rw [hsharp] at hop
    cases hop
  · have hinvalid : primaryOf (expressionWithin c.after.length .compares) t = invalidInExpression t := by
      simp only [primaryOf, hsharp]
      rfl
    rw [hinvalid] at hprimary
    exact absurd hprimary fail_ne_ok

/-- The mark `<=` behind the target of a statement assigns all that follows the mark. -/
theorem statementExpression_of_lessEqual (hafter : c.after = ts ++ m :: us) (hm : m.kind = .op .lessEqual)
    (htarget : (c.cut ts.length).Holds t) (hlevel : postfixPower ≤ t.level)
    (hvalue : (c.skip (ts.length + 1)).Holds v) :
    ∃ site c', statementExpression c = .ok (.assignment site .nonBlocking t v, c') ∧ c'.after = [] := by
  have huncalled : ∀ u rest, m :: us = u :: rest → u.kind ≠ .op .lParen := by
    intro u rest h
    rw [← (List.cons.inj h).1, hm]
    decide
  obtain ⟨l, hl, hstatement⟩ := statementExpression_of_holds_cut huncalled hafter htarget hlevel
  obtain ⟨l, rfl⟩ : ∃ n, l = n + 1 := Nat.exists_eq_add_one.2 (by
    rw [List.length_cons] at hl
    omega)
  have hnext : (c.skip ts.length).after = m :: us := by rw [Cursor.skip_after, hafter, List.drop_left]
  have hundelayed := hvalue.check_sharp
  have hshort : (c.skip (ts.length + 1)).after.length ≤ c.after.length := by
    rw [Cursor.skip_after, List.length_drop]
    omega
  obtain ⟨c', hread, hend⟩ := (Cursor.holds_iff_expressionWithin hshort).1 hvalue
  have hnode : connectiveOf (expressionWithin c.after.length .compares) (.assignment .nonBlocking) t
      (c.skip ts.length) = .ok (fun tag => .assignment tag .nonBlocking t v, c') := by
    rw [connectiveOf, advance?_bind, Cursor.skip_skip, assignmentOf, check_bind, if_neg (by simp [hundelayed]),
      expressionWithin_of_lt (by decide)]
    exact map_of_ok hread
  have hk : Connective.ofKind? .assigns m.kind = some (.assignment .nonBlocking) := by rw [hm]; rfl
  have hread : statementExpression c = .ok (grown t (fun tag => .assignment tag .nonBlocking t v) c', c') := by
    rw [hstatement, climbUpTo_connective hnext hk (by decide) hnode]
    exact climbUpTo_stop (hend ▸ .nil) (by rw [hend]; exact Nat.zero_le l)
  exact ⟨_, c', hread, hend⟩

/-- An expression that heads no statement has no non-blocking assignment in it. In one that heads a statement only the
root may be such an assignment, and no relation `<=` stands on the left spine. And if the tokens before a mark `<=`
hold an expression that binds tightest and those behind the mark hold any expression, the first is assigned the
second. -/
theorem lessEqual_readings (c : Cursor) :
    (∀ e c', expression c = .ok (e, c') → ∀ x ∈ e.walk, x.assigns? ≠ some .nonBlocking) ∧
    (∀ e c', statementExpression c = .ok (e, c') → (∀ x ∈ e.walk.tail, x.assigns? ≠ some .nonBlocking) ∧
      ∀ x ∈ e.spine, ∀ tag lhs rhs, x ≠ .binary tag .lessEqual lhs rhs) ∧
    ∀ ts m us t v, c.after = ts ++ m :: us → m.kind = .op .lessEqual → (c.ahead ts.length).Holds t →
      postfixPower ≤ t.level → ((c.skip (ts.length + 1)).ahead us.length).Holds v →
      ∃ site c', statementExpression c = .ok (.assignment site .nonBlocking t v, c') ∧ c'.after = [] ∧
        ∀ x ∈ t.walk ++ v.walk, x.assigns? ≠ some .nonBlocking := by
  refine ⟨fun e c' h => expression_relates h, fun e c' h => ?_, ?_⟩
  · obtain ⟨hparts, hspine⟩ := statementExpression_assigns h
    exact ⟨hparts, fun x hx tag lhs rhs hrelation => hspine x hx ⟨tag, lhs, rhs, hrelation⟩⟩
  · intro ts m us t v hafter hm htarget hlevel hvalue
    have hall : (c.skip (ts.length + 1)).after.length ≤ us.length := by simp [hafter]
    rw [Cursor.holds_ahead_iff] at htarget hvalue
    rw [Cursor.cut_of_length_le hall] at hvalue
    obtain ⟨site, c', hread, hend⟩ := statementExpression_of_lessEqual hafter hm htarget hlevel hvalue
    obtain ⟨c₁, htarget, -⟩ := htarget
    obtain ⟨c₂, hvalue, -⟩ := hvalue
    exact ⟨site, c', hread, hend,
      List.forall_mem_append.2 ⟨expression_relates htarget, expression_relates hvalue⟩⟩

/-- In `a[i <= j] <= b <= d` only the second mark assigns, and only at the head of a statement. -/
theorem lessEqual_readings_select :
    let token (kind : TokenKind) (text : String) : Token := ⟨⟨kind, text⟩, 0, .origin, .origin⟩
    let le := token (.op .lessEqual) "<="
    let ts := [token .identifier "a", token (.op .lBracket) "[", token .identifier "i", le, token .identifier "j",
      token (.op .rBracket) "]"]
    let us := [token .identifier "b", le, token .identifier "d"]
    let c : Cursor := ⟨.origin, 0, [], ts ++ le :: us⟩
    (∃ e c', expression c = .ok (e, c') ∧ c'.after = [] ∧ ∀ x ∈ e.walk, x.assigns? ≠ some .nonBlocking) ∧
    ∃ e c', statementExpression c = .ok (e, c') ∧ c'.after = [] ∧
      e.erase = .assignment () .nonBlocking
        (.index () (.identifier () "a") (.binary () .lessEqual (.identifier () "i") (.identifier () "j")))
        (.binary () .lessEqual (.identifier () "b") (.identifier () "d")) ∧
      ∀ x ∈ e.walk.tail, x.assigns? ≠ some .nonBlocking := by
  intro token le ts us c
  obtain ⟨hrelates, hassigns, htargets⟩ := lessEqual_readings c
  have hexpression : ∃ e c', expression c = .ok (e, c') ∧ c'.after = [] := ⟨_, _, rfl, rfl⟩
  have htarget : ∃ t, (c.ahead ts.length).Holds t ∧ postfixPower ≤ t.level ∧
      t.erase = .index () (.identifier () "a") (.binary () .lessEqual (.identifier () "i") (.identifier () "j")) :=
    ⟨_, ⟨_, rfl, rfl⟩, Nat.le_refl _, rfl⟩
  have hvalue : ∃ v, ((c.skip (ts.length + 1)).ahead us.length).Holds v ∧
      v.erase = .binary () .lessEqual (.identifier () "b") (.identifier () "d") := ⟨_, ⟨_, rfl, rfl⟩, rfl⟩
  obtain ⟨e, c₁, hread, hend⟩ := hexpression
  obtain ⟨t, htarget, hlevel, ht⟩ := htarget
  obtain ⟨v, hvalue, hv⟩ := hvalue
  obtain ⟨site, c', hstatement, hend', -⟩ := htargets ts le us t v rfl rfl htarget hlevel hvalue
  refine ⟨⟨e, c₁, hread, hend, hrelates e c₁ hread⟩, _, c', hstatement, hend', ?_, (hassigns _ c' hstatement).1⟩
  rw [Expr.erase, Expr.map, ← ht, ← hv]
  rfl

end Statements

end SystemVerilog
