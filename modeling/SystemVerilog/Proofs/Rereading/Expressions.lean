import SystemVerilog.Proofs.Expression.Complete
import SystemVerilog.Proofs.Narrowing.Expressions
import SystemVerilog.Proofs.Roots.Parts

/-!
# Expressions are read again from their own tokens

An expression that stands inside another one was read above some floor, with some budget and with other tokens
behind it. None of this has left a trace: its own tokens alone are read as the same expression. For the operand
that an expression starts with, and for all that the loop over the connectives makes of it, this is the invariant
`Reaches`: from every cut of the span the loop comes by the same place. Only a non-blocking assignment is
excepted, since its operator compares wherever an expression is read on its own.
-/

namespace SystemVerilog

open SystemVerilog.Parser

variable {ts : List Token} {c₀ c c₁ c' : Cursor} {lhs e : Expr Site} {nested : Nested} {k : Connective}
  {node : Site → Expr Site}

/-! ### Restored expressions -/

/-- The tokens of the expression, on their own, are read as the expression. -/
def Expr.Rereads (ts : List Token) (e : Expr Site) : Prop :=
  ∃ c c', c.Sees ts ∧ e.tag.range = ⟨c.position, c.finish⟩ ∧ expression c = .ok (e, c') ∧ c'.after = []

/-- The expression is restored from its own tokens, unless it is a non-blocking assignment. -/
def Expr.Restored (ts : List Token) (e : Expr Site) : Prop := e.assigns? ≠ some .nonBlocking → e.Rereads ts

/-- An expression that a cut of the span is read as covers all of the cut. -/
theorem Expr.rereads_of_cut {n : Nat} (hc₀ : c₀.Sees ts) (hspan : Spans ts c₀ (c₀.skip n) e.outline)
    (hn : n ≤ c₀.after.length) (h : expression (c₀.cut n) = .ok (e, (c₀.cut n).skip n)) : e.Rereads ts := by
  refine ⟨c₀.cut n, _, (List.take_prefix n _).trans hc₀, ?_, h, ?_⟩
  · have hrange := hspan.range
    rw [Expr.site_outline, Cursor.position_skip, Nat.min_eq_left hn] at hrange
    rw [hrange, Cursor.cut_position, Cursor.finish, Cursor.cut_position, Cursor.cut_length hn]
  · exact Cursor.cut_skip_after n c₀

theorem expression_cut {n : Nat} (hn : n ≤ c₀.after.length) : expression (c₀.cut n) =
    expressionOf (expressionWithin n .compares) .compares 0 (c₀.cut n) := by
  show expressionWithin ((c₀.cut n).after.length + 1) .compares 0 (c₀.cut n) = _
  rw [Cursor.cut_length hn]
  rfl

/-- Nested expressions are read alike from cuts, with as many nestings as the cut has tokens. -/
theorem nestedNarrows_expressionWithin (budget n : Nat) :
    NestedNarrows (n - 1) (expressionWithin budget .compares) (expressionWithin n .compares) :=
  fun floor _ => .expressionWithin budget (Nat.sub_le n 1) .compares floor

/-! ### The loop comes by -/

/-- Reading an expression from any cut of the span that holds the tokens up to `c`, the loop over the connectives
comes by `c` with the expression read so far, and has rounds enough left. -/
def Reaches (c₀ : Cursor) (lhs : Expr Site) (c : Cursor) : Prop :=
  ∃ i, c = c₀.skip i ∧ i ≤ c₀.after.length ∧ ∀ n, i ≤ n → n ≤ c₀.after.length → ∃ l, n - i ≤ l ∧
    expression (c₀.cut n) =
      climbUpTo (expressionWithin n .compares) .compares 0 l lhs ((c₀.cut n).skip i)

namespace Reaches

variable {budget : Nat}

theorem of_operand (h : operandOf (expressionWithin budget .compares) c₀ = .ok (lhs, c)) : Reaches c₀ lhs c := by
  obtain ⟨i, -, hi, rfl, -⟩ := NarrowsAt.operandOf (nestedNarrows_expressionWithin budget 0) h
  refine ⟨i, rfl, hi, fun n hn hle => ⟨n - i, Nat.le_refl _, ?_⟩⟩
  have hagain : operandOf (expressionWithin n .compares) (c₀.cut n) = .ok (lhs, (c₀.cut n).skip i) :=
    (NarrowsAt.operandOf (nestedNarrows_expressionWithin budget n)).at_cut h hn hle
  rw [expression_cut hle, expressionOf, bind_of_ok hagain]
  show climbUpTo _ _ _ ((c₀.cut n).skip i).after.length _ _ = _
  rw [Cursor.skip_after, List.length_drop, Cursor.cut_length hle]

/-- A connective that binds at all is taken up. -/
theorem step {t : Token} {rest : List Token} (h : Reaches c₀ lhs c) (hafter : c.after = t :: rest)
    (hk : Connective.ofKind? .compares t.kind = some k)
    (hnode : connectiveOf (expressionWithin budget .compares) k lhs c = .ok (node, c₁)) :
    Reaches c₀ (grown lhs node c₁) c₁ := by
  obtain ⟨i, rfl, hi, hloop⟩ := h
  have hne : (c₀.skip i).after ≠ [] := List.ne_nil_iff_exists_cons.2 ⟨t, rest, hafter⟩
  have hpower : 0 < k.power := Nat.lt_of_lt_of_le (by decide) k.power_bounds.1
  obtain ⟨j, hj, hlen, rfl, -⟩ := NarrowsAt.connectiveOf (nestedNarrows_expressionWithin budget 0) k lhs hne hnode
  rw [Cursor.skip_after, List.length_drop] at hlen
  refine ⟨i + j, Cursor.skip_skip i j c₀, by omega, fun n hn hle => ?_⟩
  obtain ⟨l, hl, hread⟩ := hloop n (by omega) hle
  obtain ⟨l, rfl⟩ : ∃ l', l = l' + 1 := ⟨l - 1, by omega⟩
  refine ⟨l, by omega, hread.trans ?_⟩
  -- the connective stands in the cut too, and is read there with the nestings of the cut
  have hcut : (c₀.cut n).skip i = (c₀.skip i).cut (n - i) := Cursor.cut_skip (by omega)
  have hnested : NestedNarrows (n - i - 1) (expressionWithin budget .compares) (expressionWithin n .compares) :=
    (nestedNarrows_expressionWithin budget n).mono (by omega)
  have hagain : connectiveOf (expressionWithin n .compares) k lhs ((c₀.skip i).cut (n - i)) =
      .ok (node, ((c₀.skip i).cut (n - i)).skip j) := by
    refine (NarrowsAt.connectiveOf hnested k lhs hne).at_cut hnode (by omega) ?_
    rw [Cursor.skip_after, List.length_drop]
    omega
  have hnext : ((c₀.skip i).cut (n - i)).after = t :: rest.take (n - i - 1) := by
    obtain ⟨d, hd⟩ : ∃ d, n - i = d + 1 := ⟨n - i - 1, by omega⟩
    rw [Cursor.cut_after, hafter, hd, List.take_succ_cons, Nat.add_sub_cancel]
  have hgrown : grown lhs node (((c₀.skip i).cut (n - i)).skip j) = grown lhs node ((c₀.skip i).skip j) := by
    rw [grown, grown, Cursor.cut_skip_position (by omega)]
  rw [hcut, climbUpTo_connective hnext hk hpower hagain, hgrown, ← hcut, Cursor.skip_skip, Cursor.skip_skip]

/-- Where nothing more follows, the loop ends with the expression. -/
theorem rereads (h : Reaches c₀ lhs c) (hc₀ : c₀.Sees ts) (hspan : Spans ts c₀ c lhs.outline) :
    lhs.Rereads ts := by
  obtain ⟨i, rfl, hi, hloop⟩ := h
  obtain ⟨l, -, hread⟩ := hloop i (Nat.le_refl i) hi
  refine Expr.rereads_of_cut hc₀ hspan hi (hread.trans ?_)
  have hend : ((c₀.cut i).skip i).after = [] := Cursor.cut_skip_after i c₀
  exact climbUpTo_stop (hend ▸ .nil) (by rw [hend]; exact Nat.zero_le l)

end Reaches

/-- Where the loop comes by an expression, it is restored with its parts. -/
theorem every_walk (hc₀ : c₀.Sees ts) (hspan : Spans ts c₀ c lhs.outline)
    (hparts : Every (Expr.Restored ts) lhs.walk.tail)
    (hspine : Reaches c₀ lhs c ∨ lhs.assigns? = some .nonBlocking) : Every (Expr.Restored ts) lhs.walk := by
  rw [Expr.walk_eq]
  refine List.forall_mem_cons.2 ⟨fun hne => ?_, hparts⟩
  rcases hspine with hreaches | hassigns
  · exact hreaches.rereads hc₀ hspan
  · exact absurd hassigns hne

/-- A name that may be called is read again where nothing follows it that could be its arguments. -/
theorem rereads_callee {p : Parser (Expr Site)} {token : Token} {rest : List Token} (hc₀ : c₀.Sees ts)
    (hafter : c₀.after = token :: rest) (hop : UnaryOp.ofKind? token.kind = none)
    (hprimary : ∀ nested, primaryOf nested token = p >>= Parser.callOf nested)
    (hforms : Forms ts c₀ p Expr.outline) (hp : ∀ bound, NarrowsAt bound 1 c₀ p p)
    (hread : p c₀ = .ok (e, c₁)) : e.Rereads ts := by
  have hspan := hforms hc₀ hread
  obtain ⟨i, hi, hlen, rfl, -⟩ := hp 0 hread
  have hagain : p (c₀.cut i) = .ok (e, (c₀.cut i).skip i) := (hp i).at_cut hread (Nat.le_refl i) hlen
  have hend : ((c₀.cut i).skip i).after = [] := Cursor.cut_skip_after i c₀
  have huncalled : ((c₀.cut i).skip i).check (.op .lParen) = false :=
    Cursor.check_eq_false fun t us h => by
      rw [hend] at h
      cases h
  have hcurrent : (c₀.cut i).current? = some token := by
    rw [Cursor.cut_current? (by omega), Cursor.current?, hafter]
    rfl
  have hoperand : operandOf (expressionWithin i .compares) (c₀.cut i) = .ok (e, (c₀.cut i).skip i) := by
    rw [operandOf, current?_bind, hcurrent]
    simp only [hop]
    rw [hprimary, bind_of_ok hagain, Parser.callOf, check_bind, huncalled]
    rfl
  refine Expr.rereads_of_cut hc₀ hspan hlen ?_
  rw [expression_cut hlen, expressionOf, bind_of_ok hoperand]
  exact climbUpTo_stop (hend ▸ .nil) (Nat.le_refl _)

/-! ### Parts of what is read -/

/-- Everything in the walk of a nested expression is restored. -/
def NestedRestored (ts : List Token) (nested : Nested) : Prop :=
  ∀ floor, Ensures ts (nested floor) fun e => Every (Expr.Restored ts) e.walk

section Parts

variable (hn : NestedRestored ts nested)

include hn

theorem called_parts {p : Parser (Expr Site)} {token : Token} {rest : List Token} (hc : c.Sees ts)
    (hafter : c.after = token :: rest) (hop : UnaryOp.ofKind? token.kind = none)
    (hprimary : ∀ nested, primaryOf nested token = p >>= Parser.callOf nested)
    (hforms : Forms ts c p Expr.outline) (hp : ∀ bound, NarrowsAt bound 1 c p p)
    (hleaf : Ensures ts p fun e => e.walk = [e]) (hread : Parser.primaryOf nested token c = .ok (e, c')) :
    Every (Expr.Restored ts) e.walk.tail := by
  rw [hprimary] at hread
  obtain ⟨callee, c₁, hcallee, hcall⟩ := bind_eq_ok.1 hread
  obtain ⟨hc₁, hwalk⟩ := hleaf hc hcallee
  have hrestored : Every (Expr.Restored ts) callee.walk := by
    rw [hwalk]
    exact List.forall_mem_singleton.2 fun _ => rereads_callee hc hafter hop hprimary hforms hp hcallee
  exact (Ensures.callOf hn hrestored hc₁ hcall).2

/-- The parts of an operand stand between brackets, or they are what is called. -/
theorem primaryOf_parts {token : Token} {rest : List Token} (hc : c.Sees ts) (hafter : c.after = token :: rest)
    (hop : UnaryOp.ofKind? token.kind = none) (hread : Parser.primaryOf nested token c = .ok (e, c')) :
    Every (Expr.Restored ts) e.walk.tail := by
  have hne : c.after ≠ [] := List.ne_nil_iff_exists_cons.2 ⟨token, rest, hafter⟩
  by_cases hdollar : token.kind = .op .dollar
  · exact called_parts hn hc hafter hop (fun nested => by rw [Parser.primaryOf, hdollar]) .systemIdentifier
      (fun _ => .systemIdentifier) Ensures.systemIdentifier hread
  · by_cases hname : token.kind.isName = true
    · refine called_parts hn hc hafter hop (fun nested => primaryOf_of_isName hname) ?_
        (fun _ => .tagged <| .lead (.advance? hne) fun _ _ => .pure _) ?_ hread
      · exact .tagged <| .token (.advance? hne) fun _ _ => .pure (.of_eq fun _ => rfl)
      · exact .tagged <| .silent .advance? fun _ => .pure fun _ => rfl
    · exact (Ensures.primaryOf_uncalled hn hdollar hname hc hread).2

theorem operandOf_parts (hc : c.Sees ts) (hread : Parser.operandOf nested c = .ok (e, c')) :
    Every (Expr.Restored ts) e.walk.tail := by
  obtain ⟨token, rest, hafter, ⟨op, operand, -, hoperand, rfl⟩ | ⟨hop, hprimary⟩⟩ := operandOf_inv hread
  · exact (hn _ (hc.skip 1) hoperand).2
  · exact primaryOf_parts hn hc hafter hop hprimary

end Parts

/-! ### Whole expressions -/

/-- The loop over the connectives keeps that the expression read so far, and all its parts, are restored. A
non-blocking assignment ends it, since nothing binds less tightly than its value. -/
theorem climbUpTo_restored {budget floor l : Nat} {reading : LessEqualReading}
    (hn : NestedRestored ts (expressionWithin budget .compares)) (hc₀ : c₀.Sees ts)
    (hspan : Spans ts c₀ c lhs.outline) (hparts : Every (Expr.Restored ts) lhs.walk.tail)
    (hspine : Reaches c₀ lhs c ∨ lhs.assigns? = some .nonBlocking ∧ Quiet .compares (assignPower - 1) c.after)
    (h : climbUpTo (expressionWithin budget .compares) reading floor l lhs c = .ok (e, c')) :
    Every (Expr.Restored ts) e.walk := by
  replace h := climbUpTo_eq_ok.1 h
  induction h with
  | stop => exact every_walk hc₀ hspan hparts (hspine.imp_right And.left)
  | @turn _ t rest k _ _ _ c _ _ hafter hk _ hnode _ ih =>
    have hlhs := every_walk hc₀ hspan hparts (hspine.imp_right And.left)
    have hsees : c.Sees ts := hspan.advance.sees hc₀
    refine ih (hspan.grown (nestedForms_expressionWithin budget .compares) hc₀ hafter hnode)
      ((Ensures.connectiveOf hn k hlhs hsees hnode).2 _) ?_
    rcases hspine with hreaches | ⟨-, hquiet⟩
    · rcases Connective.compares_of_ofKind? hk with ⟨hk', -⟩ | ⟨rfl, -⟩
      · exact .inl (hreaches.step hafter hk' hnode)
      · obtain ⟨hassigns, hquiet⟩ := assignment_quiet hnode
        exact .inr ⟨hassigns _, hquiet⟩
    · have hle : k.power ≤ assignPower - 1 := hquiet.of_compares t rest k hafter hk
      have hge := k.power_bounds.1
      simp only [assignPower] at hle
      omega

/-- Every expression that is read is restored from its own tokens, and so is everything in its walk. -/
theorem expressionWithin_restored (budget : Nat) {reading : LessEqualReading} {floor : Nat} :
    Ensures ts (expressionWithin budget reading floor) fun e => Every (Expr.Restored ts) e.walk := by
  induction budget generalizing reading floor with
  | zero => exact .of_error fun _ _ _ => bottomless_ne_ok
  | succ budget ih =>
    intro c₀ e c' hc₀ hread
    have hn : NestedRestored ts (expressionWithin budget .compares) := fun _ => ih
    have hforms : NestedForms ts (expressionWithin budget .compares) := nestedForms_expressionWithin budget .compares
    refine ⟨((Forms.expressionWithin (budget + 1) reading floor).lays.advance hc₀ hread).sees hc₀, ?_⟩
    obtain ⟨lhs, c₁, hlhs, hclimb⟩ := bind_eq_ok.1 hread
    exact climbUpTo_restored hn hc₀ (Forms.operandOf hforms hc₀ hlhs) (operandOf_parts hn hc₀ hlhs)
      (.inl (.of_operand hlhs)) hclimb

end SystemVerilog
