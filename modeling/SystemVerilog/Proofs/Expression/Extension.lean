import SystemVerilog.Proofs.Expression.Exact

/-!
# An operator behind an expression

A binary operator and an operand that are written behind an expression, without parentheses around it, do not always
take the expression as their left operand. As long as the root binds less tightly than the operator, they go on to
the last operand of the root (`Expr.extended`), so the operator takes the whole expression if and only if the
root binds at least as tightly.
-/

namespace SystemVerilog

namespace Expr

/-- The expression with a binary operator and an operand behind it. -/
def extended (e : Expr Unit) (op : BinaryOp) (x : Expr Unit) : Expr Unit :=
  match e with
  | binary tag o lhs rhs =>
    if o.power < op.power then .binary tag o lhs (rhs.extended op x)
    else .binary () op (.binary tag o lhs rhs) x
  | conditional tag condition thenExpr elseExpr =>
    if conditionalPower < op.power then .conditional tag condition thenExpr (elseExpr.extended op x)
    else .binary () op (.conditional tag condition thenExpr elseExpr) x
  | assignment tag o target value => .assignment tag o target (value.extended op x)
  | delayedAssignment tag o target delay magnitude unit value =>
    .delayedAssignment tag o target delay magnitude unit (value.extended op x)
  | e => .binary () op e x

variable {e x : Expr Unit} {op : BinaryOp} {reading : LessEqualReading} {ts us : List Token} {t : Token}

/-- Apart from the roots with an operand at their end that is gone into, a root binds tighter than every operator. -/
theorem power_le_level (hbinary : ∀ tag o lhs rhs, e ≠ .binary tag o lhs rhs)
    (hconditional : ∀ tag condition thenExpr elseExpr, e ≠ .conditional tag condition thenExpr elseExpr)
    (hassignment : ∀ tag o target value, e ≠ .assignment tag o target value)
    (hdelayed : ∀ tag o target delay magnitude unit value,
      e ≠ .delayedAssignment tag o target delay magnitude unit value) : op.power ≤ e.level := by
  have hop : op.power ≤ 140 := op.power_bounds.2.1
  cases e with
  | binary tag o lhs rhs => exact absurd rfl (hbinary tag o lhs rhs)
  | conditional tag condition thenExpr elseExpr => exact absurd rfl (hconditional tag condition thenExpr elseExpr)
  | assignment tag o target value => exact absurd rfl (hassignment tag o target value)
  | delayedAssignment tag o target delay magnitude unit value =>
    exact absurd rfl (hdelayed tag o target delay magnitude unit value)
  | unary tag o operand =>
    refine Nat.le_trans hop ?_
    rw [level]
    split <;> decide
  | _ => exact Nat.le_trans hop (by show 140 ≤ 160; decide)

/-- The root is the operator or the root of the expression, whichever binds less tightly. -/
theorem level_extended (e : Expr Unit) (op : BinaryOp) (x : Expr Unit) :
    (e.extended op x).level = min e.level op.power := by
  have hassign : assignPower ≤ op.power := Nat.le_trans (by decide) op.power_bounds.1
  fun_cases extended e op x with
  | case1 tag o lhs rhs ho => exact (Nat.min_eq_left (Nat.le_of_lt ho)).symm
  | case2 tag o lhs rhs ho => exact (Nat.min_eq_right (Nat.not_lt.1 ho)).symm
  | case3 tag condition thenExpr elseExpr ho => exact (Nat.min_eq_left (Nat.le_of_lt ho)).symm
  | case4 tag condition thenExpr elseExpr ho => exact (Nat.min_eq_right (Nat.not_lt.1 ho)).symm
  | case5 | case6 => exact (Nat.min_eq_left hassign).symm
  | case7 _ hbinary hconditional hassignment hdelayed =>
    exact (Nat.min_eq_right (power_le_level hbinary hconditional hassignment hdelayed)).symm

/-- The operator takes the whole expression as its left operand if and only if the root binds at least as tightly. -/
theorem extended_eq_binary_iff : e.extended op x = .binary () op e x ↔ op.power ≤ e.level := by
  have hassign : assignPower < op.power := Nat.lt_of_lt_of_le (by decide) op.power_bounds.1
  constructor
  · intro h
    have hlevel := level_extended e op x
    rw [h, level] at hlevel
    exact hlevel ▸ Nat.min_le_left _ _
  · intro h
    fun_cases extended e op x with
    | case1 tag o lhs rhs ho => exact absurd h (Nat.not_le.2 ho)
    | case3 tag condition thenExpr elseExpr ho => exact absurd h (Nat.not_le.2 ho)
    | case5 | case6 => exact absurd h (Nat.not_le.2 hassign)
    | case2 | case4 | case7 => rfl

/-- What is written needs no parentheses if the expression needs none. -/
theorem Canonical.extended (he : e.Canonical reading) (hx : x.Canonical .compares) (hlt : op.power < x.level)
    (hle : op = .lessEqual → reading = .compares) : (e.extended op x).Canonical reading := by
  have hcompares : op = .lessEqual → LessEqualReading.compares = .compares := fun _ => rfl
  have hwhole {e : Expr Unit} {reading : LessEqualReading} (he : e.Canonical reading) (hle' : op.power ≤ e.level)
      (hle : op = .lessEqual → reading = .compares) : (Expr.binary () op e x).Canonical reading :=
    ⟨hle, hle', hlt, he, hx⟩
  fun_induction Expr.extended e op x generalizing reading with
  | case1 tag o lhs rhs ho ih =>
    obtain ⟨hassigns, hlhs, hrhs, hcan, hcan'⟩ := he
    refine ⟨hassigns, hlhs, ?_, hcan, ih hcan' hcompares⟩
    rw [level_extended]
    exact Nat.lt_min.2 ⟨hrhs, ho⟩
  | case2 tag o lhs rhs ho => exact hwhole he (Nat.not_lt.1 ho) hle
  | case3 tag condition thenExpr elseExpr ho ih =>
    obtain ⟨hcondition, helse, hcan, hcan', hcan''⟩ := he
    refine ⟨hcondition, ?_, hcan, hcan', ih hcan'' hcompares⟩
    rw [level_extended]
    exact Nat.le_min.2 ⟨helse, Nat.le_of_lt ho⟩
  | case4 tag condition thenExpr elseExpr ho => exact hwhole he (Nat.not_lt.1 ho) hle
  | case5 tag o target value ih =>
    obtain ⟨hassigns, htarget, hcan, hcan'⟩ := he
    exact ⟨hassigns, htarget, hcan, ih hcan' hcompares⟩
  | case6 => exact he
  | case7 e hbinary hconditional hassignment hdelayed =>
    exact hwhole he (power_le_level hbinary hconditional hassignment hdelayed) hle

/-- The tokens of the expression, the operator and those of the operand spell what is written. -/
theorem Spells.extended (he : e.Spells ts) (ht : t.kind ∈ op.kinds) (hx : x.Spells us) :
    (e.extended op x).Spells (ts ++ t :: us) := by
  fun_induction Expr.extended e op x generalizing ts with
  | case1 tag o lhs rhs ho ih =>
    obtain ⟨vs, u, ws, rfl, hvs, hu, hws⟩ := he
    exact ⟨vs, u, ws ++ t :: us, by simp, hvs, hu, ih hws⟩
  | case3 tag condition thenExpr elseExpr ho ih =>
    obtain ⟨vs, q, ws, m, xs, rfl, hvs, hq, hws, hm, hxs⟩ := he
    exact ⟨vs, q, ws, m, xs ++ t :: us, by simp, hvs, hq, hws, hm, ih hxs⟩
  | case5 tag o target value ih =>
    obtain ⟨vs, u, ws, rfl, hvs, hu, hws⟩ := he
    exact ⟨vs, u, ws ++ t :: us, by simp, hvs, hu, ih hws⟩
  | case6 => exact he.elim
  | case2 | case4 | case7 => exact ⟨ts, t, us, rfl, he, ht, hx⟩

end Expr

namespace Parser

/-- What stands behind the tokens of an expression, an operator and an operand, is read at its right edge. -/
theorem expression_extended {c : Cursor} {e x : Expr Unit} {op : BinaryOp} {ts us : List Token} {t : Token}
    (message : String) (he : e.Canonical .compares) (hts : e.Spells ts) (hx : x.Canonical .compares)
    (hlt : op.power < x.level) (ht : t.kind ∈ op.kinds) (hus : x.Spells us) (hc : c.after = ts ++ t :: us) :
    ∃ tree c', filling message expression c = .ok (tree, c') ∧ tree.erase = e.extended op x := by
  have hspell : (e.extended op x).Spells c.after := by
    rw [hc]
    exact hts.extended ht hus
  obtain ⟨tree, c', hread, herase⟩ := expressionWithin_of_spells message (he.extended hx hlt fun _ => rfl) hspell
  obtain ⟨hread, hend⟩ := filling_eq_ok.1 hread
  have hread' : expression c = .ok (tree, c') := hread
  exact ⟨tree, c', filling_eq_ok.2 ⟨hread', hend⟩, herase⟩

end Parser

end SystemVerilog
