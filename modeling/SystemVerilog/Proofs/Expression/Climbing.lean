import SystemVerilog.Proofs.Expression.Inversion

/-!
# The loop over the connectives

One round of the loop stops in front of what does not bind tighter than the floor, or it reads one connective and goes
on with the larger expression. `Turns` has all the rounds of a run, and the loop succeeds if and only if there is one
(`climbUpTo_eq_ok`), so what every round keeps is proved by induction on the run.
-/

namespace SystemVerilog

namespace Parser

variable {nested : Nested} {reading : LessEqualReading} {floor n : Nat} {c c' c₁ : Cursor} {e lhs : Expr Site}

/-- The expression that a connective makes of the one before it, up to the cursor behind it. -/
def grown (lhs : Expr Site) (node : Site → Expr Site) (c : Cursor) : Expr Site :=
  node ⟨lhs.tag.location, ⟨lhs.tag.range.start, c.position⟩⟩

/-- A round at a quiet place is the last one. -/
theorem climbUpTo_succ_of_quiet (hq : Quiet reading floor c.after) :
    climbUpTo nested reading floor (n + 1) lhs c = .ok (lhs, c) := by
  rw [climbUpTo, currentKind?_bind]
  cases hnext : c.currentKind?.bind (Connective.ofKind? reading) with
  | none => rfl
  | some k =>
    obtain ⟨t, rest, hafter, hk⟩ := Cursor.after_of_currentKind? hnext
    simp only [if_pos (hq t rest k hafter hk)]
    rfl

theorem climbUpTo_stop (hq : Quiet reading floor c.after) (hlen : c.after.length ≤ n) :
    climbUpTo nested reading floor n lhs c = .ok (lhs, c) := by
  cases n with
  | zero =>
    have hend : c.after = [] := List.length_eq_zero_iff.1 (Nat.le_zero.1 hlen)
    rw [climbUpTo, atEnd_bind, if_pos (Cursor.atEnd_eq_true_iff.2 hend)]
    rfl
  | succ n => exact climbUpTo_succ_of_quiet hq

theorem climbUpTo_connective {t : Token} {rest : List Token} {k : Connective} {node : Site → Expr Site}
    (hafter : c.after = t :: rest) (hk : Connective.ofKind? reading t.kind = some k) (hfloor : floor < k.power)
    (hnode : connectiveOf nested k lhs c = .ok (node, c₁)) :
    climbUpTo nested reading floor (n + 1) lhs c = climbUpTo nested reading floor n (grown lhs node c₁) c₁ := by
  have hnext : c.currentKind?.bind (Connective.ofKind? reading) = some k := by
    rw [Cursor.currentKind?_of_after hafter rfl, Option.bind_some, hk]
  rw [climbUpTo, currentKind?_bind, hnext]
  simp only [if_neg (Nat.not_le.2 hfloor)]
  rw [bind_of_ok hnode, since_bind]
  rfl

/-- Without a round left the loop has to be at the end. -/
theorem climbUpTo_zero_inv (h : climbUpTo nested reading floor 0 lhs c = .ok (e, c')) :
    e = lhs ∧ c' = c ∧ c.after = [] := by
  rw [climbUpTo, atEnd_bind] at h
  split at h
  · rename_i hend
    obtain ⟨rfl, rfl⟩ := pure_eq_ok.1 h
    exact ⟨rfl, rfl, Cursor.atEnd_eq_true_iff.1 hend⟩
  · exact absurd h bottomless_ne_ok

/-- A round finds a quiet place, or it reads a connective and the loop goes on behind it. -/
theorem climbUpTo_succ_inv (h : climbUpTo nested reading floor (n + 1) lhs c = .ok (e, c')) :
    (e = lhs ∧ c' = c ∧ Quiet reading floor c.after) ∨
      ∃ t rest k node c₁, c.after = t :: rest ∧ Connective.ofKind? reading t.kind = some k ∧ floor < k.power ∧
        connectiveOf nested k lhs c = .ok (node, c₁) ∧
        climbUpTo nested reading floor n (grown lhs node c₁) c₁ = .ok (e, c') := by
  rw [climbUpTo, currentKind?_bind] at h
  cases hnext : c.currentKind?.bind (Connective.ofKind? reading) with
  | none =>
    rw [hnext] at h
    obtain ⟨rfl, rfl⟩ := pure_eq_ok.1 h
    refine .inl ⟨rfl, rfl, fun t us k ht hk => ?_⟩
    simp [Cursor.currentKind?, Cursor.current?, ht, hk] at hnext
  | some k =>
    rw [hnext] at h
    dsimp only at h
    obtain ⟨t, rest, hafter, hk⟩ := Cursor.after_of_currentKind? hnext
    split at h
    · rename_i hfloor
      obtain ⟨rfl, rfl⟩ := pure_eq_ok.1 h
      refine .inl ⟨rfl, rfl, fun t' us k' ht hk' => ?_⟩
      obtain ⟨rfl, -⟩ := List.cons.inj (hafter.symm.trans ht)
      obtain rfl := Option.some.inj (hk.symm.trans hk')
      exact hfloor
    · rename_i hfloor
      obtain ⟨node, c₁, hnode, h⟩ := bind_eq_ok.1 h
      rw [since_bind] at h
      exact .inr ⟨t, rest, k, node, c₁, hafter, hk, Nat.not_le.1 hfloor, hnode, h⟩

/-- A run of the loop, from an expression and the place behind it to the expression and the place where it stops. -/
inductive Turns (nested : Nested) (reading : LessEqualReading) (floor : Nat) :
    Nat → Expr Site → Cursor → Expr Site → Cursor → Prop
  | stop {n : Nat} {e : Expr Site} {c : Cursor} (quiet : Quiet reading floor c.after) (spent : n = 0 → c.after = []) :
    Turns nested reading floor n e c e c
  | turn {n : Nat} {t : Token} {rest : List Token} {k : Connective} {node : Site → Expr Site} {lhs e : Expr Site}
    {c c₁ c' : Cursor} (after : c.after = t :: rest) (mark : Connective.ofKind? reading t.kind = some k)
    (above : floor < k.power) (read : connectiveOf nested k lhs c = .ok (node, c₁))
    (more : Turns nested reading floor n (grown lhs node c₁) c₁ e c') :
    Turns nested reading floor (n + 1) lhs c e c'

theorem climbUpTo_eq_ok :
    climbUpTo nested reading floor n lhs c = .ok (e, c') ↔ Turns nested reading floor n lhs c e c' := by
  constructor
  · intro h
    induction n generalizing lhs c with
    | zero =>
      obtain ⟨rfl, rfl, hend⟩ := climbUpTo_zero_inv h
      exact .stop (hend ▸ .nil) fun _ => hend
    | succ n ih =>
      rcases climbUpTo_succ_inv h with ⟨rfl, rfl, hquiet⟩ | ⟨t, rest, k, node, c₁, hafter, hk, hfloor, hnode, hmore⟩
      · exact .stop hquiet nofun
      · exact .turn hafter hk hfloor hnode (ih hmore)
  · intro h
    induction h with
    | @stop n _ c hquiet hspent =>
      cases n with
      | zero => exact climbUpTo_stop hquiet (Nat.le_of_eq (List.length_eq_zero_iff.2 (hspent rfl)))
      | succ n => exact climbUpTo_succ_of_quiet hquiet
    | turn hafter hk hfloor hnode _ ih => exact (climbUpTo_connective hafter hk hfloor hnode).trans ih

/-- A connective with nothing behind it is the last one. -/
theorem climbUpTo_last {t : Token} {rest : List Token} {k : Connective} (hafter : c.after = t :: rest)
    (hk : Connective.ofKind? reading t.kind = some k) (hfloor : floor < k.power)
    (hend : ∀ node c₁, connectiveOf nested k lhs c = .ok (node, c₁) → c₁.after = []) :
    climbUpTo nested reading floor (n + 1) lhs c = .ok (e, c') ↔
      ∃ node, connectiveOf nested k lhs c = .ok (node, c') ∧ e = grown lhs node c' := by
  constructor
  · intro h
    cases climbUpTo_eq_ok.1 h with
    | stop hquiet _ => exact absurd (hquiet t rest k hafter hk) (Nat.not_le.2 hfloor)
    | turn hafter' hk' _ hnode hmore =>
      obtain ⟨rfl, -⟩ := List.cons.inj (hafter.symm.trans hafter')
      obtain rfl := Option.some.inj (hk.symm.trans hk')
      cases hmore with
      | stop => exact ⟨_, hnode, rfl⟩
      | turn hafter₁ =>
        rw [hend _ _ hnode] at hafter₁
        cases hafter₁
  · rintro ⟨node, hnode, rfl⟩
    have hlast := hend node c' hnode
    rw [climbUpTo_connective hafter hk hfloor hnode]
    exact climbUpTo_stop (hlast ▸ .nil) (by rw [hlast]; exact Nat.zero_le n)

/-- Where the loop ends, nothing that binds tighter than the floor is left. -/
theorem climbUpTo_quiet (h : climbUpTo nested reading floor n lhs c = .ok (e, c')) :
    Quiet reading floor c'.after := by
  replace h := climbUpTo_eq_ok.1 h
  induction h with
  | stop hquiet _ => exact hquiet
  | turn _ _ _ _ _ ih => exact ih

/-! ### Whole expressions -/

/-- Where an expression ends, nothing that binds tighter than its floor is left. -/
theorem expressionWithin_quiet {budget floor : Nat} {reading : LessEqualReading}
    (h : expressionWithin budget reading floor c = .ok (e, c')) : Quiet reading floor c'.after := by
  cases budget with
  | zero => exact absurd h bottomless_ne_ok
  | succ budget =>
    obtain ⟨lhs, c₁, -, hclimb⟩ := bind_eq_ok.1 h
    exact climbUpTo_quiet hclimb

/-- The value of an assignment takes up all that it can, and no assignment is left behind it. -/
theorem assignment_quiet {budget : Nat} {op : AssignOp}
    (h : connectiveOf (expressionWithin budget .compares) (.assignment op) lhs c = .ok (node, c')) :
    (∀ site, (node site).assigns? = some op) ∧ Quiet .compares (assignPower - 1) c'.after := by
  cases connectiveOf_inv h with
  | assignment _ hvalue => exact ⟨fun _ => rfl, expressionWithin_quiet hvalue⟩
  | delayedAssignment _ _ hvalue => exact ⟨fun _ => rfl, expressionWithin_quiet hvalue⟩

/-- Below the power of assignments every floor is alike, since no connective binds less tightly. -/
theorem climbUpTo_of_lt (hfloor : floor < assignPower) :
    climbUpTo nested reading floor n = climbUpTo nested reading 0 n := by
  have hpower (k : Connective) : k.power ≤ floor ↔ k.power ≤ 0 := by
    have hge := k.power_bounds.1
    simp only [assignPower] at hfloor
    omega
  induction n with
  | zero =>
    funext lhs
    rw [climbUpTo, climbUpTo]
  | succ n ih =>
    funext lhs
    rw [climbUpTo, climbUpTo, ih]
    simp only [hpower]

theorem expressionWithin_of_lt {budget : Nat} (hfloor : floor < assignPower) :
    expressionWithin budget reading floor = expressionWithin budget reading 0 := by
  cases budget with
  | zero => rfl
  | succ budget =>
    rw [expressionWithin, expressionWithin]
    unfold expressionOf climb
    simp only [climbUpTo_of_lt hfloor]

end Parser

end SystemVerilog
