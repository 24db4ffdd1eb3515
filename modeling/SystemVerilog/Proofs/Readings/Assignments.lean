import SystemVerilog.Proofs.Roots.Parts

/-!
# Where `<=` assigns

The mark `<=` assigns only in the loop of an expression that heads a statement. The expressions nested in it are
read with `<=` as a relation, and behind a non-blocking assignment the loop has nothing left to read. So a
non-blocking assignment is the whole expression, and along the left spine of the expression no relation `<=`
stands.
-/

namespace SystemVerilog

open SystemVerilog.Parser

/-! ### The left spine -/

namespace Expr

variable {α : Type}

/-- The connective at the root of an expression, and the operand before it. -/
def joint? : Expr α → Option (Connective × Expr α)
  | unary _ op operand => if op.isPostfix then some (.postfixOp op, operand) else none
  | binary _ op lhs _ => some (.binary op, lhs)
  | index _ target _ | slice _ _ target _ _ => some (.select, target)
  | conditional _ condition _ _ => some (.conditional, condition)
  | assignment _ op target _ | delayedAssignment _ op target _ _ _ _ => some (.assignment op, target)
  | member _ target _ => some (.member, target)
  | scope _ outer _ => some (.scope, outer)
  | _ => none

/-- The expression, the operand before the connective at its root, and so on. -/
def spine : Expr α → List (Expr α)
  | unary tag op operand => unary tag op operand :: if op.isPostfix then operand.spine else []
  | binary tag op lhs rhs => binary tag op lhs rhs :: lhs.spine
  | index tag target subscript => index tag target subscript :: target.spine
  | slice tag kind target left right => slice tag kind target left right :: target.spine
  | conditional tag condition thenExpr elseExpr => conditional tag condition thenExpr elseExpr :: condition.spine
  | assignment tag op target value => assignment tag op target value :: target.spine
  | delayedAssignment tag op target delay magnitude unit value =>
    delayedAssignment tag op target delay magnitude unit value :: target.spine
  | member tag target name => member tag target name :: target.spine
  | scope tag outer name => scope tag outer name :: outer.spine
  | e => [e]

/-- A non-blocking assignment, perhaps with a delay. -/
def IsNonBlocking (e : Expr α) : Prop := e.assigns? = some .nonBlocking

/-- A relation `<=`. -/
def IsLessEqual (e : Expr α) : Prop := ∃ tag lhs rhs, e = .binary tag .lessEqual lhs rhs

variable {e lhs : Expr α} {k : Connective}

theorem joint?_unary {tag : α} {op : UnaryOp} {operand : Expr α} (h : (unary tag op operand).joint? = some (k, lhs)) :
    op.isPostfix = true ∧ k = .postfixOp op ∧ lhs = operand := by
  rw [joint?] at h
  split at h
  · obtain ⟨rfl, rfl⟩ := Prod.mk.inj (Option.some.inj h)
    exact ⟨‹_›, rfl, rfl⟩
  · cases h

theorem spine_of_joint (h : e.joint? = some (k, lhs)) : e.spine = e :: lhs.spine := by
  cases e with
  | unary tag op operand =>
    obtain ⟨hpost, -, rfl⟩ := joint?_unary h
    rw [spine, if_pos hpost]
  | _ => cases h <;> rfl

theorem spine_of_unjoined (h : e.joint? = none) : e.spine = [e] := by
  cases e with
  | unary tag op operand =>
    rw [joint?] at h
    split at h
    · cases h
    · rw [spine, if_neg ‹_›]
  | _ => cases h <;> rfl

theorem level_of_joint (h : e.joint? = some (k, lhs)) : e.level = k.power := by
  cases e with
  | unary tag op operand =>
    obtain ⟨hpost, rfl, -⟩ := joint?_unary h
    rw [level, if_pos hpost]
    rfl
  | _ => cases h <;> rfl

theorem joint_of_isNonBlocking (h : e.IsNonBlocking) :
    ∃ target, e.joint? = some (.assignment .nonBlocking, target) := by
  cases e with
  | assignment tag op target value =>
    obtain rfl := Option.some.inj h
    exact ⟨target, rfl⟩
  | delayedAssignment tag op target delay magnitude unit value =>
    obtain rfl := Option.some.inj h
    exact ⟨target, rfl⟩
  | _ => cases h

theorem not_isNonBlocking_of_leaf (h : e.walk = [e]) : ¬e.IsNonBlocking := by
  intro hassigns
  have hlength := congrArg List.length h
  cases e with
  | assignment tag op target value =>
    rw [walk, walk_eq target] at hlength
    simp at hlength
  | delayedAssignment tag op target delay magnitude unit value =>
    rw [walk, walk_eq target] at hlength
    simp at hlength
  | _ => cases hassigns

theorem joint_of_isLessEqual (h : e.IsLessEqual) : ∃ lhs, e.joint? = some (.binary .lessEqual, lhs) := by
  obtain ⟨tag, lhs, rhs, rfl⟩ := h
  exact ⟨lhs, rfl⟩

end Expr

/-! ### What a reader gives -/

section Readers

variable {nested : Nested} {c c' : Cursor} {e lhs : Expr Site} {node : Site → Expr Site} {k : Connective}

/-- An operand has no connective at its root. -/
theorem operandOf_unjoined (h : operandOf nested c = .ok (e, c')) : e.joint? = none := by
  obtain ⟨t, rest, hafter, ⟨op, operand, hop, -, rfl⟩ | ⟨-, hprimary⟩⟩ := operandOf_inv h
  · simp [Expr.joint?, (UnaryOp.ofKind?_eq_some_iff.1 hop).1]
  · cases primaryOf_inv hafter hprimary with
    | named hname hcalled =>
      cases hcalled with
      | bare => cases hname <;> rfl
      | call => rfl
    | _ => rfl

/-- What a connective makes has it at its root, behind the expression before it. -/
theorem connectiveOf_joint {reading : LessEqualReading} {kind : TokenKind}
    (hk : Connective.ofKind? reading kind = some k) (h : connectiveOf nested k lhs c = .ok (node, c')) (site : Site) :
    (node site).joint? = some (k, lhs) := by
  cases connectiveOf_inv h with
  | postfixOp => rw [Expr.joint?, if_pos (Connective.ofKind?_eq_some_iff.1 hk).1]
  | _ => rfl

end Readers

/-! ### The loop -/

/-- Where the loop stands with an expression: no part of it is a non-blocking assignment; if it is one itself, the
loop has nothing left to read; and where `<=` assigns, no relation `<=` stands on the spine. -/
structure Assigning (reading : LessEqualReading) (e : Expr Site) (rest : List Token) : Prop where
  parts : Every (fun x => ¬x.IsNonBlocking) e.walk.tail
  root : ¬e.IsNonBlocking ∨ reading = .assigns ∧ Quiet .compares (assignPower - 1) rest
  spine : reading = .assigns → Every (fun x => ¬x.IsLessEqual) e.spine

/-- No nested expression has a non-blocking assignment in it. -/
def NestedRelates (ts : List Token) (nested : Nested) : Prop :=
  ∀ floor, Ensures ts (nested floor) fun e => Every (fun x => ¬x.IsNonBlocking) e.walk

section Loop

variable {ts : List Token} {reading : LessEqualReading} {floor n budget : Nat} {lhs e : Expr Site} {c c' : Cursor}

theorem Assigning.every_walk {rest : List Token} (h : Assigning reading e rest) (hroot : ¬e.IsNonBlocking) :
    Every (fun x => ¬x.IsNonBlocking) e.walk := by
  rw [Expr.walk_eq]
  exact List.forall_mem_cons.2 ⟨hroot, h.parts⟩

/-- A connective keeps the invariant: only the mark `<=` makes a non-blocking assignment, and only where it does not
make a relation. -/
theorem Assigning.grown {t : Token} {rest : List Token} {k : Connective} {node : Site → Expr Site} {c₁ : Cursor}
    (hn : NestedRelates ts (expressionWithin budget .compares)) (hc : c.Sees ts)
    (h : Assigning reading lhs c.after) (hafter : c.after = t :: rest)
    (hk : Connective.ofKind? reading t.kind = some k)
    (hnode : connectiveOf (expressionWithin budget .compares) k lhs c = .ok (node, c₁)) :
    c₁.Sees ts ∧ Assigning reading (grown lhs node c₁) c₁.after := by
  have hmark := Connective.ofKind?_eq_some_iff.1 hk
  have hjoint : (Parser.grown lhs node c₁).joint? = some (k, lhs) := connectiveOf_joint hk hnode _
  have hroot : ¬lhs.IsNonBlocking := by
    rcases h.root with hroot | ⟨-, hquiet⟩
    · exact hroot
    · have hle := hquiet.of_compares t rest k hafter hk
      have hge := k.power_bounds.1
      simp only [assignPower] at hle
      omega
  obtain ⟨hc₁, hparts⟩ := Ensures.connectiveOf hn k (h.every_walk hroot) hc hnode
  refine ⟨hc₁, hparts _, ?_, fun hreading => ?_⟩
  · by_cases hassigns : (Parser.grown lhs node c₁).IsNonBlocking
    · obtain ⟨target, htarget⟩ := Expr.joint_of_isNonBlocking hassigns
      obtain ⟨rfl, rfl⟩ := Prod.mk.inj (Option.some.inj (hjoint.symm.trans htarget))
      exact .inr ⟨hmark.2 rfl, (assignment_quiet hnode).2⟩
    · exact .inl hassigns
  · rw [Expr.spine_of_joint hjoint]
    refine List.forall_mem_cons.2 ⟨fun hle => ?_, h.spine hreading⟩
    obtain ⟨lhs', hlhs'⟩ := Expr.joint_of_isLessEqual hle
    obtain ⟨rfl, rfl⟩ := Prod.mk.inj (Option.some.inj (hjoint.symm.trans hlhs'))
    -- under this reading the mark is no relation
    have hcompares : reading = .compares := hmark.2 rfl
    rw [hreading] at hcompares
    cases hcompares

theorem climbUpTo_assigning (hn : NestedRelates ts (expressionWithin budget .compares)) (hc : c.Sees ts)
    (h : Assigning reading lhs c.after)
    (hread : climbUpTo (expressionWithin budget .compares) reading floor n lhs c = .ok (e, c')) :
    Assigning reading e c'.after := by
  replace hread := climbUpTo_eq_ok.1 hread
  induction hread with
  | stop => exact h
  | turn hafter hk _ hnode _ ih =>
    obtain ⟨hc₁, hgrown⟩ := h.grown hn hc hafter hk hnode
    exact ih hc₁ hgrown

theorem expressionWithin_assigning (budget : Nat) (reading : LessEqualReading) (floor : Nat) (hc : c.Sees ts)
    (hread : expressionWithin budget reading floor c = .ok (e, c')) : Assigning reading e c'.after := by
  induction budget generalizing reading floor c e c' with
  | zero => exact absurd hread bottomless_ne_ok
  | succ budget ih =>
    have hn : NestedRelates ts (expressionWithin budget .compares) := by
      intro floor c e c' hc hread
      have hassigning := ih .compares floor hc hread
      refine ⟨((Forms.expressionWithin budget .compares floor).lays.advance hc hread).sees hc, ?_⟩
      rcases hassigning.root with hroot | ⟨hreading, -⟩
      · exact hassigning.every_walk hroot
      · cases hreading
    obtain ⟨lhs, c₁, hlhs, hclimb⟩ := bind_eq_ok.1 hread
    obtain ⟨hc₁, hparts⟩ := Ensures.operandOf hn (fun _ => Expr.not_isNonBlocking_of_leaf) hc hlhs
    have hunjoined : lhs.joint? = none := operandOf_unjoined hlhs
    refine climbUpTo_assigning hn hc₁ ⟨hparts, .inl fun hassigns => ?_, fun _ => ?_⟩ hclimb
    · obtain ⟨target, htarget⟩ := Expr.joint_of_isNonBlocking hassigns
      rw [hunjoined] at htarget
      cases htarget
    · rw [Expr.spine_of_unjoined hunjoined]
      refine List.forall_mem_singleton.2 fun hle => ?_
      obtain ⟨lhs', hlhs'⟩ := Expr.joint_of_isLessEqual hle
      rw [hunjoined] at hlhs'
      cases hlhs'

end Loop

/-- An expression that is read in operand position has no non-blocking assignment in it. -/
theorem expression_relates {c c' : Cursor} {e : Expr Site} (h : expression c = .ok (e, c')) :
    Every (fun x => ¬x.IsNonBlocking) e.walk := by
  obtain ⟨ts, hc⟩ := c.exists_sees
  have hassigning := expressionWithin_assigning _ .compares 0 hc h
  rcases hassigning.root with hroot | ⟨hreading, -⟩
  · exact hassigning.every_walk hroot
  · cases hreading

/-- In an expression that heads a statement only the root may be a non-blocking assignment, and no relation `<=`
stands on the left spine. -/
theorem statementExpression_assigns {c c' : Cursor} {e : Expr Site} (h : statementExpression c = .ok (e, c')) :
    Every (fun x => ¬x.IsNonBlocking) e.walk.tail ∧ Every (fun x => ¬x.IsLessEqual) e.spine := by
  obtain ⟨ts, hc⟩ := c.exists_sees
  have hassigning := expressionWithin_assigning _ .assigns 0 hc h
  exact ⟨hassigning.parts, hassigning.spine rfl⟩

end SystemVerilog
