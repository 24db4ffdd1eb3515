import SystemVerilog.Proofs.Expression.Climbing
import SystemVerilog.Proofs.Expression.Spelling

/-!
# Every expression that is read is canonical

What an expression reader delivers (`Delivered`) is spelled by the tokens it has read, is canonical,
binds tighter than the floor and leaves no connective above the floor behind. The invariant of the
loop over connectives is that the connective at the cursor admits the expression read so far as its
left operand; it holds because the reading of the last operand has left that connective alone. Delays
are outside this grammar, so the tokens are assumed to hold no number sign.
-/

namespace SystemVerilog

namespace Parser

/-! ### What a reader delivers -/

/-- No number sign is still to be read. -/
def Undelayed (c : Cursor) : Prop := ∀ t ∈ c.after, t.kind ≠ .op .sharp

/-- Reading above a floor has led from `c` to `c'` over the tokens of a canonical expression. -/
structure Delivered (reading : LessEqualReading) (floor : Nat) (c : Cursor) (e : Expr Site)
    (c' : Cursor) : Prop where
  spelled : ∃ ts, c.Steps ts c' ∧ e.Spells ts
  canonical : e.Canonical reading
  level : min (floor + 1) prefixPower ≤ e.level
  quiet : Quiet reading floor c'.after

/-- An expression from `c` to `c'` that whatever connective comes next admits as its left operand. -/
structure LeftOperand (reading : LessEqualReading) (c : Cursor) (e : Expr Site) (c' : Cursor) :
    Prop where
  spelled : ∃ ts, c.Steps ts c' ∧ e.Spells ts
  canonical : e.Canonical reading
  quiet : Quiet .compares e.tailFloor c'.after

/-- Whatever a reader of nested expressions gives is a canonical expression. -/
def Sound (nested : Nested) : Prop :=
  ∀ ⦃floor c e c'⦄, Undelayed c → nested floor c = .ok (e, c') → Delivered .compares floor c e c'

section Undelayed

variable {c c' : Cursor} {ts rest : List Token} {o cl : Token}

theorem Undelayed.steps (hu : Undelayed c) (h : c.Steps ts c') : Undelayed c' := fun t ht =>
  hu t (by rw [h.after]; exact List.mem_append_right _ ht)

theorem Undelayed.skip (hu : Undelayed c) (n : Nat) : Undelayed (c.skip n) := fun t ht =>
  hu t (by rw [Cursor.skip_after] at ht; exact List.mem_of_mem_drop ht)

theorem Undelayed.ahead (hu : Undelayed c) (n : Nat) : Undelayed (c.ahead n) := fun t ht =>
  hu t (List.mem_of_mem_take ht)

theorem Undelayed.check (hu : Undelayed c) : c.check (.op .sharp) = false :=
  Cursor.check_eq_false fun t us h => hu t (by simp [h])

end Undelayed

section Readers

variable {nested : Nested} {c c' : Cursor} {e : Expr Site} {es : List (Expr Site)}
  {reading : LessEqualReading} {floor n : Nat} {token : Token}

/-! ### Lists -/

theorem followersUpTo_sound (hn : Sound nested) {m : String} (hu : Undelayed c)
    (h : followersUpTo (comma m) (nested 0) n c = .ok (es, c')) :
    ∃ ts, c.Steps ts c' ∧ Expr.SpellsTail es ts ∧ Expr.AllCanonical es ∧ c'.after = [] := by
  replace h := followersUpTo_eq_ok.1 h
  induction h with
  | done hend => exact ⟨[], .refl _, rfl, trivial, hend⟩
  | more _ hcomma he _ ih =>
    obtain ⟨t, rest, hafter, ht, rfl⟩ := comma_eq_ok.1 hcomma
    obtain ⟨⟨us, hus, hspell⟩, hcan, -, -⟩ := hn (hu.skip 1) he
    obtain ⟨vs, hvs, htail, hall, hend⟩ := ih ((hu.skip 1).steps hus)
    exact ⟨t :: (us ++ vs), (Cursor.Steps.one hafter).trans (hus.trans hvs),
      ⟨t, us, vs, rfl, ht, hspell, htail⟩, ⟨hcan, hall⟩, hend⟩

theorem followers_sound (hn : Sound nested) {m : String} (hu : Undelayed c)
    (h : followers (comma m) (nested 0) c = .ok (es, c')) :
    ∃ ts, c.Steps ts c' ∧ Expr.SpellsTail es ts ∧ Expr.AllCanonical es ∧ c'.after = [] :=
  followersUpTo_sound hn hu h

theorem listOf_sound (hn : Sound nested) (hu : Undelayed c) (h : listOf nested c = .ok (es, c')) :
    ∃ ts, c.Steps ts c' ∧ Expr.SpellsList es ts ∧ Expr.AllCanonical es ∧ c'.after = [] := by
  rcases listOf_inv h with ⟨hend, rfl, rfl⟩ | ⟨e, es', c₁, he, hes, rfl⟩
  · exact ⟨[], .refl _, rfl, trivial, hend⟩
  · obtain ⟨⟨us, hus, hspell⟩, hcan, -, -⟩ := hn hu he
    obtain ⟨vs, hvs, htail, hall, hend⟩ := followers_sound hn (hu.steps hus) hes
    exact ⟨us ++ vs, hus.trans hvs, ⟨us, vs, rfl, hspell, htail⟩, ⟨hcan, hall⟩, hend⟩

/-- A list of expressions between brackets. -/
theorem enclosed_listOf_sound (hn : Sound nested) (hu : Undelayed c) {opening closing : TokenKind}
    (h : (enclosed opening closing (listOf nested) : Parser _) c = .ok (es, c')) :
    ∃ o ts cl, c.Steps (o :: (ts ++ [cl])) c' ∧ o.kind.inFamily opening = true ∧
      Expr.SpellsList es ts ∧ cl.kind.inFamily closing = true ∧ Expr.AllCanonical es := by
  obtain ⟨o, ts, cl, c₁, hsteps, ho, hcl, -, hes⟩ := enclosed_eq_ok h
  obtain ⟨us, hus, hspell, hall, hend⟩ := listOf_sound hn ((hu.skip 1).ahead _) hes
  obtain rfl : ts = us := (interior_after hsteps).symm.trans (steps_to_end hus hend)
  exact ⟨o, ts, cl, hsteps, ho, hspell, hcl, hall⟩

/-! ### Operands -/

/-- An expression that no connective can bind tighter than. -/
theorem LeftOperand.of_postfixPower (hs : ∃ ts, c.Steps ts c' ∧ e.Spells ts)
    (hc : e.Canonical reading) (ht : e.tailFloor = postfixPower) : LeftOperand reading c e c' :=
  ⟨hs, hc, ht ▸ .of_postfixPower⟩

theorem Named.spells {rest : List Token} (h : Named token c e c') (hafter : c.after = token :: rest) :
    ∃ ts, c.Steps ts c' ∧ e.Spells ts ∧ e.isName = true := by
  cases h with
  | identifier hname => exact ⟨[token], .one hafter, ⟨token, rfl, hname, rfl⟩, rfl⟩
  | @systemIdentifier word _ hdollar hahead hword htouches =>
    exact ⟨[token, word], .of_after hahead, ⟨token, word, rfl, hdollar, hword, htouches, rfl⟩, rfl⟩

theorem Called.sound (hn : Sound nested) {c₀ : Cursor} {callee : Expr Site} {us : List Token}
    (h : Called nested callee c e c') (hu : Undelayed c) (hsteps : c₀.Steps us c) (hspell : callee.Spells us)
    (hname : callee.isName = true) : LeftOperand reading c₀ e c' ∧ e.level = postfixPower := by
  cases h with
  | bare =>
    cases e with
    | identifier | systemIdentifier => exact ⟨.of_postfixPower ⟨us, hsteps, hspell⟩ trivial rfl, rfl⟩
    | _ => cases hname
  | call hread =>
    obtain ⟨o, ts, cl, hts, ho, hlist, hcl, hall⟩ := enclosed_listOf_sound hn hu hread
    refine ⟨.of_postfixPower ⟨_, hsteps.trans hts, ?_⟩ ⟨hname, hall⟩ rfl, rfl⟩
    exact ⟨us, o, ts, cl, rfl, hspell, eq_of_beq ho, hlist, eq_of_beq hcl⟩

theorem Primary.sound (hn : Sound nested) {rest : List Token} (h : Primary nested token c e c') (hu : Undelayed c)
    (hafter : c.after = token :: rest) : LeftOperand reading c e c' ∧ e.level = postfixPower := by
  have hinterior (n : Nat) : Undelayed ((c.skip 1).ahead n) := (hu.skip 1).ahead n
  cases h with
  | parenthesis _ hread =>
    obtain ⟨o, ts, cl, c₁, hsteps, ho, hcl, -, hread⟩ := enclosed_eq_ok hread
    obtain ⟨hread, hend⟩ := filling_eq_ok.1 hread
    obtain ⟨⟨us, hus, hspell⟩, hcan, -, -⟩ := hn (hinterior _) hread
    obtain rfl := (interior_after hsteps).symm.trans (steps_to_end hus hend)
    refine ⟨.of_postfixPower ⟨_, hsteps, ?_⟩ hcan rfl, rfl⟩
    exact ⟨o, ts, cl, rfl, eq_of_beq ho, hspell, eq_of_beq hcl⟩
  | replication _ hsteps ho hcl hread hinner hend =>
    obtain ⟨⟨us, hus, hspell⟩, hcan, -, -⟩ := hn (hinterior _) hread
    obtain ⟨o', vs, cl', hvs, ho', hlist, hcl', hall⟩ :=
      enclosed_listOf_sound hn ((hinterior _).steps hus) hinner
    obtain rfl := (interior_after hsteps).symm.trans (steps_to_end (hus.trans hvs) hend)
    refine ⟨.of_postfixPower ⟨_, hsteps, ?_⟩ ⟨hcan, hall⟩ rfl, rfl⟩
    exact ⟨_, us, o', vs, cl', _, by simp, ho, hspell, eq_of_beq ho', hlist, eq_of_beq hcl', hcl⟩
  | concatenation _ hsteps ho hcl hread _ hmore =>
    obtain ⟨⟨us, hus, hspell⟩, hcan, -, -⟩ := hn (hinterior _) hread
    obtain ⟨vs, hvs, htail, hall, hend⟩ := followers_sound hn ((hinterior _).steps hus) hmore
    obtain rfl := (interior_after hsteps).symm.trans (steps_to_end (hus.trans hvs) hend)
    refine ⟨.of_postfixPower ⟨_, hsteps, ?_⟩ ⟨List.cons_ne_nil _ _, hcan, hall⟩ rfl, rfl⟩
    exact ⟨_, us ++ vs, _, rfl, ho, ⟨us, vs, rfl, hspell, htail⟩, hcl⟩
  | arrayPattern hquote hread =>
    obtain ⟨o, ts, cl, hts, ho, hlist, hcl, hall⟩ := enclosed_listOf_sound hn (hu.skip 1) hread
    refine ⟨.of_postfixPower ⟨_, (Cursor.Steps.one hafter).trans hts, ?_⟩ hall rfl, rfl⟩
    exact ⟨token, o, ts, cl, rfl, hquote, eq_of_beq ho, hlist, eq_of_beq hcl⟩
  | literal hcopies =>
    exact ⟨.of_postfixPower ⟨_, .one hafter, token, rfl, hcopies, rfl⟩ trivial rfl, rfl⟩
  | named hnamed hcalled =>
    obtain ⟨us, hus, hspell, hname⟩ := hnamed.spells hafter
    exact hcalled.sound hn (hu.steps hus) hus hspell hname

theorem operandOf_sound (hn : Sound nested) (hu : Undelayed c) (h : operandOf nested c = .ok (e, c')) :
    LeftOperand reading c e c' ∧ prefixPower ≤ e.level := by
  obtain ⟨token, rest, hafter, ⟨op, operand, hop, hoperand, rfl⟩ | ⟨-, hprimary⟩⟩ := operandOf_inv h
  · obtain ⟨hp, hk⟩ := UnaryOp.ofKind?_eq_some_iff.1 hop
    obtain ⟨⟨us, hus, hspell⟩, hcan, hlevel, hquiet⟩ := hn (hu.skip 1) hoperand
    have hpost : ¬op.isPostfix = true := by simp [hp]
    refine ⟨⟨⟨_, (Cursor.Steps.one hafter).trans hus, ?_⟩, ?_, ?_⟩, ?_⟩
    · rw [Expr.Spells, if_neg hpost]
      exact ⟨token, us, rfl, hk, hspell⟩
    · rw [Expr.Canonical, if_neg hpost]
      exact ⟨hlevel, hcan⟩
    · rw [Expr.tailFloor, if_neg hpost]
      exact hquiet
    · exact Nat.le_of_eq (by rw [Expr.level, if_neg hpost])
  · obtain ⟨hleft, hlevel⟩ := (primaryOf_inv hafter hprimary).sound hn hu hafter
    exact ⟨hleft, by rw [hlevel]; decide⟩

/-! ### Connectives -/

/-- What a connective at `c` and all that belongs to it make of the expression before it. -/
structure Joins (reading : LessEqualReading) (k : Connective) (lhs : Expr Site) (c : Cursor)
    (node : Site → Expr Site) (c' : Cursor) : Prop where
  spelled : ∃ ts, c.Steps ts c' ∧ ∀ us tag, lhs.Spells us → (node tag).Spells (us ++ ts)
  canonical : ∀ tag, (node tag).Canonical reading
  level : ∀ tag, (node tag).level = k.power
  quiet : ∀ tag, Quiet .compares (node tag).tailFloor c'.after

theorem Joined.sound (hn : Sound nested) {k : Connective} {lhs : Expr Site} {node : Site → Expr Site}
    {rest : List Token} (h : Joined nested lhs c k node c') (hu : Undelayed c) (hafter : c.after = token :: rest)
    (hk : Connective.ofKind? reading token.kind = some k) (hlhs : lhs.Canonical reading)
    (hlevel : k.leftLevel ≤ lhs.level) : Joins reading k lhs c node c' := by
  have hmark := Connective.ofKind?_eq_some_iff.1 hk
  have hone : c.Steps [token] (c.skip 1) := .one hafter
  have hinterior (n : Nat) : Undelayed ((c.skip 1).ahead n) := (hu.skip 1).ahead n
  cases h with
  | index hsteps ho hcl hread hend =>
    obtain ⟨⟨us, hus, hspell⟩, hcan, -, -⟩ := hn (hinterior _) hread
    obtain rfl := (interior_after hsteps).symm.trans (steps_to_end hus hend)
    exact ⟨⟨_, hsteps, fun vs tag hvs => ⟨vs, _, _, _, rfl, hvs, ho, hspell, hcl⟩⟩,
      fun tag => ⟨hlevel, hlhs, hcan⟩, fun tag => rfl, fun tag => .of_postfixPower⟩
  | slice hsteps ho hcl hleft hahead hm hright hend =>
    obtain ⟨⟨us, hus, hspell⟩, hcan, -, -⟩ := hn (hinterior _) hleft
    obtain ⟨⟨ws, hws, hspell'⟩, hcan', -, -⟩ := hn (((hinterior _).steps hus).skip 1) hright
    obtain rfl := (interior_after hsteps).symm.trans (steps_to_end ((hus.trans (.one hahead)).trans hws) hend)
    exact ⟨⟨_, hsteps, fun vs tag hvs => ⟨vs, _, us, _, ws, _, by simp, hvs, ho, hspell, hm, hspell', hcl⟩⟩,
      fun tag => ⟨hlevel, hlhs, hcan, hcan'⟩, fun tag => rfl, fun tag => .of_postfixPower⟩
  | scope hahead hname =>
    exact ⟨⟨_, hone.trans (.one hahead), fun us tag hus => ⟨us, token, _, rfl, hus, hmark, hname, rfl⟩⟩,
      fun tag => ⟨hlevel, hlhs⟩, fun tag => rfl, fun tag => .of_postfixPower⟩
  | member hahead hname =>
    exact ⟨⟨_, hone.trans (.one hahead), fun us tag hus => ⟨us, token, _, rfl, hus, hmark, hname, rfl⟩⟩,
      fun tag => ⟨hlevel, hlhs⟩, fun tag => rfl, fun tag => .of_postfixPower⟩
  | postfixOp =>
    obtain ⟨hp, hkind⟩ := hmark
    refine ⟨⟨_, hone, fun us tag hus => ?_⟩, fun tag => ?_, fun tag => ?_, fun tag => ?_⟩
    · rw [Expr.Spells, if_pos hp]
      exact ⟨us, token, rfl, hus, hkind⟩
    · rw [Expr.Canonical, if_pos hp]
      exact ⟨hlevel, hlhs⟩
    · rw [Expr.level, if_pos hp]
      rfl
    · rw [Expr.tailFloor, if_pos hp]
      exact .of_postfixPower
  | conditional hthen hahead hcolon helse =>
    obtain ⟨⟨us, hus, hspell⟩, hcan, -, -⟩ := hn (hu.skip 1) hthen
    obtain ⟨⟨vs, hvs, hspell'⟩, hcan', hlevel', hquiet⟩ := hn (((hu.skip 1).steps hus).skip 1) helse
    refine ⟨⟨_, ((hone.trans hus).trans (.one hahead)).trans hvs, fun ws tag hws => ?_⟩,
      fun tag => ⟨hlevel, hlevel', hlhs, hcan, hcan'⟩, fun tag => rfl, fun tag => hquiet⟩
    exact ⟨ws, token, us, _, vs, by simp, hws, hmark, hspell, hcolon, hspell'⟩
  | @assignment op _ _ _ hvalue =>
    obtain ⟨⟨vs, hvs, hspell⟩, hcan, -, hquiet⟩ := hn (hu.skip 1) hvalue
    obtain ⟨hkind, hreading⟩ := hmark
    refine ⟨⟨_, hone.trans hvs, fun us tag hus => ⟨us, token, vs, rfl, hus, hkind, hspell⟩⟩,
      fun tag => ?_, fun tag => rfl, fun tag => hquiet⟩
    by_cases hop : op = .nonBlocking
    · rw [Connective.leftLevel, if_pos hop] at hlevel
      exact ⟨fun _ => ⟨hreading hop, hlevel⟩, Nat.lt_of_lt_of_le (by decide) hlevel, hlhs, hcan⟩
    · rw [Connective.leftLevel, if_neg hop] at hlevel
      exact ⟨fun h => absurd h hop, hlevel, hlhs, hcan⟩
  | delayedAssignment hsharp =>
    rw [(hu.skip 1).check] at hsharp
    cases hsharp
  | @binary op _ _ hrhs =>
    obtain ⟨hkind, hreading⟩ := hmark
    have hpower : op.power ≤ 140 := op.power_bounds.2.1
    obtain ⟨⟨vs, hvs, hspell⟩, hcan, hright, hquiet⟩ := hn (hu.skip 1) hrhs
    refine ⟨⟨_, hone.trans hvs, fun us tag hus => ⟨us, token, vs, rfl, hus, hkind, hspell⟩⟩,
      fun tag => ⟨hreading, hlevel, ?_, hlhs, hcan⟩, fun tag => rfl, fun tag => hquiet⟩
    rw [Nat.min_eq_left (Nat.le_trans (Nat.succ_le_succ hpower) (by decide))] at hright
    exact hright

/-! ### The loop -/

theorem climbUpTo_sound (hn : Sound nested) {c₀ : Cursor} {lhs : Expr Site} (hu : Undelayed c)
    (hleft : LeftOperand reading c₀ lhs c) (hlevel : min (floor + 1) prefixPower ≤ lhs.level)
    (h : climbUpTo nested reading floor n lhs c = .ok (e, c')) : Delivered reading floor c₀ e c' := by
  replace h := climbUpTo_eq_ok.1 h
  induction h with
  | stop hquiet _ => exact ⟨hleft.spelled, hleft.canonical, hlevel, hquiet⟩
  | turn hafter hk hfloor hnode _ ih =>
    obtain ⟨ts, hts, hspell⟩ := hleft.spelled
    have hquiet := hleft.quiet
    rw [hafter] at hquiet
    obtain ⟨⟨us, hus, hjoin⟩, hcan, hpower, hquiet'⟩ := (connectiveOf_inv hnode).sound hn hu hafter
      hk hleft.canonical (Expr.leftLevel_le hquiet hk)
    refine ih (hu.steps hus) ⟨⟨_, hts.trans hus, hjoin ts _ hspell⟩, hcan _, hquiet' _⟩ ?_
    rw [grown, hpower]
    omega

/-- What an expression reader gives is canonical if what its nested readers give is. -/
theorem expressionOf_sound (hn : Sound nested) (hu : Undelayed c)
    (h : expressionOf nested reading floor c = .ok (e, c')) : Delivered reading floor c e c' := by
  obtain ⟨lhs, c₁, hlhs, h⟩ := bind_eq_ok.1 h
  obtain ⟨hleft, hlevel⟩ := operandOf_sound hn hu hlhs
  obtain ⟨ts, hts, -⟩ := hleft.spelled
  exact climbUpTo_sound hn (hu.steps hts) hleft (Nat.le_trans (Nat.min_le_right _ _) hlevel) h

end Readers

/-! ### All budgets -/

theorem expressionWithin_sound (n : Nat) (reading : LessEqualReading) {floor : Nat} {c c' : Cursor}
    {e : Expr Site} (hu : Undelayed c) (h : expressionWithin n reading floor c = .ok (e, c')) :
    Delivered reading floor c e c' := by
  induction n generalizing reading floor c e c' with
  | zero => exact absurd h bottomless_ne_ok
  | succ n ih => exact expressionOf_sound (fun _ _ _ _ hu h => ih .compares hu h) hu h

end Parser

end SystemVerilog
