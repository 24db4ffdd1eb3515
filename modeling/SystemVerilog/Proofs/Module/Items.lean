import SystemVerilog.Proofs.Module.Declarations
import SystemVerilog.Proofs.Module.Directives
import SystemVerilog.Proofs.Statement.Complete

/-!
# Items that hold statements are read

An item of a module body starts with a token that neither a statement nor a label in front of it would
claim, so that the last statement of an always or initial block ends where the next item starts. The
continuous assignments, always blocks and initial blocks are read from the tokens that spell them.
-/

namespace SystemVerilog

/-! ### The first words of items -/

section Words

variable {α : Type} {kind : TokenKind} {ts : List Token}

theorem word_of_direction {direction : Direction} (h : Direction.ofKind? kind = some direction) :
    ∃ k, kind = .word k ∧ k.isDirection = true := by
  unfold Direction.ofKind? at h
  split at h <;> first | exact ⟨_, rfl, rfl⟩ | cases h

theorem word_of_always {a : AlwaysKind} (h : AlwaysKind.ofKind? kind = some a) :
    ∃ k, kind = .word k ∧ k ≠ .kwElse := by
  unfold AlwaysKind.ofKind? at h
  split at h <;> first | exact ⟨_, rfl, by decide⟩ | cases h

theorem word_of_keywordIn? {admitted : Keyword → Bool} {k : Keyword}
    (h : TokenKind.keywordIn? admitted kind = some k) : kind = .word k ∧ admitted k = true := by
  unfold TokenKind.keywordIn? at h
  split at h
  · split at h
    · obtain rfl := Option.some.inj h
      exact ⟨rfl, ‹_›⟩
    · cases h
  · cases h

/-- A declaration of signals starts with a net type or with the keyword of its data type. -/
theorem SignalGroup.Spells.starts {group : SignalGroup α} (h : group.Spells ts) (hcan : group.Canonical) :
    ∃ t us k, ts = t :: us ∧ t.kind = .word k ∧ (k.isNetType || k.namesDataType) = true := by
  obtain ⟨_, m, rfl, ⟨vs, ws, rfl, hvs, xs, ys, rfl, hxs, -⟩, -⟩ := h
  rcases hnet : group.net with _ | net
  · rcases hcan.worded with hworded | ⟨type, htype, hkeyword⟩
    · exact absurd hnet hworded
    · rw [hnet] at hvs
      obtain rfl : vs = [] := hvs
      rw [htype] at hxs
      obtain ⟨zs, zs', zs'', rfl, hzs, -⟩ := hxs
      obtain ⟨k, hk⟩ := Option.ne_none_iff_exists'.1 hkeyword
      rw [hk] at hzs
      obtain ⟨t, rfl, ht⟩ := hzs
      obtain ⟨hkind, hk⟩ := word_of_keywordIn? ht
      exact ⟨t, _, k, rfl, hkind, by rw [hk, Bool.or_true]⟩
  · rw [hnet] at hvs
    obtain ⟨t, rfl, ht⟩ := hvs
    obtain ⟨hkind, hk⟩ := word_of_keywordIn? ht
    exact ⟨t, _, net, rfl, hkind, by rw [hk, Bool.true_or]⟩

theorem ParameterGroup.Spells.starts {group : ParameterGroup α} (h : group.Spells ts) :
    ∃ t us, ts = t :: us ∧ (t.kind = .word .kwParameter ∨ t.kind = .word .kwLocalparam) := by
  obtain ⟨_, m, rfl, ⟨k, vs, rfl, hk, -⟩, -⟩ := h
  refine ⟨k, _, rfl, ?_⟩
  unfold parameterWord? at hk
  split at hk
  · exact .inl ‹_›
  · exact .inr ‹_›
  · cases hk

theorem PortGroup.Spells.starts {group : PortGroup α} (h : group.Spells ts) :
    ∃ t us k, ts = t :: us ∧ t.kind = .word k ∧ k.isDirection = true := by
  obtain ⟨_, m, rfl, ⟨k, vs, ws, rfl, hk, -⟩, -⟩ := h
  obtain ⟨w, hw, hdirection⟩ := word_of_direction hk
  exact ⟨k, _, w, rfl, hw, hdirection⟩

end Words

namespace BodyItem

variable {α : Type} {ts : List Token}

theorem SpellsBlock.starts {b : GenerateBlock α (BodyItem α)} (h : SpellsBlock b ts) :
    ∃ t us, ts = t :: us ∧ t.kind = .word .kwBegin := by
  obtain ⟨_, label, items⟩ := b
  obtain ⟨t, ls, us, e, ms, rfl, ht, -⟩ := h
  exact ⟨t, _, rfl, ht⟩

theorem SpellsBlock.startsItem {b : GenerateBlock α (BodyItem α)} (h : SpellsBlock b ts) : StartsItem ts := by
  obtain ⟨t, us, rfl, ht⟩ := h.starts
  exact .of_word ht (by decide)

/-- No item of a module body starts with a token that the item in front of it would claim. -/
theorem Spells.starts {item : BodyItem α} (h : item.Spells ts) (hcan : item.Canonical) : StartsItem ts := by
  cases item with
  | parameters group =>
    obtain ⟨t, us, rfl, ht | ht⟩ := ParameterGroup.Spells.starts h <;> exact .of_word ht (by decide)
  | ports group =>
    obtain ⟨t, us, k, rfl, ht, hk⟩ := PortGroup.Spells.starts h
    exact .of_word ht (by rintro rfl; cases hk)
  | signals group =>
    obtain ⟨t, us, k, rfl, ht, hk⟩ := SignalGroup.Spells.starts h hcan
    exact .of_word ht (by rintro rfl; cases hk)
  | genvars group =>
    obtain ⟨_, m, rfl, ⟨k, vs, rfl, hk, -⟩, -⟩ := h
    exact .of_word hk (by decide)
  | assign group =>
    obtain ⟨_, m, rfl, ⟨k, vs, ws, rfl, hk, -⟩, -⟩ := h
    exact .of_word hk (by decide)
  | always a =>
    obtain ⟨k, us, vs, rfl, hk, -⟩ := h
    obtain ⟨w, hw, hne⟩ := word_of_always hk
    exact .of_word hw hne
  | initial i =>
    obtain ⟨k, us, rfl, hk, -⟩ := h
    exact .of_word hk (by decide)
  | instantiation inst =>
    obtain ⟨_, m, rfl, ⟨n, us, i, vs, rfl, hn, -⟩, -⟩ := h
    exact .of_kind hn (by decide) (by decide)
  | block b =>
    obtain ⟨t, us, rfl, ht⟩ := SpellsBlock.starts h
    exact .of_word ht (by decide)
  | region tag items =>
    obtain ⟨o, us, c, rfl, ho, -⟩ := h
    exact .of_word ho (by decide)
  | generateIf tag condition thenBlock elseBlock =>
    obtain ⟨i, us, vs, ws, rfl, hi, -⟩ := h
    exact .of_word hi (by decide)
  | generateFor tag header body =>
    obtain ⟨f, us, vs, rfl, hf, -⟩ := h
    exact .of_word hf (by decide)
  | generateCase tag selector items default =>
    obtain ⟨k, us, vs, ws, e, rfl, hk, -⟩ := h
    exact .of_word hk (by decide)
  | directive d =>
    obtain ⟨t, us, rfl, ht, -⟩ := h
    exact .of_kind ht (by decide) (by decide)
  | empty tag =>
    obtain ⟨m, rfl, hm⟩ := h
    exact .of_kind hm (by decide) (by decide)

end BodyItem

/-- Only a statement that waits for an event starts with the sign of one. -/
theorem Statement.Spells.head_ne_atSign {α : Type} {s : Statement α} {t : Token} {us : List Token}
    (h : s.Spells (t :: us)) (hevent : s.isEvent = false) : t.kind ≠ .op .atSign := by
  intro ht
  cases s with
  | block tag label ss =>
    obtain ⟨b, ls, vs, e, ms, heq, hb, -⟩ := h
    obtain ⟨rfl, -⟩ := List.cons.inj heq
    rw [ht] at hb
    cases hb
  | ifElse tag condition thenBranch elseBranch =>
    obtain ⟨i, vs, ws, xs, heq, hi, -⟩ := h
    obtain ⟨rfl, -⟩ := List.cons.inj heq
    rw [ht] at hi
    cases hi
  | caseOf tag kind selector items default =>
    obtain ⟨k, vs, ws, xs, e, heq, hk, -⟩ := h
    obtain ⟨rfl, -⟩ := List.cons.inj heq
    rw [ht] at hk
    cases hk
  | loop tag header body =>
    obtain ⟨f, vs, ws, heq, hf, -⟩ := h
    obtain ⟨rfl, -⟩ := List.cons.inj heq
    rw [ht] at hf
    cases hf
  | delayed tag delay body =>
    obtain ⟨vs, ws, heq, ⟨d, xs, m, ys, rfl, hd, -⟩, -⟩ := h
    obtain ⟨rfl, -⟩ := List.cons.inj heq
    rw [ht] at hd
    cases hd
  | event tag sensitivity body => cases hevent
  | expression tag e =>
    obtain ⟨vs, m, heq, hvs, -⟩ := h
    obtain ⟨u, ws, rfl, hu⟩ := hvs.starts
    obtain ⟨rfl, -⟩ := List.cons.inj heq
    rw [ht] at hu
    cases hu
  | empty tag =>
    obtain ⟨m, heq, hm⟩ := h
    obtain ⟨rfl, -⟩ := List.cons.inj heq
    rw [ht] at hm
    cases hm

namespace Parser

section Items

variable {c c' : Cursor} {ts : List Token}

/-! ### Always and initial blocks -/

theorem optionalSensitivity_complete {o : Option (Sensitivity Unit)} (hs : c.Steps ts c')
    (hspell : SpellsOption Sensitivity.Spells o ts) (hcan : ∀ s, o = some s → s.Canonical)
    (hfaithful : ∀ t ∈ ts, t.Faithful)
    (hnext : o = none → ∀ t us, c'.after = t :: us → t.kind ≠ .op .atSign) :
    Reads optionalSensitivity (Option.map (Sensitivity.map fun _ => ())) c o c' := by
  cases o with
  | none =>
    obtain rfl : ts = [] := hspell
    obtain rfl := hs.of_nil
    refine ⟨none, ?_, rfl⟩
    rw [optionalSensitivity, check_bind, if_neg (by simp [Cursor.check_eq_false (hnext rfl)])]
    rfl
  | some s =>
    obtain ⟨s', hread, rfl⟩ := sensitivity_complete hs hspell (hcan s rfl) hfaithful
    obtain ⟨a, us, rfl, ha, -⟩ := hspell
    refine ⟨some s', ?_, rfl⟩
    rw [optionalSensitivity, check_bind, if_pos (Cursor.check_of_after hs.after ha)]
    exact map_of_ok hread

theorem alwaysBlock_complete {a : AlwaysBlock Unit} (hs : c.Steps ts c') (hspell : a.Spells ts)
    (hcan : a.Canonical) (hfaithful : ∀ t ∈ ts, t.Faithful) (hnext : FollowsItem c'.after) :
    Reads (alwaysBlock a.kind) (AlwaysBlock.map fun _ => ()) c a c' := by
  obtain ⟨k, us, vs, rfl, -, hus, hvs⟩ := hspell
  obtain ⟨hafter, hs⟩ := hs.of_cons
  obtain ⟨c₁, hs₁, hs₂⟩ := hs.of_append
  have hword : consume c = .ok (k, c.skip 1) := demandWith_eq_ok.2 ⟨_, hafter, rfl, rfl⟩
  obtain ⟨sensitivity, hsensitivity, hmap⟩ := optionalSensitivity_complete hs₁ hus
    (fun s h => (hcan.sensitivity s h).1) (fun t h => hfaithful t (by simp [h])) fun hnone t ws h => by
      obtain ⟨u, xs, rfl, -⟩ := hvs.startsItem
      obtain ⟨rfl, -⟩ := List.cons.inj (hs₂.after.symm.trans h)
      exact hvs.head_ne_atSign (hcan.controlled hnone)
  obtain ⟨body, hbody, herase⟩ := statement_complete hs₂ hvs hcan.body.1
    (fun t h => hfaithful t (by simp [h])) hnext.statement
  refine .tagged ⟨fun tag => ⟨tag, a.kind, sensitivity, body⟩, ?_, fun tag => ?_⟩
  · rw [bind_of_ok hword, bind_of_ok hsensitivity]
    exact map_of_ok hbody
  · show AlwaysBlock.mk () a.kind (sensitivity.map (Sensitivity.map fun _ => ())) body.erase = a
    rw [hmap, herase]

theorem initialBlock_complete {i : InitialBlock Unit} (hs : c.Steps ts c') (hspell : i.Spells ts)
    (hcan : i.body.Fits) (hfaithful : ∀ t ∈ ts, t.Faithful) (hnext : FollowsItem c'.after) :
    Reads initialBlock (InitialBlock.map fun _ => ()) c i c' := by
  obtain ⟨k, us, rfl, hk, hus⟩ := hspell
  obtain ⟨hafter, hs⟩ := hs.of_cons
  have hword : expect (.word .kwInitial) c = .ok (k, c.skip 1) := expect_eq_ok.2 ⟨_, hafter, hk, rfl⟩
  obtain ⟨body, hbody, herase⟩ := statement_complete hs hus hcan.1 (fun t h => hfaithful t (by simp [h]))
    hnext.statement
  refine .tagged ⟨fun tag => ⟨tag, body⟩, ?_, fun tag => ?_⟩
  · rw [bind_of_ok hword]
    exact map_of_ok hbody
  · show InitialBlock.mk () body.erase = i
    rw [herase]

/-! ### Continuous assignments -/

theorem continuousAssignment_complete {e : Expr Unit} (hs : c.Steps ts c') (hspell : e.Spells ts)
    (hplain : e.AssignsPlainly) (hacts : e.Acts) (hnext : EndsElement c'.after) :
    Reads continuousAssignment Expr.erase c e c' := by
  obtain ⟨e', hread, rfl⟩ := statementExpression_complete hs hspell hacts.canonical hnext.stops
  have hassigns : e'.assigns? = some .assign := by
    rw [← Expr.assigns?_map fun _ => ()]
    show e'.erase.assigns? = _
    cases herase : e'.erase with
    | assignment tag op target value =>
      rw [herase] at hplain
      obtain rfl : op = .assign := hplain
      rfl
    | _ =>
      rw [herase] at hplain
      exact hplain.elim
  refine ⟨e', ?_, rfl⟩
  rw [continuousAssignment, bind_of_ok hread, if_pos hassigns]
  rfl

/-- What is assigned to does not start with an operator. -/
theorem assignment_starts {e : Expr Unit} (hspell : e.Spells ts) (hplain : e.AssignsPlainly)
    (hacts : e.Acts) : ∃ t us, ts = t :: us ∧ t.kind.startsExpression = true ∧
      UnaryOp.ofKind? t.kind = none := by
  have hstep : e.startsWithStep = false := by
    cases e <;> first | rfl | exact hplain.elim
  obtain ⟨t, us, rfl, ht⟩ := hspell.starts
  obtain ⟨u, vs, heq, hu⟩ := hacts.starts hspell hstep
  obtain ⟨rfl, -⟩ := List.cons.inj heq
  exact ⟨t, us, rfl, ht, hu⟩

theorem optionalDelay_complete {o : Option (Delay Unit)} {t : Token} {us : List Token} (hs : c.Steps ts c')
    (hspell : SpellsOption (fun delay vs => delay.Spells vs c'.after) o ts)
    (hcan : ∀ delay, o = some delay → delay.Canonical) (hnext : c'.after = t :: us)
    (ht : t.kind.startsExpression = true) (hu : UnaryOp.ofKind? t.kind = none) :
    Reads optionalDelay (Option.map (Delay.map fun _ => ())) c o c' := by
  cases o with
  | none =>
    obtain rfl : ts = [] := hspell
    obtain rfl := hs.of_nil
    have hsharp : c'.check (.op .sharp) = false := Cursor.check_eq_false fun t' us' h hk => by
      obtain ⟨rfl, -⟩ := List.cons.inj (hnext.symm.trans h)
      rw [hk] at ht
      cases ht
    refine ⟨none, ?_, rfl⟩
    rw [optionalDelay, check_bind, if_neg (by simp [hsharp])]
    rfl
  | some delay =>
    have hquiet : Quiet .compares prefixPower c'.after := by
      intro t' us' k h hk
      obtain ⟨rfl, -⟩ := List.cons.inj (hnext.symm.trans h)
      rw [TokenKind.connective_of_startsExpression ht hu] at hk
      cases hk
    obtain ⟨delay', hread, rfl⟩ := delay_complete hs hspell (hcan delay rfl) hquiet
    obtain ⟨h, vs, m, ws, rfl, hh, -⟩ := hspell
    refine ⟨some delay', ?_, rfl⟩
    rw [optionalDelay, check_bind, if_pos (Cursor.check_of_after hs.after hh)]
    exact map_of_ok hread

theorem continuousAssign_complete {group : ContinuousAssign Unit} (hs : c.Steps ts c')
    (hspell : group.Spells ts) (hcan : group.Canonical) (hfaithful : ∀ t ∈ ts, t.Faithful) :
    Reads continuousAssign (ContinuousAssign.map fun _ => ()) c group c' := by
  have hcalm := hspell.calm hcan hfaithful
  refine .tagged (beforeSemicolon_complete hs hspell hcalm ?_)
  rintro us c₁ c₂ ⟨k, vs, ws, rfl, hk, hvs, hws⟩ hs hend
  obtain ⟨hafter, hs⟩ := hs.of_cons
  obtain ⟨c₃, hs₁, hs₂⟩ := hs.of_append
  have hc₃ : c₃.after = ws := by rw [hs₂.after, hend, List.append_nil]
  have hword : expect (.word .kwAssign) c₁ = .ok (k, c₁.skip 1) := expect_eq_ok.2 ⟨_, hafter, hk, rfl⟩
  obtain ⟨t, xs, hstart, ht, hu⟩ : ∃ t xs, c₃.after = t :: xs ∧ t.kind.startsExpression = true ∧
      UnaryOp.ofKind? t.kind = none := by
    cases hassignments : group.assignments with
    | nil => exact absurd hassignments hcan.nonempty
    | cons e es =>
      obtain ⟨hplain, hacts, -⟩ := hcan.assignments e (by simp [hassignments])
      rw [hassignments] at hws
      obtain ⟨xs, ys, rfl, hxs, -⟩ := hws
      obtain ⟨t, zs, rfl, ht, hu⟩ := assignment_starts hxs hplain hacts
      exact ⟨t, _, hc₃, ht, hu⟩
  obtain ⟨delay, hdelay, hmap⟩ := optionalDelay_complete hs₁ (hc₃ ▸ hvs)
    (fun delay h => (hcan.delay delay h).1) hstart ht hu
  obtain ⟨es, hes, hmap'⟩ := listBy_complete (m := "',' or ';'") hs₂ hws hend hcan.nonempty
    fun e he _ _ _ hspell hs hnext => continuousAssignment_complete hs hspell (hcan.assignments e he).1
      (hcan.assignments e he).2.1 hnext
  refine ⟨fun tag => ⟨tag, delay, es⟩, ?_, fun tag => ?_⟩
  · rw [bind_of_ok hword, bind_of_ok hdelay]
    exact map_of_ok hes
  · show ContinuousAssign.mk () (delay.map (Delay.map fun _ => ())) (es.map Expr.erase) = group
    rw [hmap, hmap']

/-- A lone semicolon. -/
theorem emptyItem_complete (hs : c.Steps ts c') (hspell : (BodyItem.empty ()).Spells ts) :
    Reads emptyItem (BodyItem.map fun _ => ()) c (.empty ()) c' := by
  obtain ⟨m, rfl, -⟩ := hspell
  obtain ⟨-, hs⟩ := hs.of_cons
  obtain rfl := hs.of_nil
  exact .tagged ⟨fun tag => .empty tag, rfl, fun tag => rfl⟩

end Items

end Parser

end SystemVerilog
