import SystemVerilog.Proofs.Statement.Sequences

/-!
# Every canonical statement is read

Tokens that spell a canonical statement are read as that statement, up to the sites of its nodes, if
neither a colon follows nor an `else` that the statement would claim. Blocks and case statements are
isolated by their closing words; inside them statements and case items follow one another, and each
ends exactly where the next one starts.
-/

namespace SystemVerilog

/-- What may follow a statement: no colon, and no `else` that the statement would claim. -/
def Follows {α : Type} (s : Statement α) (rest : List Token) : Prop :=
  ∀ t us, rest = t :: us → t.kind ≠ .op .colon ∧ (s.endsOpen = true → t.kind ≠ .word .kwElse)

section Follow

variable {α : Type} {s : Statement α} {rest : List Token}

theorem Follows.nil : Follows s [] := fun _ _ h => by cases h

/-- What may follow an item may follow every statement. -/
theorem FollowsItem.statement (h : FollowsItem rest) : Follows s rest :=
  fun t us heq => ⟨(h t us heq).1, fun _ => (h t us heq).2⟩

theorem Statement.Spells.startsItem {ts : List Token} (h : s.Spells ts) : StartsItem ts := by
  obtain ⟨t, us, rfl, ht | ⟨ht, -⟩⟩ := h.starts
  · refine ⟨t, us, rfl, ?_, ?_⟩ <;> intro hk <;> rw [hk] at ht <;> cases ht
  · exact .of_startsExpression ht

/-- Only the first token behind a delay matters to it. -/
theorem Delay.Spells.append {delay : Delay α} {ts next : List Token} (h : delay.Spells ts next)
    (hne : next ≠ []) : delay.Spells ts (next ++ rest) := by
  obtain ⟨h, us, m, vs, rfl, hh, hus, hvs, htouch, hnext⟩ := h
  refine ⟨h, us, m, vs, rfl, hh, hus, hvs, htouch, fun t ws hunit heq => ?_⟩
  cases next with
  | nil => exact absurd rfl hne
  | cons u us =>
    obtain ⟨rfl, -⟩ := List.cons.inj heq
    exact hnext u us hunit rfl

end Follow

namespace Parser

/-- Every canonical statement in a span of fewer than `bound` tokens is read. -/
def CompleteStatements (p : Parser (Statement Site)) (bound : Nat) : Prop :=
  ∀ ⦃c c' ts s⦄, c.after.length < bound → c.Steps ts c' → Statement.Spells s ts → s.Canonical →
    (∀ t ∈ ts, t.Faithful) → Follows s c'.after → Reads p Statement.erase c s c'

theorem CompleteStatements.readsIn {p : Parser (Statement Site)} {bound : Nat} {s : Statement Unit}
    {ts : List Token} (h : CompleteStatements p bound) (hcan : s.Canonical) (hfaithful : ∀ t ∈ ts, t.Faithful) :
    ReadsIn p Statement.erase Statement.Spells ts bound s :=
  fun _ _ _ hspell hsub hs hb hfollows =>
    h hb hs hspell hcan (fun t ht => hfaithful t (hsub ht)) hfollows.statement

theorem CompleteStatements.mono {p : Parser (Statement Site)} {bound bound' : Nat}
    (h : CompleteStatements p bound) (hb : bound' ≤ bound) : CompleteStatements p bound' :=
  fun _ _ _ _ hc => h (Nat.lt_of_lt_of_le hc hb)

section Statements

variable {p : Parser (Statement Site)} {c c' : Cursor} {ts : List Token} {bound n : Nat}
  {s : Statement Unit} {ss : List (Statement Unit)}

/-! ### Blocks -/

theorem blockOf_complete {label : Option String} (hn : CompleteStatements p c.after.length)
    (hs : c.Steps ts c') (hspell : (Statement.block () label ss).Spells ts)
    (hcan : Statement.CanonicalAll ss) (hfaithful : ∀ t ∈ ts, t.Faithful)
    (hnext : ∀ t us, c'.after = t :: us → t.kind ≠ .op .colon) :
    Reads (blockOf p) Statement.erase c (.block () label ss) c' := by
  obtain ⟨b, ls, us, e, ms, rfl, hb, hls, hus, he, hms⟩ := hspell
  have hfaithful' : ∀ t ∈ us, t.Faithful := fun t h => hfaithful t (by simp [h])
  obtain ⟨c₁, hs₁, hs₂⟩ := hs.of_append
  obtain ⟨⟨label', ss'⟩, hread, rfl, rfl⟩ := labelled_reads (m := Parser) hs₁ hb he hls
    (Statement.spellsAll_iff.1 hus) (hls.skips.append (hus.skips hcan hfaithful')).block
    (fun _ _ _ h => h.startsItem) fun s h => hn.readsIn (Statement.canonicalAll_iff.1 hcan s h) hfaithful'
  refine .tagged ⟨fun tag => .block tag label' ss', ?_, fun tag => ?_⟩
  · exact (bind_of_ok hread).trans (map_of_ok (endLabel_of_spells hs₂ hms hnext))
  · show Statement.block () _ (Statement.mapAll _ ss') = _
    rw [Statement.mapAll_eq_map]
    rfl

/-! ### Conditional statements -/

theorem ifElseOf_complete {condition : Expr Unit} {thenBranch : Statement Unit}
    {elseBranch : Option (Statement Unit)} (hn : CompleteStatements p c.after.length)
    (hs : c.Steps ts c') (hspell : (Statement.ifElse () condition thenBranch elseBranch).Spells ts)
    (hcan : (Statement.ifElse () condition thenBranch elseBranch).Canonical)
    (hfaithful : ∀ t ∈ ts, t.Faithful)
    (hnext : Follows (.ifElse () condition thenBranch elseBranch) c'.after) :
    Reads (ifElseOf p) Statement.erase c (.ifElse () condition thenBranch elseBranch) c' := by
  obtain ⟨i, us, vs, ws, rfl, hi, hus, hvs, hws⟩ := hspell
  obtain ⟨hcond, hthen, helse, hopen⟩ := hcan
  obtain ⟨hafter, hs⟩ := hs.of_cons
  obtain ⟨c₁, hs₁, hs'⟩ := hs.of_append
  obtain ⟨c₂, hs₂, hs₃⟩ := hs'.of_append
  have hshort : (c.skip 1).after.length < c.after.length := by simp [hafter]
  have hlen₁ := hs₁.length
  have hlen₂ := hs₂.length
  have hif : expect (.word .kwIf) c = .ok (i, c.skip 1) := expect_eq_ok.2 ⟨_, hafter, hi, rfl⟩
  obtain ⟨condition', hreadCond, rfl⟩ := condition_complete hs₁ hus hcond.1
  have hbranch : ∀ t ∈ vs, t.Faithful := fun t h => hfaithful t (by simp [h])
  cases elseBranch with
  | none =>
    unfold Statement.SpellsElse at hws
    subst hws
    obtain rfl := hs₃.of_nil
    have hfollows : Follows thenBranch c'.after := fun t us h =>
      ⟨(hnext t us h).1, fun _ => (hnext t us h).2 rfl⟩
    have helse : c'.check (.word .kwElse) = false :=
      Cursor.check_eq_false fun t us h => (hnext t us h).2 rfl
    obtain ⟨then', hreadThen, rfl⟩ := hn (by omega) hs₂ hvs hthen hbranch hfollows
    refine .tagged ⟨fun tag => .ifElse tag condition' then' none, ?_, fun tag => rfl⟩
    rw [bind_of_ok hif, bind_of_ok hreadCond, bind_of_ok hreadThen, bind_of_ok (eat_of_check helse)]
    rfl
  | some s =>
    obtain ⟨e, xs, rfl, he, hxs⟩ := hws
    obtain ⟨hafter₂, hs₃⟩ := hs₃.of_cons
    have hshort₂ : (c₂.skip 1).after.length < c₂.after.length := by simp [hafter₂]
    have hfollows : Follows thenBranch c₂.after := by
      intro t us h
      obtain ⟨rfl, -⟩ := List.cons.inj (hafter₂.symm.trans h)
      refine ⟨by rw [he]; decide, fun hends => ?_⟩
      rw [hopen rfl] at hends
      cases hends
    obtain ⟨then', hreadThen, rfl⟩ := hn (by omega) hs₂ hvs hthen hbranch hfollows
    obtain ⟨else', hreadElse, rfl⟩ := hn (by omega) hs₃ hxs helse
      (fun t h => hfaithful t (by simp [h])) hnext
    refine .tagged ⟨fun tag => .ifElse tag condition' then' (some else'), ?_, fun tag => rfl⟩
    rw [bind_of_ok hif, bind_of_ok hreadCond, bind_of_ok hreadThen, bind_of_ok (eat_of_after hafter₂ he)]
    exact map_of_ok hreadElse

/-! ### Case statements -/

theorem caseOf_complete {kind : CaseKind} {selector : Expr Unit}
    {items : List (CaseItem Unit (Statement Unit))} {default : Option (Statement Unit)}
    (hn : CompleteStatements p c.after.length) (hs : c.Steps ts c')
    (hspell : (Statement.caseOf () kind selector items default).Spells ts)
    (hcan : (Statement.caseOf () kind selector items default).Canonical)
    (hfaithful : ∀ t ∈ ts, t.Faithful) :
    Reads (caseOf p kind) Statement.erase c (.caseOf () kind selector items default) c' := by
  obtain ⟨k, us, vs, ws, e, rfl, hk, hus, hvs, hws, he⟩ := hspell
  obtain ⟨hselector, hitems, hdefault⟩ := hcan
  have hfaithful' : ∀ t ∈ vs ++ ws, t.Faithful := fun t h => hfaithful t (by
    rcases List.mem_append.1 h with h | h <;> simp [h])
  have hskip : SkipsBlocks (us ++ (vs ++ ws)) :=
    .append (hus.skips hselector.2 fun t h => hfaithful t (by simp [h]))
      (.append (hvs.skips hitems fun t h => hfaithful t (by simp [h]))
        (hws.skips hdefault fun t h => hfaithful t (by simp [h])))
  have hopens : k.kind.inFamily (.word .kwCase) = true := by
    unfold CaseKind.ofKind? at hk
    split at hk <;> first | (simp only [*]; rfl) | cases hk
  refine .tagged (enclosed_reads hs hopens (by rw [he]; rfl) (by rw [he]; rfl) hskip.case
    fun c₁ c₂ hs hend hshort => ?_)
  obtain ⟨c₃, hs₁, hs₂⟩ := hs.of_append
  have hlen := hs₁.length
  obtain ⟨selector', hreadSelector, rfl⟩ := condition_complete hs₁ hus hselector.1
  have hitems := Statement.canonicalItems_iff.1 hitems
  obtain ⟨⟨items', default'⟩, hread, hmap, hmap'⟩ := caseItems_reads (m := Parser)
    hs₂ hend (Statement.spellsItems_iff.1 hvs) (Statement.spellsDefault_iff.1 hws)
    (fun item h => ⟨(hitems item h).1, fun e he => ((hitems item h).2.1 e he).1⟩) (fun _ _ h => h.startsItem)
    (fun item h => hn.readsIn (hitems item h).2.2 hfaithful')
    (fun s h => hn.readsIn (Statement.canonicalOption_iff.1 hdefault s h)
      fun t h => hfaithful' t (List.mem_append_right _ h)) (by omega)
  refine ⟨fun tag => .caseOf tag kind selector' items' default', ?_, fun tag => ?_⟩
  · rw [bind_of_ok hreadSelector]
    exact map_of_ok hread
  · show Statement.caseOf () kind selector'.erase (Statement.mapItems _ items')
      (Statement.mapOption _ default') = _
    rw [Statement.mapItems_eq_map, Statement.mapOption_eq_map, ← hmap, ← hmap']
    rfl

/-! ### Statements with a body -/

theorem loopOf_complete {header : LoopHeader Unit} {body : Statement Unit}
    (hn : CompleteStatements p c.after.length) (hs : c.Steps ts c')
    (hspell : (Statement.loop () header body).Spells ts)
    (hcan : (Statement.loop () header body).Canonical) (hfaithful : ∀ t ∈ ts, t.Faithful)
    (hnext : Follows body c'.after) :
    Reads (loopOf p) Statement.erase c (.loop () header body) c' := by
  obtain ⟨f, us, vs, rfl, hf, hus, hvs⟩ := hspell
  obtain ⟨hafter, hs⟩ := hs.of_cons
  obtain ⟨c₁, hs₁, hs₂⟩ := hs.of_append
  have hshort : (c.skip 1).after.length < c.after.length := by simp [hafter]
  have hlen := hs₁.length
  have hfor : expect (.word .kwFor) c = .ok (f, c.skip 1) := expect_eq_ok.2 ⟨_, hafter, hf, rfl⟩
  obtain ⟨header', hreadHeader, rfl⟩ :=
    loopHeader_complete hs₁ hus hcan.1 fun t h => hfaithful t (by simp [h])
  obtain ⟨body', hread, rfl⟩ := hn (by omega) hs₂ hvs hcan.2 (fun t h => hfaithful t (by simp [h])) hnext
  refine .tagged ⟨fun tag => .loop tag header' body', ?_, fun tag => rfl⟩
  rw [bind_of_ok hfor, bind_of_ok hreadHeader]
  exact map_of_ok hread

theorem delayedOf_complete {delay : Delay Unit} {body : Statement Unit}
    (hn : CompleteStatements p c.after.length) (hs : c.Steps ts c')
    (hspell : (Statement.delayed () delay body).Spells ts)
    (hcan : (Statement.delayed () delay body).Canonical) (hfaithful : ∀ t ∈ ts, t.Faithful)
    (hnext : Follows body c'.after) :
    Reads (delayedOf p) Statement.erase c (.delayed () delay body) c' := by
  obtain ⟨us, vs, rfl, hus, hvs⟩ := hspell
  obtain ⟨hdelay, hbody, hstep⟩ := hcan
  obtain ⟨c₁, hs₁, hs₂⟩ := hs.of_append
  have hlen := hs₁.length
  have hpos : 0 < us.length := by
    obtain ⟨h, _, _, _, hus', -⟩ := hus
    simp [hus']
  have hus' : delay.Spells us c₁.after := by
    rw [hs₂.after]
    exact hus.append hvs.startsItem.ne_nil
  obtain ⟨delay', hreadDelay, rfl⟩ := delay_complete hs₁ hus' hdelay (hs₂.after ▸ hvs.quiet hbody hstep)
  obtain ⟨body', hread, rfl⟩ := hn (by omega) hs₂ hvs hbody (fun t h => hfaithful t (by simp [h])) hnext
  refine .tagged ⟨fun tag => .delayed tag delay' body', ?_, fun tag => rfl⟩
  rw [bind_of_ok hreadDelay]
  exact map_of_ok hread

theorem eventOf_complete {sensitivity : Sensitivity Unit} {body : Statement Unit}
    (hn : CompleteStatements p c.after.length) (hs : c.Steps ts c')
    (hspell : (Statement.event () sensitivity body).Spells ts)
    (hcan : (Statement.event () sensitivity body).Canonical) (hfaithful : ∀ t ∈ ts, t.Faithful)
    (hnext : Follows body c'.after) :
    Reads (eventOf p) Statement.erase c (.event () sensitivity body) c' := by
  obtain ⟨us, vs, rfl, hus, hvs⟩ := hspell
  obtain ⟨c₁, hs₁, hs₂⟩ := hs.of_append
  have hlen := hs₁.length
  have hpos : 0 < us.length := by
    obtain ⟨h, _, hus', -⟩ := hus
    simp [hus']
  obtain ⟨sensitivity', hreadHead, rfl⟩ :=
    sensitivity_complete hs₁ hus hcan.1 fun t h => hfaithful t (by simp [h])
  obtain ⟨body', hread, rfl⟩ := hn (by omega) hs₂ hvs hcan.2 (fun t h => hfaithful t (by simp [h])) hnext
  refine .tagged ⟨fun tag => .event tag sensitivity' body', ?_, fun tag => rfl⟩
  rw [bind_of_ok hreadHead]
  exact map_of_ok hread

/-! ### Single statements -/

theorem expressionStatement_complete {e : Expr Unit} (hs : c.Steps ts c')
    (hspell : (Statement.expression () e).Spells ts) (hacts : e.Acts) (hunblocked : e.Unblocked)
    (hfaithful : ∀ t ∈ ts, t.Faithful) :
    Reads expressionStatement Statement.erase c (.expression () e) c' := by
  obtain ⟨us, m, rfl, hus, hm⟩ := hspell
  obtain ⟨c₁, hs₁, hend⟩ := hs.ahead
  obtain ⟨e', hread, rfl⟩ := statementExpression_complete hs₁ hus hacts.canonical (hend ▸ .nil)
  have hinert := hus.inert hunblocked fun t h => hfaithful t (by simp [h])
  refine .tagged ⟨fun tag => .expression tag e', ?_, fun tag => rfl⟩
  exact beforeSemicolon_of_inert hs hinert hm (map_of_ok (filling_eq_ok.2 ⟨hread, hend⟩))

theorem emptyStatement_complete (hs : c.Steps ts c') (hspell : (Statement.empty ()).Spells ts) :
    Reads emptyStatement Statement.erase c (.empty ()) c' := by
  obtain ⟨m, rfl, -⟩ := hspell
  obtain ⟨-, hs⟩ := hs.of_cons
  obtain rfl := hs.of_nil
  exact .tagged ⟨fun tag => .empty tag, rfl, fun tag => rfl⟩

/-! ### Any statement -/

/-- A statement that no word opens is an expression. -/
theorem statementOf_of_startsExpression {t : Token} {rest : List Token} (h : c.after = t :: rest)
    (ht : t.kind.startsExpression = true) : statementOf p c = expressionStatement c := by
  rw [statementOf, currentKind?_bind, Cursor.currentKind?_of_after h rfl]
  generalize t.kind = kind at ht
  have hcase : CaseKind.ofKind? kind = none := by
    unfold CaseKind.ofKind?
    split <;> first | rfl | exact absurd rfl (TokenKind.startsExpression_ne_word ht rfl)
  simp only [hcase]
  split <;> first | rfl | cases ht

/-- A statement reader gives every canonical statement if the readers of its parts do. -/
theorem statementOf_complete (hn : CompleteStatements p c.after.length) (hs : c.Steps ts c')
    (hspell : s.Spells ts) (hcan : s.Canonical) (hfaithful : ∀ t ∈ ts, t.Faithful)
    (hnext : Follows s c'.after) : Reads (statementOf p) Statement.erase c s c' := by
  cases s with
  | block tag label ss =>
    have hread := blockOf_complete hn hs hspell hcan hfaithful fun t us h => (hnext t us h).1
    obtain ⟨b, ls, us, e, ms, rfl, hb, -⟩ := hspell
    rw [Reads, statementOf, currentKind?_bind, Cursor.currentKind?_of_after hs.after hb]
    exact hread
  | ifElse tag condition thenBranch elseBranch =>
    have hread := ifElseOf_complete hn hs hspell hcan hfaithful hnext
    obtain ⟨i, us, vs, ws, rfl, hi, -⟩ := hspell
    rw [Reads, statementOf, currentKind?_bind, Cursor.currentKind?_of_after hs.after hi]
    exact hread
  | caseOf tag kind selector items default =>
    have hread := caseOf_complete hn hs hspell hcan hfaithful
    obtain ⟨k, us, vs, ws, e, rfl, hk, -⟩ := hspell
    rw [Reads, statementOf, currentKind?_bind, Cursor.currentKind?_of_after hs.after rfl]
    simp only [hk]
    exact hread
  | loop tag header body =>
    have hread := loopOf_complete hn hs hspell hcan hfaithful hnext
    obtain ⟨f, us, vs, rfl, hf, -⟩ := hspell
    rw [Reads, statementOf, currentKind?_bind, Cursor.currentKind?_of_after hs.after hf]
    exact hread
  | delayed tag delay body =>
    have hread := delayedOf_complete hn hs hspell hcan hfaithful hnext
    obtain ⟨us, vs, rfl, ⟨h, us', m, vs', rfl, hh, -⟩, -⟩ := hspell
    rw [Reads, statementOf, currentKind?_bind, Cursor.currentKind?_of_after hs.after hh]
    exact hread
  | event tag sensitivity body =>
    have hread := eventOf_complete hn hs hspell hcan hfaithful hnext
    obtain ⟨us, vs, rfl, ⟨h, us', rfl, hh, -⟩, -⟩ := hspell
    rw [Reads, statementOf, currentKind?_bind, Cursor.currentKind?_of_after hs.after hh]
    exact hread
  | expression tag e =>
    have hread := expressionStatement_complete hs hspell hcan.1 hcan.2 hfaithful
    obtain ⟨us, m, rfl, hus, -⟩ := hspell
    obtain ⟨t, us', rfl, ht⟩ := hus.starts
    rw [Reads, statementOf_of_startsExpression hs.after ht]
    exact hread
  | empty tag =>
    have hread := emptyStatement_complete hs hspell
    obtain ⟨m, rfl, hm⟩ := hspell
    rw [Reads, statementOf, currentKind?_bind, Cursor.currentKind?_of_after hs.after hm]
    exact hread

/-- Every budget of nestings suffices for the spans that are shorter. -/
theorem complete_statementWithin (n : Nat) : CompleteStatements (statementWithin n) n := by
  induction n with
  | zero => exact fun _ _ _ _ h => absurd h (Nat.not_lt_zero _)
  | succ n ih =>
    intro c c' ts s hlen hs hspell hcan hfaithful hnext
    exact statementOf_complete (ih.mono (Nat.le_of_lt_succ hlen)) hs hspell hcan hfaithful hnext

/-- With the budget that a cursor allows every canonical statement is read. -/
theorem statement_complete (hs : c.Steps ts c') (hspell : s.Spells ts) (hcan : s.Canonical)
    (hfaithful : ∀ t ∈ ts, t.Faithful) (hnext : Follows s c'.after) :
    Reads statement Statement.erase c s c' := by
  obtain ⟨s', hread, herase⟩ :=
    complete_statementWithin (budget c) (Nat.lt_succ_self _) hs hspell hcan hfaithful hnext
  exact ⟨s', hread, herase⟩

end Statements

end Parser

end SystemVerilog
