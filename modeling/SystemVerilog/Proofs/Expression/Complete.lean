import SystemVerilog.Proofs.Expression.Climbing
import SystemVerilog.Proofs.Expression.Spelling

/-!
# Every canonical expression is read

Tokens that spell a canonical expression are read as that expression, up to the sites of its nodes,
if what follows them neither binds tighter than the floor nor makes a call of it (`Stops`). Brackets
are isolated because they are balanced; the operators along the left edge are taken up by the loop one
after the other (`Climbs`), each with a nested expression that is read by a shorter span.
-/

namespace SystemVerilog

/-- What comes next neither binds tighter than a floor nor opens the arguments of a call. -/
structure Stops (floor : Nat) (rest : List Token) : Prop where
  quiet : Quiet .compares floor rest
  uncalled : ∀ t us, rest = t :: us → t.kind ≠ .op .lParen

theorem Stops.nil {floor : Nat} : Stops floor [] := ⟨.nil, fun _ _ h => by cases h⟩

/-- A token that is neither a connective nor an opening parenthesis ends every expression. -/
theorem Stops.of_kind {floor : Nat} {t : Token} {us : List Token}
    (hk : Connective.ofKind? .compares t.kind = none) (hp : t.kind ≠ .op .lParen) :
    Stops floor (t :: us) := by
  refine ⟨fun t' us' k h hk' => ?_, fun t' us' h => ?_⟩ <;> obtain ⟨rfl, -⟩ := List.cons.inj h
  · rw [hk] at hk'
    cases hk'
  · exact hp

theorem Expr.SpellsTail.head_eq_comma {α : Type} {es : List (Expr α)} {ts us : List Token} {t : Token}
    (h : SpellsTail es ts) (ht : ts = t :: us) : t.kind = .op .comma := by
  subst ht
  cases es with
  | nil => cases h
  | cons e es =>
    obtain ⟨m, vs, ws, heq, hm, -⟩ := h
    rw [(List.cons.inj heq).1, hm]

theorem Expr.SpellsTail.stops {α : Type} {es : List (Expr α)} {ts : List Token} {floor : Nat}
    (h : SpellsTail es ts) : Stops floor ts := by
  cases hts : ts with
  | nil => exact .nil
  | cons t us =>
    have ht := h.head_eq_comma hts
    exact .of_kind (by rw [ht]; rfl) (by rw [ht]; decide)

theorem UnaryOp.ofKind?_of_isName {kind : TokenKind} (h : kind.isName = true) :
    UnaryOp.ofKind? kind = none := by
  unfold UnaryOp.ofKind?
  split <;> first | rfl | cases h

/-- The expressions without their tags. -/
def Expr.eraseAll {α : Type} (es : List (Expr α)) : List (Expr Unit) := mapAll (fun _ => ()) es

namespace Parser

/-- A reader gives an expression, up to its sites, and leads from `c` to `c'`. -/
def Gives (p : Parser (Expr Site)) (c : Cursor) (e : Expr Unit) (c' : Cursor) : Prop :=
  ∃ e', p c = .ok (e', c') ∧ e'.erase = e

/-- Every canonical expression in a span of fewer than `bound` tokens is read. -/
def Complete (nested : Nested) (bound : Nat) : Prop :=
  ∀ ⦃floor c c' ts e⦄, c.after.length < bound → c.Steps ts c' → Expr.Spells e ts →
    e.Canonical .compares → floor ≤ prefixPower → min (floor + 1) prefixPower ≤ e.level →
    Stops floor c'.after → Gives (nested floor) c e c'

theorem Complete.mono {nested : Nested} {bound bound' : Nat} (h : Complete nested bound)
    (hb : bound' ≤ bound) : Complete nested bound' := fun _ _ _ _ _ hc =>
  h (Nat.lt_of_lt_of_le hc hb)

/-- Where a reading above the least floor is enough. -/
theorem Complete.whole {nested : Nested} {bound : Nat} (h : Complete nested bound) {c c' : Cursor}
    {ts : List Token} {e : Expr Unit} (hc : c.after.length < bound) (hs : c.Steps ts c')
    (hspell : e.Spells ts) (hcan : e.Canonical .compares) (hstop : Stops 0 c'.after) :
    Gives (nested 0) c e c' :=
  h hc hs hspell hcan (Nat.zero_le _) e.one_le_level hstop

section Readers

variable {nested : Nested} {c c' : Cursor} {e : Expr Unit} {es : List (Expr Unit)}
  {reading : LessEqualReading} {floor n bound : Nat} {ts : List Token}

/-! ### Lists -/

theorem followersUpTo_complete (hn : Complete nested bound) {m : String} (hs : c.Steps ts c')
    (hend : c'.after = []) (hspell : Expr.SpellsTail es ts) (hcan : Expr.AllCanonical es)
    (hb : c.after.length ≤ bound) (hlen : c.after.length ≤ n) :
    ∃ es', followersUpTo (comma m) (nested 0) n c = .ok (es', c') ∧ Expr.eraseAll es' = es := by
  induction es generalizing c ts n with
  | nil =>
    unfold Expr.SpellsTail at hspell
    subst hspell
    obtain rfl := hs.of_nil
    exact ⟨[], followersUpTo_eq_ok.2 (.done hend), rfl⟩
  | cons e es ih =>
    obtain ⟨t, us, vs, rfl, ht, hus, hvs⟩ := hspell
    obtain ⟨hafter, hs⟩ := hs.of_cons
    obtain ⟨c₁, hs₁, hs₂⟩ := hs.of_append
    have hshort : (c.skip 1).after.length < c.after.length := by simp [hafter]
    have hshort' := hs₁.length
    have hc₁ : c₁.after = vs := by rw [hs₂.after, hend, List.append_nil]
    obtain ⟨e', he', rfl⟩ := hn.whole (by omega) hs₁ hus hcan.1 (hc₁ ▸ hvs.stops)
    cases n with
    | zero => simp [hafter] at hlen
    | succ n =>
      obtain ⟨es', hes', rfl⟩ := ih (n := n) hs₂ hvs hcan.2 (by omega) (by omega)
      have hcomma : comma m c = .ok ((), c.skip 1) := comma_eq_ok.2 ⟨t, _, hafter, ht, rfl⟩
      have hne : c.after ≠ [] := List.ne_nil_iff_exists_cons.2 ⟨t, _, hafter⟩
      exact ⟨e' :: es', followersUpTo_eq_ok.2 (.more hne hcomma he' (followersUpTo_eq_ok.1 hes')), rfl⟩

theorem followers_complete (hn : Complete nested bound) {m : String} (hs : c.Steps ts c')
    (hend : c'.after = []) (hspell : Expr.SpellsTail es ts) (hcan : Expr.AllCanonical es)
    (hb : c.after.length ≤ bound) :
    ∃ es', followers (comma m) (nested 0) c = .ok (es', c') ∧ Expr.eraseAll es' = es :=
  followersUpTo_complete hn hs hend hspell hcan hb (Nat.le_refl _)

theorem listOf_complete (hn : Complete nested bound) (hs : c.Steps ts c') (hend : c'.after = [])
    (hspell : Expr.SpellsList es ts) (hcan : Expr.AllCanonical es) (hb : c.after.length < bound) :
    ∃ es', listOf nested c = .ok (es', c') ∧ Expr.eraseAll es' = es := by
  cases es with
  | nil =>
    unfold Expr.SpellsList at hspell
    subst hspell
    obtain rfl := hs.of_nil
    refine ⟨[], ?_, rfl⟩
    rw [listOf, atEnd_bind, if_pos (Cursor.atEnd_eq_true_iff.2 hend)]
    rfl
  | cons e es =>
    obtain ⟨us, vs, rfl, hus, hvs⟩ := hspell
    obtain ⟨c₁, hs₁, hs₂⟩ := hs.of_append
    have hc₁ : c₁.after = vs := by rw [hs₂.after, hend, List.append_nil]
    have hshort := hs₁.length
    obtain ⟨e', he', rfl⟩ := hn.whole hb hs₁ hus hcan.1 (hc₁ ▸ hvs.stops)
    obtain ⟨es', hes', rfl⟩ := followers_complete (m := "',' or end of list") hn hs₂ hend hvs hcan.2
      (by omega)
    refine ⟨e' :: es', ?_, rfl⟩
    obtain ⟨t, us', rfl, -⟩ := hus.starts
    rw [listOf, atEnd_bind, if_neg (by simp [Cursor.atEnd_of_after_cons hs₁.after])]
    exact (bind_of_ok he').trans (bind_of_ok hes')

/-- Brackets around what spells expressions are isolated by counting. -/
theorem enclosed_complete {α : Type} {p : Parser α} {P : α → Prop} {opening closing : TokenKind}
    {o cl : Token} (hp : (opening, closing) ∈ bracketPairs)
    (hs : c.Steps (o :: (ts ++ [cl])) c') (ho : o.kind = opening) (hcl : cl.kind = closing)
    (hts : SkipsPairs opening closing ts)
    (hread : ∀ c₁ c₂, c₁.Steps ts c₂ → c₂.after = [] → c₁.after.length < c.after.length →
      ∃ a, p c₁ = .ok (a, c₂) ∧ P a) :
    ∃ a, (enclosed opening closing p : Parser α) c = .ok (a, c') ∧ P a := by
  obtain ⟨h₁, h₂, h₃⟩ := inFamily_of_mem_bracketPairs hp
  subst ho hcl
  exact enclosed_reads hs h₁ h₂ h₃ hts hread

theorem enclosed_listOf_complete (hn : Complete nested bound) {opening closing : TokenKind}
    {o cl : Token} (hp : (opening, closing) ∈ bracketPairs) (hs : c.Steps (o :: (ts ++ [cl])) c')
    (ho : o.kind = opening) (hcl : cl.kind = closing) (hspell : Expr.SpellsList es ts)
    (hcan : Expr.AllCanonical es) (hb : c.after.length ≤ bound) :
    ∃ es', (enclosed opening closing (listOf nested) : Parser _) c = .ok (es', c') ∧
      Expr.eraseAll es' = es :=
  enclosed_complete hp hs ho hcl (hspell.skipsPairs hp) fun _ _ hs hend hshort =>
    listOf_complete hn hs hend hspell hcan (Nat.lt_of_lt_of_le hshort hb)

/-! ### Operands -/

theorem callOf_complete_of_name (hstop : ∀ t us, c.after = t :: us → t.kind ≠ .op .lParen)
    (callee : Expr Site) : callOf nested callee c = .ok (callee, c) := by
  rw [callOf, check_bind, if_neg (by simp [Cursor.check_eq_false hstop])]
  rfl

theorem callOf_complete (hn : Complete nested bound) {o cl : Token}
    (hs : c.Steps (o :: (ts ++ [cl])) c') (ho : o.kind = .op .lParen) (hcl : cl.kind = .op .rParen)
    (hspell : Expr.SpellsList es ts) (hcan : Expr.AllCanonical es) (hb : c.after.length ≤ bound)
    (callee : Expr Site) : Gives (callOf nested callee) c (.call () callee.erase () es) c' := by
  obtain ⟨args, hargs, rfl⟩ := enclosed_listOf_complete hn (by decide) hs ho hcl hspell hcan hb
  rw [Gives, callOf, check_bind, if_pos (Cursor.check_of_after hs.after ho)]
  exact ⟨_, (bind_of_ok (tagged_of_ok (map_of_ok hargs))).trans rfl, rfl⟩

theorem primaryOf_of_isName {token : Token} (h : token.kind.isName = true) : primaryOf nested token =
    (do
      let callee ← tagged do
        let _ ← advance?
        return fun tag => .identifier tag token.text
      callOf nested callee) := by
  have hk : token.kind = .identifier ∨ ∃ k, token.kind = .word k := by
    cases hk : token.kind with
    | identifier => exact .inl rfl
    | word k => exact .inr ⟨k, rfl⟩
    | _ => rw [hk] at h; cases h
  rcases hk with hk | ⟨k, hk⟩ <;> rw [hk] at h <;> simp only [primaryOf, hk, h, if_true]

/-- What an operand does that starts with a name: it reads the name and looks for arguments. -/
theorem operandOf_of_isName (nested : Nested) {c₁ : Cursor} {callee : Expr Unit} (hname : callee.isName = true)
    (hspell : callee.Spells ts) (hs : c.Steps ts c₁) :
    ∃ callee', callee'.erase = callee ∧ operandOf nested c = callOf nested callee' c₁ := by
  cases callee with
  | identifier tag name =>
    obtain ⟨t, rfl, ht, rfl⟩ := hspell
    obtain ⟨hafter, hs⟩ := hs.of_cons
    obtain rfl := hs.of_nil
    refine ⟨.identifier ⟨c.location, ⟨c.position, (c.skip 1).position⟩⟩ t.text, rfl, ?_⟩
    rw [operandOf_of_primary hafter (UnaryOp.ofKind?_of_isName ht), primaryOf_of_isName ht]
    rfl
  | systemIdentifier tag name =>
    obtain ⟨d, w, rfl, hd, hw, htouch, rfl⟩ := hspell
    obtain ⟨hafter, hs⟩ := hs.of_cons
    obtain ⟨hafter', hs⟩ := hs.of_cons
    obtain rfl := hs.of_nil
    refine ⟨.systemIdentifier ⟨c.location, ⟨c.position, ((c.skip 1).skip 1).position⟩⟩ ("$" ++ w.text),
      rfl, ?_⟩
    have hdollar : consume c = .ok (d, c.skip 1) := demandWith_eq_ok.2 ⟨_, hafter, rfl, rfl⟩
    have hsystem : systemIdentifier c = .ok (.systemIdentifier
        ⟨c.location, ⟨c.position, ((c.skip 1).skip 1).position⟩⟩ ("$" ++ w.text), (c.skip 1).skip 1) := by
      refine tagged_of_ok (f := fun tag => Expr.systemIdentifier tag ("$" ++ w.text)) ?_
      rw [bind_of_ok hdollar, current?_bind, Cursor.current?, hafter']
      simp only [List.head?_cons, hw, htouch, Bool.and_self, if_true, advance?_bind]
      rfl
    rw [operandOf_of_primary hafter (by rw [hd]; rfl)]
    simp only [primaryOf, hd]
    exact bind_of_ok hsystem
  | _ => cases hname

theorem Gives.tagged {p : Parser (Site → Expr Site)}
    (h : ∃ node, p c = .ok (node, c') ∧ ∀ tag, (node tag).erase = e) :
    Gives (SystemVerilog.tagged p) c e c' := by
  obtain ⟨node, hread, hnode⟩ := h
  exact ⟨_, tagged_of_ok hread, hnode _⟩

theorem bracesOf_concatenation (hn : Complete nested bound) {o cl : Token} {first : Expr Unit}
    (hs : c.Steps (o :: (ts ++ [cl])) c') (ho : o.kind = .op .lBrace) (hcl : cl.kind = .op .rBrace)
    (hspell : Expr.SpellsList (first :: es) ts) (hcan : Expr.AllCanonical (first :: es))
    (hb : c.after.length ≤ bound) : Gives (bracesOf nested) c (.concatenation () (first :: es)) c' := by
  refine .tagged (enclosed_complete (by decide) hs ho hcl (hspell.skipsPairs (by decide))
    fun c₁ c₂ hs hend hshort => ?_)
  obtain ⟨us, vs, rfl, hus, hvs⟩ := hspell
  obtain ⟨c₃, hs₁, hs₂⟩ := hs.of_append
  have hc₃ : c₃.after = vs := by rw [hs₂.after, hend, List.append_nil]
  have hlen := hs₁.length
  obtain ⟨e', he', rfl⟩ := hn.whole (by omega) hs₁ hus hcan.1 (hc₃ ▸ hvs.stops)
  obtain ⟨es', hes', rfl⟩ := followers_complete (m := "',' or '\x7d'") hn hs₂ hend hvs hcan.2 (by omega)
  have hcheck : c₃.check (.op .lBrace) = false := by
    refine Cursor.check_eq_false fun t ws ht => ?_
    rw [hc₃] at ht
    rw [hvs.head_eq_comma ht]
    decide
  refine ⟨fun tag => .concatenation tag (e' :: es'), ?_, fun tag => rfl⟩
  rw [bind_of_ok he', check_bind, if_neg (by simp [hcheck])]
  exact map_of_ok hes'

theorem bracesOf_replication (hn : Complete nested bound) {o o' cl' cl : Token} {count : Expr Unit}
    {us vs : List Token} (hs : c.Steps (o :: (us ++ o' :: (vs ++ [cl', cl]))) c')
    (ho : o.kind = .op .lBrace) (hus : count.Spells us) (ho' : o'.kind = .op .lBrace)
    (hvs : Expr.SpellsList es vs) (hcl' : cl'.kind = .op .rBrace) (hcl : cl.kind = .op .rBrace)
    (hcan : count.Canonical .compares) (hall : Expr.AllCanonical es) (hb : c.after.length ≤ bound) :
    Gives (bracesOf nested) c (.replication () count es) c' := by
  have hs' : c.Steps (o :: ((us ++ o' :: (vs ++ [cl'])) ++ [cl])) c' := by simpa using hs
  have hskip : SkipsPairs (.op .lBrace) (.op .rBrace) (us ++ o' :: (vs ++ [cl'])) :=
    (hus.skipsPairs (by decide)).append (.pair (by rw [ho']; rfl) (by rw [hcl']; rfl) (by rw [hcl']; rfl)
      (hvs.skipsPairs (by decide)))
  refine .tagged (enclosed_complete (by decide) hs' ho hcl hskip fun c₁ c₂ hs hend hshort => ?_)
  obtain ⟨c₃, hs₁, hs₂⟩ := hs.of_append
  have hlen := hs₁.length
  have hstop : Stops 0 c₃.after := by
    rw [hs₂.after]
    exact .of_kind (by rw [ho']; rfl) (by rw [ho']; decide)
  obtain ⟨count', hcount, rfl⟩ := hn.whole (by omega) hs₁ hus hcan hstop
  obtain ⟨items, hitems, rfl⟩ := enclosed_listOf_complete hn (by decide) hs₂ ho' hcl' hvs hall (by omega)
  refine ⟨fun tag => .replication tag count' items, ?_, fun tag => rfl⟩
  rw [bind_of_ok hcount, check_bind, if_pos (Cursor.check_of_after hs₂.after ho'), bind_of_ok hitems,
    bind_of_ok ((expectEnd_eq_ok (u := ())).2 ⟨hend, rfl⟩)]
  rfl

theorem operandOf_literal {kind : LiteralKind} {text : String} (hs : c.Steps ts c')
    (hspell : (Expr.literal () kind text).Spells ts) :
    Gives (operandOf nested) c (.literal () kind text) c' := by
  obtain ⟨t, rfl, ht, rfl⟩ := hspell
  obtain ⟨hafter, hs⟩ := hs.of_cons
  obtain rfl := hs.of_nil
  unfold Token.literalKind? at ht
  split at ht
  · rename_i hk
    cases ht
    rw [Gives, operandOf_of_primary hafter (by rw [hk]; rfl)]
    simp only [primaryOf, hk]
    exact ⟨_, tagged_of_ok (map_of_ok rfl), rfl⟩
  · rename_i hk
    cases ht
    rw [Gives, operandOf_of_primary hafter (by rw [hk]; rfl)]
    simp only [primaryOf, hk]
    exact ⟨_, tagged_of_ok (map_of_ok rfl), rfl⟩
  · cases ht

theorem operandOf_parenthesis (hn : Complete nested bound) {inner : Expr Unit} (hs : c.Steps ts c')
    (hspell : (Expr.parenthesis () inner).Spells ts) (hcan : inner.Canonical .compares)
    (hb : c.after.length ≤ bound) : Gives (operandOf nested) c (.parenthesis () inner) c' := by
  obtain ⟨o, us, cl, rfl, ho, hus, hcl⟩ := hspell
  rw [Gives, operandOf_of_primary hs.after (by rw [ho]; rfl)]
  simp only [primaryOf, ho]
  have hinner : ∃ inner', (enclosed (.op .lParen) (.op .rParen) (filling "')'" (nested 0)) : Parser _) c =
      .ok (inner', c') ∧ inner'.erase = inner := by
    refine enclosed_complete (by decide) hs ho hcl (hus.skipsPairs (by decide))
      fun c₁ c₂ hs hend hshort => ?_
    obtain ⟨inner', hinner, hinner'⟩ := hn.whole (by omega) hs hus hcan (hend ▸ .nil)
    exact ⟨inner', filling_eq_ok.2 ⟨hinner, hend⟩, hinner'⟩
  obtain ⟨inner', hinner, rfl⟩ := hinner
  exact ⟨_, tagged_of_ok (map_of_ok hinner), rfl⟩

theorem operandOf_arrayPattern (hn : Complete nested bound) (hs : c.Steps ts c')
    (hspell : (Expr.arrayPattern () es).Spells ts) (hcan : Expr.AllCanonical es)
    (hb : c.after.length ≤ bound) : Gives (operandOf nested) c (.arrayPattern () es) c' := by
  obtain ⟨q, o, us, cl, rfl, hq, ho, hus, hcl⟩ := hspell
  obtain ⟨hafter, hs⟩ := hs.of_cons
  have hshort : (c.skip 1).after.length < c.after.length := by simp [hafter]
  obtain ⟨items, hitems, rfl⟩ := enclosed_listOf_complete hn (by decide) hs ho hcl hus hcan (by omega)
  rw [Gives, operandOf_of_primary hafter (by rw [hq]; rfl)]
  have hpeek : c.peekKind? 1 = some (.op .lBrace) := by
    simp [Cursor.peekKind?, Cursor.peek?, hafter, ho]
  simp only [primaryOf, hq, peekKind?_bind, hpeek, if_true]
  refine ⟨_, tagged_of_ok (f := fun tag => .arrayPattern tag items) ?_, rfl⟩
  rw [advance?_bind]
  exact map_of_ok hitems

theorem operandOf_unary (hn : Complete nested bound) {op : UnaryOp} {operand : Expr Unit}
    (hpost : ¬op.isPostfix = true) (hs : c.Steps ts c')
    (hspell : (Expr.unary () op operand).Spells ts)
    (hcan : (Expr.unary () op operand).Canonical reading) (hb : c.after.length ≤ bound)
    (hstop : Stops prefixPower c'.after) : Gives (operandOf nested) c (.unary () op operand) c' := by
  rw [Expr.Spells, if_neg hpost] at hspell
  rw [Expr.Canonical, if_neg hpost] at hcan
  obtain ⟨t, us, rfl, ht, hus⟩ := hspell
  obtain ⟨hlevel, hcan⟩ := hcan
  obtain ⟨hafter, hs⟩ := hs.of_cons
  have hshort : (c.skip 1).after.length < c.after.length := by simp [hafter]
  obtain ⟨operand', hoperand, rfl⟩ :=
    hn (by omega) hs hus hcan (Nat.le_refl _) (by rw [Nat.min_eq_right (Nat.le_succ _)]; exact hlevel) hstop
  have hop := UnaryOp.ofKind?_eq_some_iff.2 ⟨by simpa using hpost, ht⟩
  rw [Gives, operandOf, current?_bind, Cursor.current?, hafter]
  simp only [List.head?_cons, hop]
  refine ⟨_, tagged_of_ok (f := fun tag => .unary tag op operand') ?_, rfl⟩
  rw [advance?_bind]
  exact map_of_ok hoperand

/-! ### Connectives -/

/-- Once the tokens up to `c'` have been read as the expression `e`, the loop goes on with as many
rounds as there are tokens left, or more. -/
def Climbs (nested : Nested) (reading : LessEqualReading) (floor : Nat) (c : Cursor) (e : Expr Unit)
    (c' : Cursor) : Prop :=
  ∃ e' n, e'.erase = e ∧ c'.after.length ≤ n ∧
    expressionOf nested reading floor c = climbUpTo nested reading floor n e' c'

theorem Climbs.of_operand (h : Gives (operandOf nested) c e c') : Climbs nested reading floor c e c' := by
  obtain ⟨e', he', rfl⟩ := h
  exact ⟨e', _, rfl, Nat.le_refl _, bind_of_ok he'⟩

/-- A connective behind an expression adds what it makes of it. -/
theorem Climbs.join {c₁ : Cursor} {lhs : Expr Unit} {k : Connective} {t : Token}
    (h : Climbs nested reading floor c lhs c₁) (hs : c₁.Steps (t :: ts) c')
    (hk : k.Marks reading t.kind) (hfloor : floor < k.power)
    (hjoin : ∀ lhs', lhs'.erase = lhs →
      ∃ node, connectiveOf nested k lhs' c₁ = .ok (node, c') ∧ ∀ tag, (node tag).erase = e) :
    Climbs nested reading floor c e c' := by
  obtain ⟨lhs', n, hlhs, hn, hread⟩ := h
  obtain ⟨node, hnode, herase⟩ := hjoin lhs' hlhs
  have hlen := hs.length
  cases n with
  | zero =>
    rw [List.length_cons] at hlen
    omega
  | succ n =>
    refine ⟨grown lhs' node c', n, herase _, ?_, hread.trans ?_⟩
    · rw [List.length_cons] at hlen
      omega
    · exact climbUpTo_connective hs.after (Connective.ofKind?_eq_some_iff.2 hk) hfloor hnode

section Joins

variable {t : Token} (lhs : Expr Site)

theorem connectiveOf_index (hn : Complete nested bound) {subscript : Expr Unit} {o cl : Token}
    (hs : c.Steps (o :: (ts ++ [cl])) c') (ho : o.kind = .op .lBracket) (hts : subscript.Spells ts)
    (hcl : cl.kind = .op .rBracket) (hcan : subscript.Canonical .compares)
    (hb : c.after.length ≤ bound) : ∃ node, connectiveOf nested .select lhs c = .ok (node, c') ∧
      ∀ tag, (node tag).erase = .index () lhs.erase subscript := by
  refine enclosed_complete (by decide) hs ho hcl (hts.skipsPairs (by decide))
    fun c₁ c₂ hs hend hshort => ?_
  obtain ⟨subscript', hsub, rfl⟩ := hn.whole (by omega) hs hts hcan (hend ▸ .nil)
  refine ⟨fun tag => .index tag lhs subscript', ?_, fun tag => rfl⟩
  rw [selectorOf, bind_of_ok hsub, current?_bind, Cursor.current?, hend]
  rfl

theorem connectiveOf_slice (hn : Complete nested bound) {kind : SliceKind} {left right : Expr Unit}
    {us vs : List Token} {o m cl : Token} (hs : c.Steps (o :: (us ++ m :: (vs ++ [cl]))) c')
    (ho : o.kind = .op .lBracket) (hus : left.Spells us) (hm : m.kind = kind.separator)
    (hvs : right.Spells vs) (hcl : cl.kind = .op .rBracket) (hleft : left.Canonical .compares)
    (hright : right.Canonical .compares) (hb : c.after.length ≤ bound) :
    ∃ node, connectiveOf nested .select lhs c = .ok (node, c') ∧
      ∀ tag, (node tag).erase = .slice () kind lhs.erase left right := by
  have hs' : c.Steps (o :: ((us ++ m :: vs) ++ [cl])) c' := by simpa using hs
  refine enclosed_complete (by decide) hs' ho hcl (Expr.skipsPairs_bounds hus hm hvs (by decide))
    fun c₁ c₂ hs hend hshort => ?_
  obtain ⟨c₃, hs₁, hs₂⟩ := hs.of_append
  obtain ⟨hafter, hs₃⟩ := hs₂.of_cons
  have hlen := hs₁.length
  have hshort₃ : (c₃.skip 1).after.length < c₃.after.length := by simp [hafter]
  have hstop : Stops 0 c₃.after := by
    rw [hafter]
    exact .of_kind (by rw [hm]; cases kind <;> rfl) (by rw [hm]; cases kind <;> decide)
  obtain ⟨left', hleft', rfl⟩ := hn.whole (by omega) hs₁ hus hleft hstop
  obtain ⟨right', hright', rfl⟩ := hn.whole (by omega) hs₃ hvs hright (hend ▸ .nil)
  refine ⟨fun tag => .slice tag kind lhs left' right', ?_, fun tag => rfl⟩
  rw [selectorOf, bind_of_ok hleft', current?_bind, Cursor.current?, hafter]
  simp only [List.head?_cons, sliceKind?_eq_some_iff.2 hm, advance?_bind]
  exact map_of_ok (filling_eq_ok.2 ⟨hright', hend⟩)

theorem connectiveOf_conditional (hn : Complete nested bound) {thenExpr elseExpr : Expr Unit}
    {us vs : List Token} {q m : Token} (hs : c.Steps (q :: (us ++ m :: vs)) c')
    (hus : thenExpr.Spells us) (hm : m.kind = .op .colon) (hvs : elseExpr.Spells vs)
    (hthen : thenExpr.Canonical .compares) (helse : elseExpr.Canonical .compares)
    (hlevel : conditionalPower ≤ elseExpr.level) (hstop : Stops (conditionalPower - 1) c'.after)
    (hb : c.after.length ≤ bound) : ∃ node, connectiveOf nested .conditional lhs c = .ok (node, c') ∧
      ∀ tag, (node tag).erase = .conditional () lhs.erase thenExpr elseExpr := by
  obtain ⟨hafter, hs⟩ := hs.of_cons
  obtain ⟨c₁, hs₁, hs₂⟩ := hs.of_append
  obtain ⟨hafter₁, hs₃⟩ := hs₂.of_cons
  have hlen := hs₁.length
  have hshort : (c.skip 1).after.length < c.after.length := by simp [hafter]
  have hshort₁ : (c₁.skip 1).after.length < c₁.after.length := by simp [hafter₁]
  have hstop₁ : Stops 0 c₁.after := by
    rw [hafter₁]
    exact .of_kind (by rw [hm]; rfl) (by rw [hm]; decide)
  obtain ⟨then', hthen', rfl⟩ := hn.whole (by omega) hs₁ hus hthen hstop₁
  have hfloor : min (conditionalPower - 1 + 1) prefixPower ≤ elseExpr.level := hlevel
  obtain ⟨else', helse', rfl⟩ := hn (by omega) hs₃ hvs helse (by decide) hfloor hstop
  refine ⟨fun tag => .conditional tag lhs then' else', ?_, fun tag => rfl⟩
  have hcolon : expectAs (.op .colon) "':' in conditional expression" c₁ = .ok (m, c₁.skip 1) :=
    expectAs_eq_ok.2 ⟨_, hafter₁, hm, rfl⟩
  rw [connectiveOf, advance?_bind, bind_of_ok hthen', bind_of_ok hcolon, bind_of_ok helse']
  rfl

theorem connectiveOf_assignment (op : AssignOp) (hn : Complete nested bound) {value : Expr Unit}
    (hs : c.Steps (t :: ts) c') (hts : value.Spells ts) (hcan : value.Canonical .compares)
    (hstop : Stops (assignPower - 1) c'.after) (hb : c.after.length ≤ bound) :
    ∃ node, connectiveOf nested (.assignment op) lhs c = .ok (node, c') ∧
      ∀ tag, (node tag).erase = .assignment () op lhs.erase value := by
  obtain ⟨hafter, hs⟩ := hs.of_cons
  have hshort : (c.skip 1).after.length < c.after.length := by simp [hafter]
  have hlevel : min (assignPower - 1 + 1) prefixPower ≤ value.level := value.assignPower_le_level
  obtain ⟨value', hvalue, rfl⟩ := hn (by omega) hs hts hcan (by decide) hlevel hstop
  have hcheck : (c.skip 1).check (.op .sharp) = false := by
    obtain ⟨u, us, rfl, hu⟩ := hts.starts
    refine Cursor.check_eq_false fun u' us' h => ?_
    obtain ⟨rfl, -⟩ := List.cons.inj (hs.after.symm.trans h)
    intro hsharp
    rw [hsharp] at hu
    cases hu
  refine ⟨fun tag => .assignment tag op lhs value', ?_, fun tag => rfl⟩
  rw [connectiveOf, advance?_bind, assignmentOf, check_bind, if_neg (by simp [hcheck])]
  exact map_of_ok hvalue

theorem connectiveOf_binary (hn : Complete nested bound) {op : BinaryOp} {rhs : Expr Unit}
    (hs : c.Steps (t :: ts) c') (hts : rhs.Spells ts) (hcan : rhs.Canonical .compares)
    (hlevel : op.power < rhs.level) (hstop : Stops op.power c'.after) (hb : c.after.length ≤ bound) :
    ∃ node, connectiveOf nested (.binary op) lhs c = .ok (node, c') ∧
      ∀ tag, (node tag).erase = .binary () op lhs.erase rhs := by
  obtain ⟨hafter, hs⟩ := hs.of_cons
  have hshort : (c.skip 1).after.length < c.after.length := by simp [hafter]
  have hpower : op.power ≤ 140 := op.power_bounds.2.1
  obtain ⟨rhs', hrhs, rfl⟩ := hn (by omega) hs hts hcan (Nat.le_trans hpower (by decide))
    (Nat.le_trans (Nat.min_le_left _ _) hlevel) hstop
  refine ⟨fun tag => .binary tag op lhs rhs', ?_, fun tag => rfl⟩
  rw [connectiveOf, advance?_bind]
  exact map_of_ok hrhs

end Joins

/-! ### Whole expressions -/

/-- A connective ends what it admits as its left operand. -/
theorem stops_of_marks {lhs : Expr Unit} {k : Connective} {t : Token} {rest : List Token}
    (hk : k.Marks reading t.kind) (hleft : k.leftLevel ≤ lhs.level) :
    Stops lhs.tailFloor (t :: rest) := by
  have hof := Connective.ofKind?_eq_some_iff.2 hk
  refine ⟨Expr.quiet_tailFloor hleft hof, fun t' us h ht => ?_⟩
  obtain ⟨rfl, -⟩ := List.cons.inj h
  rw [ht] at hof
  cases hof

/-- An expression behind whose left operand the connective `k` stands, if that operand is read. -/
theorem Climbs.extend {lhs : Expr Unit} {k : Connective} {t : Token} {us vs : List Token}
    (hk : k.Marks reading t.kind) (hleft : k.leftLevel ≤ lhs.level) (hf : floor ≤ prefixPower)
    (hlevel : min (floor + 1) prefixPower ≤ k.power) (hs : c.Steps (us ++ t :: vs) c')
    (ih : ∀ c₁, c.Steps us c₁ → min (floor + 1) prefixPower ≤ lhs.level →
      Stops lhs.tailFloor c₁.after → Climbs nested reading floor c lhs c₁)
    (hjoin : ∀ c₁ lhs', c₁.Steps (t :: vs) c' → c₁.after.length ≤ c.after.length → lhs'.erase = lhs →
      ∃ node, connectiveOf nested k lhs' c₁ = .ok (node, c') ∧ ∀ tag, (node tag).erase = e) :
    Climbs nested reading floor c e c' := by
  obtain ⟨c₁, hs₁, hs₂⟩ := hs.of_append
  have hlen := hs₁.length
  have hstop : Stops lhs.tailFloor c₁.after := by
    rw [hs₂.after]
    exact stops_of_marks hk hleft
  refine (ih c₁ hs₁ (Nat.le_trans hlevel (Nat.le_trans k.power_le_leftLevel hleft)) hstop).join hs₂ hk
    (k.lt_power hf hlevel) fun lhs' hlhs => hjoin c₁ lhs' hs₂ (by omega) hlhs

theorem climbs (hn : Complete nested c.after.length) (hf : floor ≤ prefixPower) :
    ∀ {e : Expr Unit} {c' : Cursor} {ts : List Token}, c.Steps ts c' → e.Spells ts →
      e.Canonical reading → min (floor + 1) prefixPower ≤ e.level → Stops e.tailFloor c'.after →
      Climbs nested reading floor c e c'
  | .identifier _ _, c', ts, hs, hspell, _, _, hstop => by
    obtain ⟨callee, hcallee, hread⟩ := operandOf_of_isName nested rfl hspell hs
    exact .of_operand ⟨callee, hread.trans (callOf_complete_of_name hstop.uncalled callee), hcallee⟩
  | .systemIdentifier _ _, c', ts, hs, hspell, _, _, hstop => by
    obtain ⟨callee, hcallee, hread⟩ := operandOf_of_isName nested rfl hspell hs
    exact .of_operand ⟨callee, hread.trans (callOf_complete_of_name hstop.uncalled callee), hcallee⟩
  | .literal _ _ _, c', ts, hs, hspell, _, _, _ => .of_operand (operandOf_literal hs hspell)
  | .parenthesis _ inner, c', ts, hs, hspell, hcan, _, _ =>
    .of_operand (operandOf_parenthesis hn hs hspell hcan (Nat.le_refl _))
  | .arrayPattern _ items, c', ts, hs, hspell, hcan, _, _ =>
    .of_operand (operandOf_arrayPattern hn hs hspell hcan (Nat.le_refl _))
  | .concatenation _ items, c', ts, hs, hspell, hcan, _, _ => by
    obtain ⟨o, us, cl, rfl, ho, hus, hcl⟩ := hspell
    obtain ⟨hne, hcan⟩ := hcan
    cases items with
    | nil => exact absurd rfl hne
    | cons first es =>
      refine .of_operand ?_
      rw [Gives, operandOf_of_primary hs.after (by rw [ho]; rfl)]
      simp only [primaryOf, ho]
      exact bracesOf_concatenation hn hs ho hcl hus hcan (Nat.le_refl _)
  | .replication _ count items, c', ts, hs, hspell, hcan, _, _ => by
    obtain ⟨o, us, o', vs, cl', cl, rfl, ho, hus, ho', hvs, hcl', hcl⟩ := hspell
    refine .of_operand ?_
    rw [Gives, operandOf_of_primary hs.after (by rw [ho]; rfl)]
    simp only [primaryOf, ho]
    exact bracesOf_replication hn hs ho hus ho' hvs hcl' hcl hcan.1 hcan.2 (Nat.le_refl _)
  | .call _ callee _ args, c', ts, hs, hspell, hcan, _, _ => by
    obtain ⟨us, o, vs, cl, rfl, hus, ho, hvs, hcl⟩ := hspell
    obtain ⟨c₁, hs₁, hs₂⟩ := hs.of_append
    have hlen := hs₁.length
    obtain ⟨callee', rfl, hread⟩ := operandOf_of_isName nested hcan.1 hus hs₁
    refine .of_operand ?_
    rw [Gives, hread]
    exact callOf_complete hn hs₂ ho hcl hvs hcan.2 (by omega) callee'
  | .unary _ op operand, c', ts, hs, hspell, hcan, hlevel, hstop => by
    by_cases hpost : op.isPostfix = true
    · rw [Expr.Spells, if_pos hpost] at hspell
      rw [Expr.Canonical, if_pos hpost] at hcan
      rw [Expr.level, if_pos hpost] at hlevel
      obtain ⟨us, t, rfl, hus, ht⟩ := hspell
      refine .extend (k := .postfixOp op) ⟨hpost, ht⟩ hcan.1 hf hlevel hs
        (fun c₁ hs hlevel hstop => climbs hn hf hs hus hcan.2 hlevel hstop)
        fun c₁ lhs' hs _ hlhs => ⟨fun tag => .unary tag op lhs', ?_, fun tag => hlhs ▸ rfl⟩
      rw [connectiveOf, advance?_bind, (hs.of_cons).2.of_nil]
      rfl
    · rw [Expr.tailFloor, if_neg hpost] at hstop
      exact .of_operand (operandOf_unary hn hpost hs hspell hcan (Nat.le_refl _) hstop)
  | .binary _ op lhs rhs, c', ts, hs, hspell, hcan, hlevel, hstop => by
    obtain ⟨us, t, vs, rfl, hus, ht, hvs⟩ := hspell
    obtain ⟨hreading, hleft, hright, hlhs, hrhs⟩ := hcan
    refine .extend (k := .binary op) ⟨ht, hreading⟩ hleft hf hlevel hs
      (fun c₁ hs hlevel hstop => climbs hn hf hs hus hlhs hlevel hstop) fun c₁ lhs' hs hlen h => ?_
    obtain ⟨node, hnode, hnode'⟩ := connectiveOf_binary lhs' hn hs hvs hrhs hright hstop hlen
    exact ⟨node, hnode, fun tag => (hnode' tag).trans (h ▸ rfl)⟩
  | .index _ target subscript, c', ts, hs, hspell, hcan, hlevel, hstop => by
    obtain ⟨us, o, vs, cl, rfl, hus, ho, hvs, hcl⟩ := hspell
    obtain ⟨hleft, htarget, hsub⟩ := hcan
    refine .extend (k := .select) ho hleft hf hlevel hs
      (fun c₁ hs hlevel hstop => climbs hn hf hs hus htarget hlevel hstop) fun c₁ lhs' hs hlen h => ?_
    obtain ⟨node, hnode, hnode'⟩ := connectiveOf_index lhs' hn hs ho hvs hcl hsub hlen
    exact ⟨node, hnode, fun tag => (hnode' tag).trans (h ▸ rfl)⟩
  | .slice _ kind target left right, c', ts, hs, hspell, hcan, hlevel, hstop => by
    obtain ⟨us, o, vs, m, ws, cl, rfl, hus, ho, hvs, hm, hws, hcl⟩ := hspell
    obtain ⟨hleft, htarget, hl, hr⟩ := hcan
    refine .extend (k := .select) ho hleft hf hlevel hs
      (fun c₁ hs hlevel hstop => climbs hn hf hs hus htarget hlevel hstop) fun c₁ lhs' hs hlen h => ?_
    obtain ⟨node, hnode, hnode'⟩ :=
      connectiveOf_slice lhs' hn hs ho hvs hm hws hcl hl hr hlen
    exact ⟨node, hnode, fun tag => (hnode' tag).trans (h ▸ rfl)⟩
  | .conditional _ condition thenExpr elseExpr, c', ts, hs, hspell, hcan, hlevel, hstop => by
    obtain ⟨us, q, vs, m, ws, rfl, hus, hq, hvs, hm, hws⟩ := hspell
    obtain ⟨hleft, hright, hcond, hthen, helse⟩ := hcan
    refine .extend (k := .conditional) hq hleft hf hlevel hs
      (fun c₁ hs hlevel hstop => climbs hn hf hs hus hcond hlevel hstop) fun c₁ lhs' hs hlen h => ?_
    obtain ⟨node, hnode, hnode'⟩ :=
      connectiveOf_conditional lhs' hn hs hvs hm hws hthen helse hright hstop hlen
    exact ⟨node, hnode, fun tag => (hnode' tag).trans (h ▸ rfl)⟩
  | .assignment _ op target value, c', ts, hs, hspell, hcan, hlevel, hstop => by
    obtain ⟨us, t, vs, rfl, hus, ht, hvs⟩ := hspell
    obtain ⟨hreading, hleft, htarget, hvalue⟩ := hcan
    have hleft' : (Connective.assignment op).leftLevel ≤ target.level := by
      by_cases hop : op = .nonBlocking
      · rw [Connective.leftLevel, if_pos hop]
        exact (hreading hop).2
      · rw [Connective.leftLevel, if_neg hop]
        exact hleft
    refine .extend (k := .assignment op) ⟨ht, fun hop => (hreading hop).1⟩ hleft' hf hlevel hs
      (fun c₁ hs hlevel hstop => climbs hn hf hs hus htarget hlevel hstop) fun c₁ lhs' hs hlen h => ?_
    obtain ⟨node, hnode, hnode'⟩ :=
      connectiveOf_assignment lhs' op hn hs hvs hvalue hstop hlen
    exact ⟨node, hnode, fun tag => (hnode' tag).trans (h ▸ rfl)⟩
  | .member _ target name, c', ts, hs, hspell, hcan, hlevel, hstop => by
    obtain ⟨us, d, t, rfl, hus, hd, ht, rfl⟩ := hspell
    refine .extend (k := .member) hd hcan.1 hf hlevel hs
      (fun c₁ hs hlevel hstop => climbs hn hf hs hus hcan.2 hlevel hstop)
      fun c₁ lhs' hs _ hlhs => ⟨fun tag => .member tag lhs' t.text, ?_, fun tag => hlhs ▸ rfl⟩
    have hname := name_of_steps hs.of_cons.2 ht
    rw [connectiveOf, advance?_bind]
    exact map_of_ok hname
  | .scope _ outer name, c', ts, hs, hspell, hcan, hlevel, hstop => by
    obtain ⟨us, d, t, rfl, hus, hd, ht, rfl⟩ := hspell
    refine .extend (k := .scope) hd hcan.1 hf hlevel hs
      (fun c₁ hs hlevel hstop => climbs hn hf hs hus hcan.2 hlevel hstop)
      fun c₁ lhs' hs _ hlhs => ⟨fun tag => .scope tag lhs' t.text, ?_, fun tag => hlhs ▸ rfl⟩
    have hname := name_of_steps hs.of_cons.2 ht
    rw [connectiveOf, advance?_bind]
    exact map_of_ok hname

/-- An expression reader gives every canonical expression if its nested readers do. -/
theorem expressionOf_complete (hn : Complete nested c.after.length) (hf : floor ≤ prefixPower)
    (hs : c.Steps ts c') (hspell : e.Spells ts) (hcan : e.Canonical reading)
    (hlevel : min (floor + 1) prefixPower ≤ e.level) (hstop : Stops floor c'.after) :
    Gives (expressionOf nested reading floor) c e c' := by
  have htail : Stops e.tailFloor c'.after := ⟨hstop.quiet.tailFloor hf hlevel, hstop.uncalled⟩
  obtain ⟨e', n, herase, hlen, hread⟩ := climbs hn hf hs hspell hcan hlevel htail
  exact ⟨e', hread.trans (climbUpTo_stop hstop.quiet.of_compares hlen), herase⟩

end Readers

/-! ### All budgets -/

theorem complete_expressionWithin (n : Nat) : Complete (expressionWithin n .compares) n := by
  induction n with
  | zero => exact fun _ _ _ _ _ h => absurd h (Nat.not_lt_zero _)
  | succ n ih =>
    intro floor c c' ts e hlen hs hspell hcan hf hlevel hstop
    exact expressionOf_complete (ih.mono (Nat.le_of_lt_succ hlen)) hf hs hspell hcan hlevel hstop

section Whole

variable {c c' : Cursor} {ts : List Token} {e : Expr Unit} {reading : LessEqualReading} {floor : Nat}

/-- With the budget that a cursor allows every canonical expression is read. -/
theorem expressionWithin_complete (hf : floor ≤ prefixPower) (hs : c.Steps ts c')
    (hspell : e.Spells ts) (hcan : e.Canonical reading)
    (hlevel : min (floor + 1) prefixPower ≤ e.level) (hstop : Stops floor c'.after) :
    Gives (expressionWithin (budget c) reading floor) c e c' :=
  expressionOf_complete (complete_expressionWithin _) hf hs hspell hcan hlevel hstop

theorem expression_complete (hs : c.Steps ts c') (hspell : e.Spells ts)
    (hcan : e.Canonical .compares) (hstop : Stops 0 c'.after) : Gives expression c e c' := by
  obtain ⟨e', hread, herase⟩ :=
    expressionWithin_complete (Nat.zero_le _) hs hspell hcan e.one_le_level hstop
  exact ⟨e', hread, herase⟩

theorem statementExpression_complete (hs : c.Steps ts c') (hspell : e.Spells ts)
    (hcan : e.Canonical .assigns) (hstop : Stops 0 c'.after) : Gives statementExpression c e c' := by
  obtain ⟨e', hread, herase⟩ :=
    expressionWithin_complete (Nat.zero_le _) hs hspell hcan e.one_le_level hstop
  exact ⟨e', hread, herase⟩

end Whole

end Parser

end SystemVerilog
