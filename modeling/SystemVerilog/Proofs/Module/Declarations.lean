import SystemVerilog.Proofs.Module.Scanning
import SystemVerilog.Proofs.Reading.Choices
import SystemVerilog.Proofs.Statement.Parts

/-!
# Declarations are read

Each reader of a declaration gives the declaration that the tokens spell: dimensions, declarators, the
groups of a module header, the groups of a module body and instances. A declaration in a body is cut out up
to its semicolon, a list in parentheses up to the closer, and both are read to their end.
-/

namespace SystemVerilog

/-! ### What a declared name or its type starts with -/

namespace TokenKind

variable {kind : TokenKind}

theorem startsDataType_of_isName (h : kind.isName = true) : kind.startsDataType = false :=
  startsDataType_of_startsExpression (startsExpression_of_isName h)

/-- Kinds that the declaration of a name starts with: the name, or its data type. -/
def startsDeclared (kind : TokenKind) : Bool := kind.isName || kind.startsDataType

theorem netType_of_startsDeclared (h : kind.startsDeclared = true) :
    keywordIn? Keyword.isNetType kind = none := by
  cases kind with
  | word k =>
    have hnot : k.isNetType = false := by
      unfold Keyword.isNetType
      split <;> first | rfl | cases h
    simp [keywordIn?, hnot]
  | _ => rfl

theorem direction_of_startsDeclared (h : kind.startsDeclared = true) : Direction.ofKind? kind = none := by
  unfold Direction.ofKind?
  split <;> first | rfl | cases h

theorem parameterWord_of_startsDeclared (h : kind.startsDeclared = true) : parameterWord? kind = none := by
  unfold parameterWord?
  split <;> first | rfl | cases h

theorem direction_of_netType {k : Keyword} (h : keywordIn? Keyword.isNetType kind = some k) :
    Direction.ofKind? kind = none := by
  unfold Direction.ofKind?
  split <;> first | rfl | cases h

end TokenKind

section Heads

variable {ts : List Token}

theorem Declarator.Spells.starts {d : Declarator Unit} (h : d.Spells ts) :
    ∃ t us, ts = t :: us ∧ t.kind.isName = true := by
  obtain ⟨n, us, vs, rfl, hn, -⟩ := h
  exact ⟨n, _, rfl, hn⟩

/-- What stands behind the words of a declaration. -/
theorem startsDeclared_of_spells {type : Option (DataType Unit)} {d : Declarator Unit} {us vs : List Token}
    (hus : SpellsOption DataType.Spells type us) (htype : ∀ t, type = some t → t.Canonical)
    (hvs : d.Spells vs) : ∃ t ws, us ++ vs = t :: ws ∧ t.kind.startsDeclared = true := by
  cases htype' : type with
  | none =>
    rw [htype'] at hus
    obtain rfl : us = [] := hus
    obtain ⟨t, ws, rfl, ht⟩ := hvs.starts
    exact ⟨t, ws, rfl, by rw [TokenKind.startsDeclared, ht]; rfl⟩
  | some type =>
    rw [htype'] at hus
    obtain ⟨t, ws, rfl, ht⟩ := DataType.Spells.starts hus (htype type htype')
    exact ⟨t, _, rfl, by rw [TokenKind.startsDeclared, ht, Bool.or_true]⟩

/-- The first token of a declaration without its words. -/
theorem SpellsDeclared.starts {type : Option (DataType Unit)} {ds : List (Declarator Unit)}
    (h : SpellsDeclared type ds ts) (hcan : Declares type ds) :
    ∃ t us, ts = t :: us ∧ t.kind.startsDeclared = true := by
  obtain ⟨us, vs, rfl, hus, hvs⟩ := h
  cases hds : ds with
  | nil => exact absurd hds hcan.nonempty
  | cons d ds =>
    rw [hds] at hvs
    obtain ⟨xs, ys, rfl, hxs, -⟩ := hvs
    obtain ⟨t, ws, heq, ht⟩ := startsDeclared_of_spells hus (fun t h => (hcan.type t h).1) hxs
    rw [← List.append_assoc, heq]
    exact ⟨t, _, rfl, ht⟩

theorem SpellsEnded.and {spells spells' : List Token → Prop} (h : SpellsEnded spells ts)
    (h' : SpellsEnded spells' ts) : SpellsEnded (fun us => spells us ∧ spells' us) ts := by
  obtain ⟨us, m, rfl, hus, hm⟩ := h
  obtain ⟨vs, m', heq, hvs, -⟩ := h'
  obtain ⟨rfl, -⟩ := List.append_inj' heq rfl
  exact ⟨us, m, rfl, ⟨hus, hvs⟩, hm⟩

/-- What holds of all tokens holds of those in front of the semicolon. -/
theorem SpellsEnded.of_forall {P : Token → Prop} {spells : List Token → Prop} {ts : List Token}
    (ht : ∀ t ∈ ts, P t) (h : SpellsEnded spells ts) : SpellsEnded (fun us => ∀ t ∈ us, P t) ts := by
  obtain ⟨us, m, rfl, -, hm⟩ := h
  exact ⟨us, m, rfl, fun t hmem => ht t (by simp [hmem]), hm⟩

theorem Connection.Spells.ne_nil {connection : Connection Unit} : ¬connection.Spells [] := by
  intro h
  unfold Connection.Spells at h
  split at h
  · obtain ⟨e, -, he⟩ := h
    exact he.ne_nil rfl
  · obtain ⟨d, n, us, heq, -⟩ := h
    cases heq

end Heads

/-- What stands behind an element of a list: a comma or nothing. -/
def EndsElement (rest : List Token) : Prop := ∀ t us, rest = t :: us → t.kind = .op .comma

theorem EndsElement.nil : EndsElement [] := fun _ _ h => by cases h

theorem EndsElement.of_comma {t : Token} {us : List Token} (h : t.kind = .op .comma) :
    EndsElement (t :: us) := by
  intro t' us' heq
  obtain ⟨rfl, -⟩ := List.cons.inj heq
  exact h

theorem EndsElement.stops {rest : List Token} (h : EndsElement rest) : Stops 0 rest := by
  cases rest with
  | nil => exact .nil
  | cons t us =>
    have ht := h t us rfl
    exact .of_kind (by rw [ht]; rfl) (by rw [ht]; decide)

namespace Parser

section Lists

variable {α β : Type} {p : Parser α} {f : α → β} {spells : β → List Token → Prop} {bs : List β}
  {c c' : Cursor} {ts : List Token} {m : String} {n : Nat}

/-! ### Lists -/

theorem followersUpTo_led (hs : c.Steps ts c') (hspell : SpellsLed spells bs ts) (hend : c'.after = [])
    (hread : ∀ b ∈ bs, ∀ us ⦃c c'⦄, spells b us → c.Steps us c' → EndsElement c'.after → Reads p f c b c')
    (hlen : c.after.length ≤ n) : Reads (followersUpTo (comma m) p n) (List.map f) c bs c' := by
  induction bs generalizing c ts n with
  | nil =>
    obtain rfl : ts = [] := hspell
    obtain rfl := hs.of_nil
    exact ⟨[], followersUpTo_eq_ok.2 (.done hend), rfl⟩
  | cons b bs ih =>
    obtain ⟨t, us, vs, rfl, ht, hus, hvs⟩ := hspell
    obtain ⟨hafter, hs⟩ := hs.of_cons
    obtain ⟨c₁, hs₁, hs₂⟩ := hs.of_append
    have hlen₁ := hs₁.length
    have hshort : (c.skip 1).after.length < c.after.length := by simp [hafter]
    have hnext : EndsElement c₁.after := by
      rw [hs₂.after, hend, List.append_nil]
      cases bs with
      | nil => exact hvs ▸ .nil
      | cons b bs =>
        obtain ⟨t', us', vs', rfl, ht', -⟩ := hvs
        exact .of_comma ht'
    obtain ⟨a, ha, rfl⟩ := hread b (by simp) us hus hs₁ hnext
    cases n with
    | zero => omega
    | succ n =>
      obtain ⟨as, has, rfl⟩ := ih (n := n) hs₂ hvs (fun b h => hread b (by simp [h])) (by omega)
      have hcomma : comma m c = .ok ((), c.skip 1) := comma_eq_ok.2 ⟨t, _, hafter, ht, rfl⟩
      have hne : c.after ≠ [] := List.ne_nil_iff_exists_cons.2 ⟨t, _, hafter⟩
      exact ⟨a :: as, followersUpTo_eq_ok.2 (.more hne hcomma ha (followersUpTo_eq_ok.1 has)), rfl⟩

/-- A list with commas between its elements is read to its end. -/
theorem listBy_complete (hs : c.Steps ts c') (hspell : SpellsCommas spells bs ts) (hend : c'.after = [])
    (hne : bs ≠ [])
    (hread : ∀ b ∈ bs, ∀ us ⦃c c'⦄, spells b us → c.Steps us c' → EndsElement c'.after → Reads p f c b c') :
    Reads (listBy (comma m) p) (List.map f) c bs c' := by
  cases bs with
  | nil => exact absurd rfl hne
  | cons b bs =>
    obtain ⟨us, vs, rfl, hus, hvs⟩ := hspell
    obtain ⟨c₁, hs₁, hs₂⟩ := hs.of_append
    have hnext : EndsElement c₁.after := by
      rw [hs₂.after, hend, List.append_nil]
      cases bs with
      | nil => exact hvs ▸ .nil
      | cons b bs =>
        obtain ⟨t', us', vs', rfl, ht', -⟩ := hvs
        exact .of_comma ht'
    obtain ⟨a, ha, rfl⟩ := hread b (by simp) us hus hs₁ hnext
    obtain ⟨as, has, rfl⟩ := followersUpTo_led (m := m) hs₂ hvs hend (fun b h => hread b (by simp [h]))
      (Nat.le_refl _)
    refine ⟨a :: as, ?_, rfl⟩
    rw [listBy, bind_of_ok ha]
    exact map_of_ok has

theorem entriesUpTo_complete (hs : c.Steps ts c') (hspell : SpellsEntries spells bs ts)
    (hend : c'.after = []) (hne : ∀ b ∈ bs, ¬spells b [])
    (hread : ∀ b ∈ bs, ∀ us ⦃c c'⦄, spells b us → c.Steps us c' → EndsElement c'.after → Reads p f c b c')
    (hlen : c.after.length ≤ n) : Reads (entriesUpTo m p n) (List.map f) c bs c' := by
  induction bs generalizing c ts n with
  | nil =>
    obtain rfl : ts = [] := hspell
    obtain rfl := hs.of_nil
    have hatEnd : c'.atEnd = true := Cursor.atEnd_eq_true_iff.2 hend
    refine ⟨[], ?_, rfl⟩
    cases n <;> rw [entriesUpTo, atEnd_bind, if_pos hatEnd] <;> rfl
  | cons b bs ih =>
    obtain ⟨us, vs, rfl, hus, hvs⟩ := hspell
    obtain ⟨c₁, hs₁, hs₂⟩ := hs.of_append
    have hlen₁ := hs₁.length
    have hc₁ : c₁.after = vs := by rw [hs₂.after, hend, List.append_nil]
    have hnext : EndsElement c₁.after := by
      rw [hc₁]
      rcases hvs with ⟨-, rfl⟩ | ⟨t, ws, rfl, ht, -⟩
      · exact .nil
      · exact .of_comma ht
    obtain ⟨t, us', rfl⟩ : ∃ t us', us = t :: us' := List.exists_cons_of_ne_nil fun h =>
      hne b (by simp) (h ▸ hus)
    obtain ⟨a, ha, rfl⟩ := hread b (by simp) _ hus hs₁ hnext
    rw [List.length_cons] at hlen₁
    cases n with
    | zero => omega
    | succ n =>
      have hmore : ¬c.atEnd = true := by simp [Cursor.atEnd_of_after_cons hs₁.after]
      rcases hvs with ⟨rfl, rfl⟩ | ⟨t, ws, rfl, ht, hws⟩
      · obtain rfl := hs₂.of_nil
        refine ⟨[a], ?_, rfl⟩
        rw [entriesUpTo, atEnd_bind, if_neg hmore, bind_of_ok ha, atEnd_bind,
          if_pos (Cursor.atEnd_eq_true_iff.2 hend)]
        rfl
      · obtain ⟨hafter, hs₂⟩ := hs₂.of_cons
        have hshort : (c₁.skip 1).after.length < c₁.after.length := by simp [hafter]
        obtain ⟨as, has, rfl⟩ := ih (n := n) hs₂ hws (fun b h => hne b (by simp [h]))
          (fun b h => hread b (by simp [h])) (by omega)
        refine ⟨a :: as, ?_, rfl⟩
        have hcomma : comma m c₁ = .ok ((), c₁.skip 1) := comma_eq_ok.2 ⟨t, _, hafter, ht, rfl⟩
        rw [entriesUpTo, atEnd_bind, if_neg hmore, bind_of_ok ha, atEnd_bind,
          if_neg (by simp [Cursor.atEnd_of_after_cons hafter]), bind_of_ok hcomma, bind_of_ok has]
        rfl

/-- A list that may be empty and may end in a comma is read to its end. -/
theorem entries_complete (hs : c.Steps ts c') (hspell : SpellsEntries spells bs ts) (hend : c'.after = [])
    (hne : ∀ b ∈ bs, ¬spells b [])
    (hread : ∀ b ∈ bs, ∀ us ⦃c c'⦄, spells b us → c.Steps us c' → EndsElement c'.after → Reads p f c b c') :
    Reads (entries m p) (List.map f) c bs c' :=
  entriesUpTo_complete hs hspell hend hne hread (Nat.le_refl _)

end Lists

section Declarations

variable {c c' : Cursor} {ts : List Token}

/-! ### Parentheses and semicolons -/

theorem parens_complete {α : Type} {p : Parser α} {P : α → Prop} {spells : List Token → Prop}
    (hs : c.Steps ts c') (hspell : SpellsParens spells ts)
    (hskip : ∀ us, spells us → SkipsPairs (.op .lParen) (.op .rParen) us)
    (hread : ∀ us c₁ c₂, spells us → c₁.Steps us c₂ → c₂.after = [] → ∃ a, p c₁ = .ok (a, c₂) ∧ P a) :
    ∃ a, (enclosed (.op .lParen) (.op .rParen) p : Parser α) c = .ok (a, c') ∧ P a := by
  obtain ⟨o, us, cl, rfl, ho, hus, hcl⟩ := hspell
  exact enclosed_complete (by decide) hs ho hcl (hskip us hus) fun c₁ c₂ hs hend _ => hread us c₁ c₂ hus hs hend

/-- Calm tokens up to a semicolon are read to their end. -/
theorem beforeSemicolon_complete {α : Type} {p : Parser α} {P : α → Prop} {spells : List Token → Prop}
    (hs : c.Steps ts c') (hspell : SpellsEnded spells ts) (hcalm : SpellsEnded Calm ts)
    (hread : ∀ us c₁ c₂, spells us → c₁.Steps us c₂ → c₂.after = [] → ∃ a, p c₁ = .ok (a, c₂) ∧ P a) :
    ∃ a, beforeSemicolon p c = .ok (a, c') ∧ P a := by
  obtain ⟨us, m, rfl, ⟨hus, hinert⟩, hm⟩ := hspell.and hcalm
  obtain ⟨c₁, hs₁, hend⟩ := hs.ahead
  obtain ⟨a, ha, hP⟩ := hread us _ _ hus hs₁ hend
  exact ⟨a, beforeSemicolon_of_inert hs hinert.inert hm ha, hP⟩

/-! ### Declarators -/

theorem dimension_complete {d : Dimension Unit} (hs : c.Steps ts c') (hspell : d.Spells ts)
    (hcan : d.Canonical) : Reads dimension (Dimension.map fun _ => ()) c d c' := by
  cases d with
  | bounds b =>
    obtain ⟨b', hread, rfl⟩ := dimension_bounds hs hspell hcan.1
    exact ⟨_, hread, rfl⟩
  | size tag index =>
    obtain ⟨o, us, cl, rfl, ho, hus, hcl⟩ := hspell
    refine .tagged (enclosed_complete (by decide) hs ho hcl (hus.skipsPairs (by decide))
      fun c₁ c₂ hs hend _ => ?_)
    have hcolon : distanceAtTop? (.op .colon) 0 0 c₁.after = none := by
      rw [hs.after, hend]
      exact ((hus.balanced (List.Subset.refl _)).passes_top (fun t h => h.isFlat) 0).not_found rfl
    have hspan : spanBefore? (distanceAtTop? (.op .colon) 0 0) c₁ = .ok (none, c₁) := by
      rw [spanBefore?, hcolon]
    obtain ⟨index', hread, rfl⟩ := expression_complete hs hus hcan.1.1 (hend ▸ .nil)
    refine ⟨fun tag => .size tag index', ?_, fun tag => rfl⟩
    rw [dimensionInterior, bind_of_ok hspan]
    exact map_of_ok (filling_eq_ok.2 ⟨hread, hend⟩)

theorem dimension_opens {d : Dimension Unit} (h : d.Spells ts) :
    ∃ o us, ts = o :: us ∧ o.kind = .op .lBracket := by
  cases d with
  | bounds b =>
    obtain ⟨o, us, m, vs, cl, rfl, ho, -⟩ := h
    exact ⟨o, _, rfl, ho⟩
  | size tag index =>
    obtain ⟨o, us, cl, rfl, ho, -⟩ := h
    exact ⟨o, _, rfl, ho⟩

theorem declarator_complete {d : Declarator Unit} (hs : c.Steps ts c') (hspell : d.Spells ts)
    (hcan : d.Canonical) (hnext : EndsElement c'.after) :
    Reads declarator (Declarator.map fun _ => ()) c d c' := by
  obtain ⟨n, us, vs, rfl, hn, hname, hus, hvs⟩ := hspell
  obtain ⟨hafter, hs⟩ := hs.of_cons
  obtain ⟨c₁, hs₁, hs₂⟩ := hs.of_append
  have hread : name c = .ok (n.text, c.skip 1) := name_eq_ok.2 ⟨n, _, hafter, hn, rfl, rfl⟩
  have hbehind : ∀ t ws, c₁.after = t :: ws → t.kind ≠ .op .lBracket := by
    intro t ws h hk
    rw [hs₂.after] at h
    cases hvalue : d.value with
    | none =>
      rw [hvalue] at hvs
      obtain rfl : vs = [] := hvs
      have hcomma := hnext t ws h
      rw [hk] at hcomma
      cases hcomma
    | some e =>
      rw [hvalue] at hvs
      obtain ⟨m, xs, rfl, hm, -⟩ := hvs
      obtain ⟨rfl, -⟩ := List.cons.inj h
      rw [hk] at hm
      cases hm
  obtain ⟨dims, hdims, hmap⟩ := bracketedUpTo_complete hs₁ hus (fun _ _ _ => dimension_opens)
    (fun dim hdim _ _ _ hspell hs => dimension_complete hs hspell (hcan.dims dim hdim)) hbehind (Nat.le_refl _)
  have hdims : bracketed dimension (c.skip 1) = .ok (dims, c₁) := hdims
  refine .tagged ?_
  cases hvalue : d.value with
  | none =>
    rw [hvalue] at hvs
    obtain rfl : vs = [] := hvs
    obtain rfl := hs₂.of_nil
    have hequals : c'.check (.op .assignment) = false := Cursor.check_eq_false fun t ws h hk => by
      have hcomma := hnext t ws h
      rw [hk] at hcomma
      cases hcomma
    refine ⟨fun tag => ⟨tag, n.text, dims, none⟩, ?_, fun tag => ?_⟩
    · rw [bind_of_ok hread, bind_of_ok hdims, bind_of_ok (eat_of_check hequals)]
      rfl
    · show Declarator.mk () n.text (dims.map (Dimension.map fun _ => ())) none = d
      rw [hname, hmap, ← hvalue]
  | some e =>
    rw [hvalue] at hvs
    obtain ⟨m, ws, rfl, hm, hws⟩ := hvs
    obtain ⟨hafter₁, hs₂⟩ := hs₂.of_cons
    obtain ⟨e', hvalue', herase⟩ := expression_complete hs₂ hws (hcan.value e hvalue).1.1 hnext.stops
    refine ⟨fun tag => ⟨tag, n.text, dims, some e'⟩, ?_, fun tag => ?_⟩
    · rw [bind_of_ok hread, bind_of_ok hdims, bind_of_ok (eat_of_after hafter₁ hm)]
      exact map_of_ok hvalue'
    · show Declarator.mk () n.text (dims.map (Dimension.map fun _ => ())) (some e'.erase) = d
      rw [hname, hmap, herase, ← hvalue]

theorem dataType_of_declares {type : Option (DataType Unit)} (hs : c.Steps ts c')
    (hspell : SpellsOption DataType.Spells type ts) (htype : ∀ t, type = some t → t.Fits)
    (hnext : ∀ t us, c'.after = t :: us → t.kind.isName = true) :
    Reads dataType (Option.map (DataType.map fun _ => ())) c type c' :=
  dataType_complete hs hspell (fun t h => (htype t h).1) fun t us h =>
    TokenKind.startsDataType_of_isName (hnext t us h)

/-- The type and the names of a declaration are read to the end of the span. -/
theorem declared_complete {type : Option (DataType Unit)} {ds : List (Declarator Unit)}
    (hs : c.Steps ts c') (hspell : SpellsDeclared type ds ts) (hcan : Declares type ds)
    (hend : c'.after = []) : ∃ type' c₁ ds', dataType c = .ok (type', c₁) ∧
      declarators c₁ = .ok (ds', c') ∧ type'.map (DataType.map fun _ => ()) = type ∧
        ds'.map (Declarator.map fun _ => ()) = ds := by
  obtain ⟨us, vs, rfl, hus, hvs⟩ := hspell
  obtain ⟨c₁, hs₁, hs₂⟩ := hs.of_append
  have hc₁ : c₁.after = vs := by rw [hs₂.after, hend, List.append_nil]
  obtain ⟨type', htype, hmap⟩ := dataType_of_declares hs₁ hus hcan.type fun t ws h => by
    cases hds : ds with
    | nil => exact absurd hds hcan.nonempty
    | cons d ds =>
      rw [hds] at hvs
      obtain ⟨xs, ys, rfl, hxs, -⟩ := hvs
      obtain ⟨u, zs, rfl, hu⟩ := hxs.starts
      obtain ⟨rfl, -⟩ := List.cons.inj (hc₁.symm.trans h)
      exact hu
  obtain ⟨ds', hds, hmaps⟩ := listBy_complete (m := "',' or ';'") hs₂ hvs hend hcan.nonempty
    fun d hd _ _ _ hspell hs hnext => declarator_complete hs hspell (hcan.declarators d hd) hnext
  exact ⟨type', c₁, ds', htype, hds, hmap, hmaps⟩

theorem netType_complete {net : Option Keyword} (hs : c.Steps ts c') (hspell : SpellsNet net ts)
    (hnext : ∀ t us, c'.after = t :: us → t.kind.startsDeclared = true) :
    netType c = .ok (net, c') :=
  tryBy_of_spells hs hspell fun _ t us h => TokenKind.netType_of_startsDeclared (hnext t us h)

/-! ### Groups in a body -/

theorem parameterDeclaration_complete {group : ParameterGroup Unit} (hs : c.Steps ts c')
    (hspell : group.Spells ts) (hcan : group.Canonical) (hfaithful : ∀ t ∈ ts, t.Faithful) :
    Reads parameterDeclaration (ParameterGroup.map fun _ => ()) c group c' := by
  have hcalm := hspell.calm hcan hfaithful
  refine .tagged (beforeSemicolon_complete hs hspell hcalm ?_)
  rintro us c₁ c₂ ⟨k, vs, rfl, hk, hvs⟩ hs hend
  obtain ⟨hafter, hs⟩ := hs.of_cons
  obtain ⟨type, c₃, ds, htype, hds, hmap, hmaps⟩ := declared_complete hs hvs hcan hend
  have hword : consume c₁ = .ok (k, c₁.skip 1) := demandWith_eq_ok.2 ⟨_, hafter, rfl, rfl⟩
  have hlocal : (k.kind == .word .kwLocalparam) = group.isLocal := by
    unfold parameterWord? at hk
    split at hk
    · rename_i hkind
      rw [hkind, ← Option.some.inj hk]
      rfl
    · rename_i hkind
      rw [hkind, ← Option.some.inj hk]
      rfl
    · cases hk
  refine ⟨fun tag => ⟨tag, k.kind == .word .kwLocalparam, type, ds⟩, ?_, fun tag => ?_⟩
  · rw [bind_of_ok hword, bind_of_ok htype]
    exact map_of_ok hds
  · show ParameterGroup.mk () (k.kind == .word .kwLocalparam) (type.map (DataType.map fun _ => ()))
      (ds.map (Declarator.map fun _ => ())) = group
    rw [hlocal, hmap, hmaps]

theorem portDeclaration_complete {group : PortGroup Unit} (hs : c.Steps ts c')
    (hspell : group.Spells ts) (hcan : group.Canonical) (hfaithful : ∀ t ∈ ts, t.Faithful) :
    Reads portDeclaration (PortGroup.map fun _ => ()) c group c' := by
  have hcalm := hspell.calm hcan hfaithful
  refine .tagged (beforeSemicolon_complete hs hspell hcalm ?_)
  rintro us c₁ c₂ ⟨k, vs, ws, rfl, hk, hvs, hws⟩ hs hend
  obtain ⟨hafter, hs⟩ := hs.of_cons
  obtain ⟨c₃, hs₁, hs₂⟩ := hs.of_append
  have hdirection : demandBy Direction.ofKind? "port direction" c₁ = .ok (group.direction, c₁.skip 1) :=
    demandBy_eq_ok.2 ⟨k, _, hafter, hk, rfl⟩
  have hnet := netType_complete hs₁ hvs fun t us h => by
    obtain ⟨t', us', rfl, ht'⟩ := hws.starts hcan.declares
    obtain ⟨rfl, -⟩ := List.cons.inj (hs₂.after.symm.trans h)
    exact ht'
  obtain ⟨type, c₄, ds, htype, hds, hmap, hmaps⟩ := declared_complete hs₂ hws hcan.declares hend
  refine ⟨fun tag => ⟨tag, group.direction, group.net, type, ds⟩, ?_, fun tag => ?_⟩
  · rw [bind_of_ok hdirection, bind_of_ok hnet, bind_of_ok htype]
    exact map_of_ok hds
  · show PortGroup.mk () group.direction group.net (type.map (DataType.map fun _ => ()))
      (ds.map (Declarator.map fun _ => ())) = group
    rw [hmap, hmaps]

theorem signalDeclaration_complete {group : SignalGroup Unit} (hs : c.Steps ts c')
    (hspell : group.Spells ts) (hcan : group.Canonical) (hfaithful : ∀ t ∈ ts, t.Faithful) :
    Reads signalDeclaration (SignalGroup.map fun _ => ()) c group c' := by
  have hcalm := hspell.calm hcan hfaithful
  refine .tagged (beforeSemicolon_complete hs hspell hcalm ?_)
  rintro us c₁ c₂ ⟨vs, ws, rfl, hvs, hws⟩ hs hend
  obtain ⟨c₃, hs₁, hs₂⟩ := hs.of_append
  have hnet := netType_complete hs₁ hvs fun t us h => by
    obtain ⟨t', us', rfl, ht'⟩ := hws.starts hcan.declares
    obtain ⟨rfl, -⟩ := List.cons.inj (hs₂.after.symm.trans h)
    exact ht'
  obtain ⟨type, c₄, ds, htype, hds, hmap, hmaps⟩ := declared_complete hs₂ hws hcan.declares hend
  refine ⟨fun tag => ⟨tag, group.net, type, ds⟩, ?_, fun tag => ?_⟩
  · rw [bind_of_ok hnet, bind_of_ok htype]
    exact map_of_ok hds
  · show SignalGroup.mk () group.net (type.map (DataType.map fun _ => ()))
      (ds.map (Declarator.map fun _ => ())) = group
    rw [hmap, hmaps]

theorem genvarDeclaration_complete {group : Genvars Unit} (hs : c.Steps ts c') (hspell : group.Spells ts)
    (hne : group.names ≠ []) (hfaithful : ∀ t ∈ ts, t.Faithful) :
    Reads genvarDeclaration (Genvars.map fun _ => ()) c group c' := by
  have hcalm := hspell.calm hfaithful
  refine .tagged (beforeSemicolon_complete hs hspell hcalm ?_)
  rintro us c₁ c₂ ⟨k, vs, rfl, hk, hvs⟩ hs hend
  obtain ⟨hafter, hs⟩ := hs.of_cons
  have hword : expect (.word .kwGenvar) c₁ = .ok (k, c₁.skip 1) := expect_eq_ok.2 ⟨_, hafter, hk, rfl⟩
  obtain ⟨names, hnames, hmap⟩ := listBy_complete (m := "',' or ';'") (p := name) (f := id) hs hvs hend hne <| by
    rintro text - us c c' ⟨t, rfl, ht, rfl⟩ hs -
    exact ⟨t.text, name_of_steps hs ht, rfl⟩
  refine ⟨fun tag => ⟨tag, names⟩, ?_, fun tag => ?_⟩
  · rw [bind_of_ok hword]
    exact map_of_ok hnames
  · show Genvars.mk () names = group
    rw [List.map_id] at hmap
    rw [hmap]

/-! ### Instances -/

/-- A value between the parentheses of a named connection, or nothing. -/
theorem connectedValue_complete {value : Option (Expr Unit)} (hs : c.Steps ts c')
    (hspell : SpellsOption Expr.Spells value ts) (hfits : ∀ e, value = some e → e.Fits)
    (hend : c'.after = []) : Reads connectedValue (Option.map Expr.erase) c value c' := by
  cases value with
  | none =>
    obtain rfl : ts = [] := hspell
    obtain rfl := hs.of_nil
    refine ⟨none, ?_, rfl⟩
    rw [connectedValue, atEnd_bind, if_pos (Cursor.atEnd_eq_true_iff.2 hend)]
    rfl
  | some e =>
    obtain ⟨t, us, heq, -⟩ := Expr.Spells.starts hspell
    have hmore : ¬c.atEnd = true := by
      rw [Cursor.atEnd_eq_true_iff, hs.after, heq]
      simp
    obtain ⟨e', hread, rfl⟩ := expression_complete hs hspell (hfits e rfl).1.1 (hend ▸ .nil)
    refine ⟨some e', ?_, rfl⟩
    rw [connectedValue, atEnd_bind, if_neg hmore]
    exact map_of_ok (filling_eq_ok.2 ⟨hread, hend⟩)

theorem connection_complete {connection : Connection Unit} (hs : c.Steps ts c')
    (hspell : connection.Spells ts) (hcan : connection.Canonical) (hnext : EndsElement c'.after) :
    Reads Parser.connection (Connection.map fun _ => ()) c connection c' := by
  refine .tagged ?_
  unfold Connection.Spells at hspell
  split at hspell
  · rename_i hname
    obtain ⟨e, hvalue, he⟩ := hspell
    have hdot : c.check (.op .dot) = false := Cursor.check_eq_false fun t us h hk => by
      obtain ⟨u, vs, rfl, hu⟩ := he.starts
      obtain ⟨rfl, -⟩ := List.cons.inj (hs.after.symm.trans h)
      rw [hk] at hu
      cases hu
    obtain ⟨e', hread, herase⟩ := expression_complete hs he (hcan.value e hvalue).1.1 hnext.stops
    refine ⟨fun tag => ⟨tag, none, some e'⟩, ?_, fun tag => ?_⟩
    · rw [bind_of_ok (eat_of_check hdot)]
      exact map_of_ok hread
    · show Connection.mk () none (some e'.erase) = connection
      rw [herase, ← hname, ← hvalue]
  · rename_i text hname
    obtain ⟨d, n, us, rfl, hd, hn, htext, hus⟩ := hspell
    obtain ⟨hafter, hs⟩ := hs.of_cons
    obtain ⟨hafter', hs⟩ := hs.of_cons
    have hread : name (c.skip 1) = .ok (n.text, (c.skip 1).skip 1) :=
      name_eq_ok.2 ⟨n, _, hafter', hn, rfl, rfl⟩
    obtain ⟨value, hvalue, hmap⟩ := parens_complete hs hus (fun vs hvs => by
        cases hsome : connection.value with
        | none =>
          rw [hsome] at hvs
          exact hvs ▸ .nil
        | some e =>
          rw [hsome] at hvs
          exact Expr.Spells.skipsPairs hvs (by decide))
      fun vs c₁ c₂ hvs hs hend => connectedValue_complete hs hvs hcan.value hend
    refine ⟨fun tag => ⟨tag, some n.text, value⟩, ?_, fun tag => ?_⟩
    · rw [bind_of_ok (eat_of_after hafter hd)]
      show (name >>= fun _ => _) (c.skip 1) = _
      rw [bind_of_ok hread]
      exact map_of_ok hvalue
    · show Connection.mk () (some n.text) (value.map Expr.erase) = connection
      rw [htext, hmap, ← hname]

theorem connections_complete {cs : List (Connection Unit)} (hs : c.Steps ts c')
    (hspell : SpellsConnections cs ts) (hcan : ∀ connection ∈ cs, connection.Canonical)
    (hfaithful : ∀ t ∈ ts, t.Faithful) :
    Reads connections (List.map (Connection.map fun _ => ())) c cs c' := by
  obtain ⟨o, us, cl, rfl, ho, hus, hcl⟩ := hspell
  have hcalm : Calm us := hus.calm (fun t h => hfaithful t (by simp [h])) fun connection hmem _ hspell =>
    hspell.calm (hcan connection hmem)
  refine enclosed_complete (by decide) hs ho hcl hcalm.skipsParens fun c₁ c₂ hs hend _ => ?_
  exact entries_complete hs hus hend (fun _ _ => Connection.Spells.ne_nil)
    fun connection hmem _ _ _ hspell hs hnext => connection_complete hs hspell (hcan connection hmem) hnext

theorem instantiation_complete {inst : Instantiation Unit} (hs : c.Steps ts c') (hspell : inst.Spells ts)
    (hcan : inst.Canonical) (hfaithful : ∀ t ∈ ts, t.Faithful) :
    Reads instantiation (Instantiation.map fun _ => ()) c inst c' := by
  have hcalm := hspell.calm hcan hfaithful
  rw [instantiation_eq]
  refine .tagged (beforeSemicolon_complete hs (hspell.and (.of_forall hfaithful hspell)) hcalm ?_)
  rintro us c₁ c₂ ⟨⟨n, vs, i, ws, rfl, hn, htext, hvs, hi, htext', hws⟩, hfaithful⟩ hs hend
  obtain ⟨hafter, hs⟩ := hs.of_cons
  obtain ⟨c₃, hs₁, hs₂⟩ := hs.of_append
  obtain ⟨hafter', hs₂⟩ := hs₂.of_cons
  have hmodule : name c₁ = .ok (n.text, c₁.skip 1) := name_eq_ok.2 ⟨n, _, hafter, by rw [hn]; rfl, rfl, rfl⟩
  have hname : name c₃ = .ok (i.text, c₃.skip 1) := name_eq_ok.2 ⟨i, _, hafter', by rw [hi]; rfl, rfl, rfl⟩
  have hparams : Reads instanceParameters (List.map (Connection.map fun _ => ())) (c₁.skip 1) inst.params c₃ := by
    rcases hvs with ⟨hnil, rfl⟩ | ⟨s, xs, rfl, hsharp, hxs⟩
    · obtain rfl := hs₁.of_nil
      have hcheck : (c₁.skip 1).check (.op .sharp) = false := Cursor.check_eq_false fun t us h hk => by
        obtain ⟨rfl, -⟩ := List.cons.inj (hafter'.symm.trans h)
        rw [hi] at hk
        cases hk
      refine ⟨[], ?_, hnil.symm⟩
      rw [instanceParameters, bind_of_ok (eat_of_check hcheck)]
      rfl
    · obtain ⟨hafter'', hs₁⟩ := hs₁.of_cons
      obtain ⟨params, hread, hmap⟩ := connections_complete hs₁ hxs hcan.params
        fun t h => hfaithful t (by simp [h])
      refine ⟨params, ?_, hmap⟩
      rw [instanceParameters, bind_of_ok (eat_of_after hafter'' hsharp)]
      exact hread
  obtain ⟨params, hparams, hmap⟩ := hparams
  obtain ⟨ports, hports, hmap'⟩ := connections_complete hs₂ hws hcan.ports fun t h => hfaithful t (by simp [h])
  have hfinish : expectEnd "';'" c₂ = .ok ((), c₂) := expectEnd_eq_ok.2 ⟨hend, rfl⟩
  refine ⟨fun tag => ⟨tag, n.text, params, i.text, ports⟩, ?_, fun tag => ?_⟩
  · rw [bind_of_ok hmodule, bind_of_ok hparams, bind_of_ok hname, bind_of_ok hports, bind_of_ok hfinish]
    rfl
  · show Instantiation.mk () n.text (params.map (Connection.map fun _ => ())) i.text
      (ports.map (Connection.map fun _ => ())) = inst
    rw [htext, htext', hmap, hmap']

end Declarations

end Parser

end SystemVerilog
