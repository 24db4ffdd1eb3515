import SystemVerilog.Grammar.Module
import SystemVerilog.Proofs.Module.Declarations

/-!
# Module headers are read

A header list is read entry by entry and its entries are gathered into groups afterwards. Entries that are
the forms of some groups are gathered into these groups again: every opening entry is seen as one, and no
other is.
-/

namespace SystemVerilog

/-! ### Groups of entries -/

namespace ParameterEntry

/-- The entry as it was written. -/
def form (e : ParameterEntry) : ParameterForm Unit :=
  ⟨e.isLocal, e.type.map (DataType.map fun _ => ()), e.declarator.map fun _ => ()⟩

/-- A group with more declarators at its end. -/
def extended (group : ParameterGroup Unit) (ds : List (Declarator Unit)) : ParameterGroup Unit :=
  { group with declarators := group.declarators ++ ds }

theorem isSome_of_form {e : ParameterEntry} {f : ParameterForm Unit} (h : e.form = f) :
    e.isLocal = f.isLocal ∧ e.type.isSome = f.type.isSome := by
  subst h
  exact ⟨rfl, (Option.isSome_map ..).symm⟩

theorem map_join (e : ParameterEntry) (group : ParameterGroup Site) :
    (e.join group).map (fun _ => ()) = extended (group.map fun _ => ()) [e.form.declarator] := by
  show ParameterGroup.mk () group.isLocal _ _ = ParameterGroup.mk () group.isLocal _ _
  rw [join, List.map_append]
  rfl

/-- Entries that join the open group, and behind them the forms of further groups. -/
theorem gather_of_forms {groups : List (ParameterGroup Unit)} {current : ParameterGroup Site}
    {ds : List (Declarator Unit)} {es : List ParameterEntry} {fs : List (ParameterForm Unit)}
    (hforms : ParameterForms (some current.isLocal) groups fs)
    (hes : es.map form = ds.map ParameterForm.joined ++ fs) :
    (gather current es).map (ParameterGroup.map fun _ => ()) =
      extended (current.map fun _ => ()) ds :: groups := by
  induction es generalizing current ds fs groups with
  | nil =>
    obtain ⟨hds, rfl⟩ := List.append_eq_nil_iff.1 hes.symm
    obtain rfl := List.map_eq_nil_iff.1 hds
    cases groups with
    | nil =>
      rw [gather, List.map_singleton, extended, List.append_nil]
    | cons group groups =>
      obtain ⟨_, _, _, _, -, heq, -⟩ := hforms
      cases heq
  | cons e es ih =>
    rw [List.map_cons] at hes
    cases ds with
    | cons d ds =>
      obtain ⟨he, hes⟩ := List.cons.inj hes
      obtain ⟨hlocal, htype⟩ := isSome_of_form he
      have hopens : e.opens = false := by
        rw [opens, hlocal, htype]
        rfl
      have hforms : ParameterForms (some (e.join current).isLocal) groups fs := hforms
      have hgathered := ih hforms hes
      rw [gather, hopens, if_neg (by decide), hgathered, map_join, he, extended, extended, extended,
        List.append_assoc]
      rfl
    | nil =>
      cases groups with
      | nil =>
        obtain rfl : fs = [] := hforms
        cases hes
      | cons group groups =>
        obtain ⟨isLocal, d, ds, rest, hds, rfl, hinherit, hopen, hrest⟩ := hforms
        obtain ⟨he, hes⟩ := List.cons.inj hes
        obtain ⟨hlocal, htype⟩ := isSome_of_form he
        have hopens : e.opens = true := by
          rw [opens, hlocal, htype, Bool.or_eq_true]
          rcases hopen with hopen | hopen | hopen
          · exact .inl (Option.isSome_iff_ne_none.2 hopen)
          · exact .inr (Option.isSome_iff_ne_none.2 hopen)
          · cases hopen
        have hgroup : (e.group current.isLocal).isLocal = group.isLocal := by
          rw [← hinherit, ← show e.isLocal = isLocal from hlocal]
          rfl
        have hfirst : extended ((e.group current.isLocal).map fun _ => ()) ds = group := by
          show ParameterGroup.mk () (e.group current.isLocal).isLocal e.form.type (e.form.declarator :: ds) = group
          rw [hgroup, he, ← hds]
        have hrest : ParameterForms (some (e.group current.isLocal).isLocal) groups rest := hgroup ▸ hrest
        rw [gather, hopens, if_pos rfl, List.map_cons, ih hrest hes, hfirst, extended, List.append_nil]

/-- The entries that write groups down are gathered into them again. -/
theorem groups_of_forms {groups : List (ParameterGroup Unit)} {es : List ParameterEntry}
    (hforms : ParameterForms none groups (es.map form)) :
    (ParameterEntry.groups es).map (ParameterGroup.map fun _ => ()) = groups := by
  cases groups with
  | nil =>
    obtain rfl := List.map_eq_nil_iff.1 (show es.map form = [] from hforms)
    rfl
  | cons group groups =>
    obtain ⟨isLocal, d, ds, rest, hds, hes, hinherit, -, hrest⟩ := hforms
    cases es with
    | nil => cases hes
    | cons e es =>
      obtain ⟨he, hes⟩ := List.cons.inj hes
      obtain ⟨hlocal, -⟩ := isSome_of_form he
      have hgroup : (e.group false).isLocal = group.isLocal := by
        rw [← hinherit, ← show e.isLocal = isLocal from hlocal]
        rfl
      have hfirst : extended ((e.group false).map fun _ => ()) ds = group := by
        show ParameterGroup.mk () (e.group false).isLocal e.form.type (e.form.declarator :: ds) = group
        rw [hgroup, he, ← hds]
      rw [ParameterEntry.groups, gather_of_forms (hgroup ▸ hrest) hes, hfirst]

end ParameterEntry

namespace PortEntry

/-- The entry as it was written. -/
def form (e : PortEntry) : PortForm Unit :=
  ⟨e.direction, e.net, e.type.map (DataType.map fun _ => ()), e.declarator.map fun _ => ()⟩

/-- A group with more declarators at its end. -/
def extended (group : PortGroup Unit) (ds : List (Declarator Unit)) : PortGroup Unit :=
  { group with declarators := group.declarators ++ ds }

theorem isSome_of_form {e : PortEntry} {f : PortForm Unit} (h : e.form = f) :
    e.direction = f.direction ∧ e.net = f.net ∧ e.type.isSome = f.type.isSome := by
  subst h
  exact ⟨rfl, rfl, (Option.isSome_map ..).symm⟩

theorem map_join (e : PortEntry) (group : PortGroup Site) :
    (e.join group).map (fun _ => ()) = extended (group.map fun _ => ()) [e.form.declarator] := by
  show PortGroup.mk () group.direction group.net _ _ = PortGroup.mk () group.direction group.net _ _
  rw [join, List.map_append]
  rfl

/-- What an opening entry makes of the declarators that follow it. -/
theorem extended_group {e : PortEntry} {group : PortGroup Unit} {d : Declarator Unit}
    {ds : List (Declarator Unit)} {inherited direction : Direction} {o : Option Direction}
    (he : e.form = ⟨o, group.net, group.type, d⟩) (hds : group.declarators = d :: ds)
    (hdirection : o.getD inherited = direction) (hgroup : direction = group.direction) :
    extended ((e.group inherited).map fun _ => ()) ds = group := by
  show PortGroup.mk () (e.form.direction.getD inherited) e.form.net e.form.type (e.form.declarator :: ds) = group
  rw [he, ← hds]
  show PortGroup.mk () (o.getD inherited) group.net group.type group.declarators = group
  rw [hdirection, hgroup]

/-- Entries that join the open group, and behind them the forms of further groups. -/
theorem gather_of_forms {groups : List (PortGroup Unit)} {current : PortGroup Site}
    {ds : List (Declarator Unit)} {es : List PortEntry} {fs : List (PortForm Unit)}
    (hforms : PortForms (some current.direction) groups fs)
    (hes : es.map form = ds.map PortForm.joined ++ fs) :
    (gather current es).map (PortGroup.map fun _ => ()) =
      extended (current.map fun _ => ()) ds :: groups := by
  induction es generalizing current ds fs groups with
  | nil =>
    obtain ⟨hds, rfl⟩ := List.append_eq_nil_iff.1 hes.symm
    obtain rfl := List.map_eq_nil_iff.1 hds
    cases groups with
    | nil =>
      rw [gather, List.map_singleton, extended, List.append_nil]
    | cons group groups =>
      obtain ⟨_, _, _, _, -, heq, -⟩ := hforms
      cases heq
  | cons e es ih =>
    rw [List.map_cons] at hes
    cases ds with
    | cons d ds =>
      obtain ⟨he, hes⟩ := List.cons.inj hes
      obtain ⟨hdirection, hnet, htype⟩ := isSome_of_form he
      have hopens : e.opens = false := by
        rw [opens, hdirection, hnet, htype]
        rfl
      have hforms : PortForms (some (e.join current).direction) groups fs := hforms
      have hgathered := ih hforms hes
      rw [gather, hopens, if_neg (by decide), hgathered, map_join, he, extended, extended, extended,
        List.append_assoc]
      rfl
    | nil =>
      cases groups with
      | nil =>
        obtain rfl : fs = [] := hforms
        cases hes
      | cons group groups =>
        obtain ⟨direction, d, ds, rest, hds, rfl, hinherit, hopen, hrest⟩ := hforms
        obtain ⟨he, hes⟩ := List.cons.inj hes
        obtain ⟨hdirection, hnet, htype⟩ := isSome_of_form he
        have hopens : e.opens = true := by
          rw [opens, hdirection, hnet, htype, Bool.or_eq_true, Bool.or_eq_true]
          rcases hopen with hopen | hopen | hopen
          · exact .inl (.inl (Option.isSome_iff_ne_none.2 hopen))
          · exact .inl (.inr (Option.isSome_iff_ne_none.2 hopen))
          · exact .inr (Option.isSome_iff_ne_none.2 hopen)
        have hgiven : direction.getD current.direction = group.direction := by
          cases direction <;> exact Option.some.inj hinherit
        have hgroup : (e.group current.direction).direction = group.direction := by
          rw [← hgiven, ← show e.direction = direction from hdirection]
          rfl
        have hrest : PortForms (some (e.group current.direction).direction) groups rest := hgroup ▸ hrest
        rw [gather, hopens, if_pos rfl, List.map_cons, ih hrest hes, extended_group he hds hgiven rfl, extended,
          List.append_nil]

end PortEntry

/-! ### Entries -/

theorem ParameterForm.Spells.ne_nil {f : ParameterForm Unit} : ¬f.Spells [] := by
  rintro ⟨us, vs, ws, heq, -, -, hws⟩
  obtain ⟨t, xs, rfl, -⟩ := hws.starts
  simp at heq

theorem PortForm.Spells.ne_nil {f : PortForm Unit} : ¬f.Spells [] := by
  rintro ⟨us, vs, ws, xs, heq, -, -, -, hxs⟩
  obtain ⟨t, ys, rfl, -⟩ := hxs.starts
  simp at heq

/-- Port declarations in a header start with a direction. -/
theorem PortForms.head {groups : List (PortGroup Unit)} {fs : List (PortForm Unit)} {ts : List Token}
    (h : PortForms none groups fs) (hne : groups ≠ []) (hspell : SpellsEntries PortForm.Spells fs ts) :
    ∃ t us, ts = t :: us ∧ t.kind.isDirection = true := by
  cases groups with
  | nil => exact absurd rfl hne
  | cons group groups =>
    obtain ⟨direction, d, ds, rest, -, rfl, hinherit, -⟩ := h
    obtain ⟨us, vs, rfl, ⟨ws, xs, ys, zs, rfl, hws, -⟩, -⟩ := hspell
    rw [Option.or_none] at hinherit
    rw [hinherit] at hws
    obtain ⟨t, rfl, ht⟩ := hws
    refine ⟨t, _, rfl, ?_⟩
    unfold Direction.ofKind? at ht
    split at ht <;> first | (simp only [*]; rfl) | cases ht

/-- What follows a part of a header that may be missing: the port list or the semicolon. -/
theorem PortList.Spells.head {ports : PortList Unit} {m t : Token} {us rest : List Token} (h : ports.Spells ts)
    (hm : m.kind = .op .semicolon) (heq : ts ++ m :: rest = t :: us) :
    t.kind = .op .lParen ∨ t.kind = .op .semicolon := by
  have hparens {spells : List Token → Prop} (h : SpellsParens spells ts) : t.kind = .op .lParen := by
    obtain ⟨o, vs, cl, rfl, ho, -⟩ := h
    obtain ⟨rfl, -⟩ := List.cons.inj heq
    exact ho
  cases ports with
  | empty =>
    rcases h with rfl | h
    · obtain ⟨rfl, -⟩ := List.cons.inj heq
      exact .inr hm
    · exact .inl (hparens h)
  | ansi groups => exact .inl (hparens h)
  | nonAnsi names => exact .inl (hparens h)

namespace Parser

section Headers

variable {c c' : Cursor} {ts : List Token}

theorem parameterKeyword_complete {isLocal : Option Bool} (hs : c.Steps ts c')
    (hspell : SpellsMark parameterWord? isLocal ts)
    (hnext : isLocal = none → ∀ t us, c'.after = t :: us → parameterWord? t.kind = none) :
    parameterKeyword c = .ok (isLocal, c') := by
  have hother {k : Keyword} {b : Bool} (hk : parameterWord? (.word k) = some b)
      (h : ∀ t us, c.after = t :: us → parameterWord? t.kind ≠ some b) : c.check (.word k) = false :=
    Cursor.check_eq_false fun t us hafter ht => h t us hafter (ht ▸ hk)
  cases isLocal with
  | none =>
    obtain rfl : ts = [] := hspell
    obtain rfl := hs.of_nil
    have hnone (b : Bool) : ∀ t us, c'.after = t :: us → parameterWord? t.kind ≠ some b := by
      intro t us hafter h
      rw [hnext rfl t us hafter] at h
      cases h
    rw [parameterKeyword, bind_of_ok (eat_of_check (hother rfl (hnone false)))]
    show (eat (.word .kwLocalparam) >>= fun _ => _) c' = _
    rw [bind_of_ok (eat_of_check (hother rfl (hnone true)))]
    rfl
  | some isLocal =>
    obtain ⟨t, rfl, ht⟩ := hspell
    obtain ⟨hafter, hs⟩ := hs.of_cons
    obtain rfl := hs.of_nil
    cases isLocal with
    | false =>
      have hkind : t.kind = .word .kwParameter := by
        unfold parameterWord? at ht
        split at ht <;> first | assumption | cases ht
      rw [parameterKeyword, bind_of_ok (eat_of_after hafter hkind)]
      rfl
    | true =>
      have hkind : t.kind = .word .kwLocalparam := by
        unfold parameterWord? at ht
        split at ht <;> first | assumption | cases ht
      have hfirst : c.check (.word .kwParameter) = false := hother (b := false) rfl fun t' us h => by
        obtain ⟨rfl, -⟩ := List.cons.inj (hafter.symm.trans h)
        rw [ht]
        decide
      rw [parameterKeyword, bind_of_ok (eat_of_check hfirst)]
      show (eat (.word .kwLocalparam) >>= fun _ => _) c = _
      rw [bind_of_ok (eat_of_after hafter hkind)]
      rfl

/-- The type of an entry and the name that it declares. -/
theorem entry_complete {type : Option (DataType Unit)} {d : Declarator Unit} {us vs : List Token}
    (hs : c.Steps (us ++ vs) c') (hus : SpellsOption DataType.Spells type us) (hvs : d.Spells vs)
    (hcan : Declares type [d]) (hnext : EndsElement c'.after) :
    ∃ type' c₁ d', dataType c = .ok (type', c₁) ∧ declarator c₁ = .ok (d', c') ∧
      type'.map (DataType.map fun _ => ()) = type ∧ d'.map (fun _ => ()) = d := by
  obtain ⟨c₁, hs₁, hs₂⟩ := hs.of_append
  obtain ⟨type', htype, hmap⟩ := dataType_of_declares hs₁ hus hcan.type fun t ws h => by
    obtain ⟨u, zs, rfl, hu⟩ := hvs.starts
    obtain ⟨rfl, -⟩ := List.cons.inj (hs₂.after.symm.trans h)
    exact hu
  obtain ⟨d', hd', hmap'⟩ := declarator_complete hs₂ hvs (hcan.declarators d (by simp)) hnext
  exact ⟨type', c₁, d', htype, hd', hmap, hmap'⟩

theorem parameterEntry_complete {f : ParameterForm Unit} (hs : c.Steps ts c') (hspell : f.Spells ts)
    (hcan : Declares f.type [f.declarator]) (hnext : EndsElement c'.after) :
    Reads parameterEntry ParameterEntry.form c f c' := by
  obtain ⟨us, vs, ws, rfl, hus, hvs, hws⟩ := hspell
  obtain ⟨c₁, hs₁, hs₂⟩ := hs.of_append
  have hword := parameterKeyword_complete hs₁ hus fun _ t xs h => by
    obtain ⟨u, ys, heq, hu⟩ := startsDeclared_of_spells hvs (fun t h => (hcan.type t h).1) hws
    rw [hs₂.after, heq] at h
    obtain ⟨rfl, -⟩ := List.cons.inj h
    exact TokenKind.parameterWord_of_startsDeclared hu
  obtain ⟨type, c₂, d, htype, hd, hmap, hmap'⟩ := entry_complete hs₂ hvs hws hcan hnext
  refine .tagged ⟨fun tag => ⟨tag, f.isLocal, type, d⟩, ?_, fun tag => ?_⟩
  · rw [bind_of_ok hword, bind_of_ok htype]
    exact map_of_ok hd
  · show ParameterForm.mk f.isLocal (type.map (DataType.map fun _ => ())) (d.map fun _ => ()) = f
    rw [hmap, hmap']

theorem portEntry_complete {f : PortForm Unit} (hs : c.Steps ts c') (hspell : f.Spells ts)
    (hcan : Declares f.type [f.declarator]) (hnext : EndsElement c'.after) :
    Reads portEntry PortEntry.form c f c' := by
  obtain ⟨us, vs, ws, xs, rfl, hus, hvs, hws, hxs⟩ := hspell
  obtain ⟨c₁, hs₁, hs₁'⟩ := hs.of_append
  obtain ⟨c₂, hs₂, hs₃⟩ := hs₁'.of_append
  obtain ⟨u, ys, heq, hu⟩ := startsDeclared_of_spells hws (fun t h => (hcan.type t h).1) hxs
  have hstarts : ∀ t zs, c₂.after = t :: zs → t.kind.startsDeclared = true := by
    intro t zs h
    rw [hs₃.after, heq] at h
    obtain ⟨rfl, -⟩ := List.cons.inj h
    exact hu
  have hdirection := tryBy_of_spells hs₁ hus fun _ t zs h => by
    rw [hs₂.after] at h
    cases hnet : f.net with
    | none =>
      rw [hnet] at hvs
      obtain rfl : vs = [] := hvs
      exact TokenKind.direction_of_startsDeclared (hstarts t zs h)
    | some k =>
      rw [hnet] at hvs
      obtain ⟨v, rfl, hv⟩ := hvs
      obtain ⟨rfl, -⟩ := List.cons.inj h
      exact TokenKind.direction_of_netType hv
  have hnet := netType_complete hs₂ hvs hstarts
  obtain ⟨type, c₃, d, htype, hd, hmap, hmap'⟩ := entry_complete hs₃ hws hxs hcan hnext
  refine .tagged ⟨fun tag => ⟨tag, f.direction, f.net, type, d⟩, ?_, fun tag => ?_⟩
  · rw [bind_of_ok hdirection, bind_of_ok hnet, bind_of_ok htype]
    exact map_of_ok hd
  · show PortForm.mk f.direction f.net (type.map (DataType.map fun _ => ())) (d.map fun _ => ()) = f
    rw [hmap, hmap']

/-! ### Header lists -/

theorem headerParameters_complete {groups : List (ParameterGroup Unit)} {fs : List (ParameterForm Unit)}
    (hs : c.Steps ts c') (hforms : ParameterForms none groups fs)
    (hspell : SpellsEntries ParameterForm.Spells fs ts) (hcan : ∀ group ∈ groups, group.Canonical)
    (hend : c'.after = []) :
    Reads headerParameters (List.map (ParameterGroup.map fun _ => ())) c groups c' := by
  obtain ⟨es, hread, rfl⟩ := entries_complete (m := "',' or ')'") hs hspell hend
    (fun f _ => ParameterForm.Spells.ne_nil)
    fun f hf _ _ _ hspell hs hnext => parameterEntry_complete hs hspell (hforms.declares hcan f hf) hnext
  exact ⟨ParameterEntry.groups es, map_of_ok hread, ParameterEntry.groups_of_forms hforms⟩

theorem headerPorts_complete {groups : List (PortGroup Unit)} {fs : List (PortForm Unit)}
    (hs : c.Steps ts c') (hforms : PortForms none groups fs) (hspell : SpellsEntries PortForm.Spells fs ts)
    (hne : groups ≠ []) (hcan : ∀ group ∈ groups, group.Canonical) (hend : c'.after = []) :
    Reads headerPorts (List.map (PortGroup.map fun _ => ())) c groups c' := by
  obtain ⟨es, hread, rfl⟩ := entries_complete (m := "',' or ')'") hs hspell hend
    (fun f _ => PortForm.Spells.ne_nil)
    fun f hf _ _ _ hspell hs hnext => portEntry_complete hs hspell (hforms.declares hcan f hf) hnext
  cases groups with
  | nil => exact absurd rfl hne
  | cons group groups =>
    obtain ⟨direction, d, ds, rest, hds, hes, hinherit, -, hrest⟩ := hforms
    rw [Option.or_none] at hinherit
    cases es with
    | nil => cases hes
    | cons e es =>
      obtain ⟨he, hes⟩ := List.cons.inj hes
      obtain ⟨hdirection, -⟩ := PortEntry.isSome_of_form he
      have hdirection : e.direction = some group.direction := hdirection.trans hinherit
      have hgroup : (e.group group.direction).direction = group.direction := by
        rw [PortEntry.group, hdirection]
        rfl
      refine ⟨PortEntry.gather (e.group group.direction) es, ?_, ?_⟩
      · rw [headerPorts, bind_of_ok hread]
        simp only [hdirection]
        rfl
      · rw [PortEntry.gather_of_forms (hgroup ▸ hrest) hes,
          PortEntry.extended_group he hds (by rw [hinherit]; rfl) rfl]

theorem moduleParameters_complete {groups : List (ParameterGroup Unit)} (hs : c.Steps ts c')
    (hspell : SpellsParameters groups ts) (hcan : ∀ group ∈ groups, group.Canonical)
    (hfaithful : ∀ t ∈ ts, t.Faithful)
    (hnext : ∀ t us, c'.after = t :: us → t.kind ≠ .op .sharp) :
    Reads moduleParameters (List.map (ParameterGroup.map fun _ => ())) c groups c' := by
  rcases hspell with ⟨rfl, rfl⟩ | ⟨s, us, rfl, hsharp, o, vs, cl, rfl, ho, ⟨fs, hforms, hvs⟩, hcl⟩
  · obtain rfl := hs.of_nil
    refine ⟨[], ?_, rfl⟩
    rw [moduleParameters, bind_of_ok (eat_of_check (Cursor.check_eq_false hnext))]
    rfl
  · obtain ⟨hafter, hs⟩ := hs.of_cons
    have hcalm : Calm vs := hvs.calm (fun t h => hfaithful t (by simp [h])) fun f hf _ hspell =>
      hspell.calm (hforms.declares hcan f hf)
    obtain ⟨groups', hread, hmap⟩ := enclosed_complete (by decide) hs ho hcl hcalm.skipsParens
      fun c₁ c₂ hs hend _ => headerParameters_complete hs hforms hvs hcan hend
    refine ⟨groups', ?_, hmap⟩
    rw [moduleParameters, bind_of_ok (eat_of_after hafter hsharp)]
    exact hread

theorem portNames_complete {names : List (PortName Unit)} (hs : c.Steps ts c')
    (hspell : SpellsCommas PortName.Spells names ts) (hne : names ≠ []) (hend : c'.after = []) :
    Reads portNames (List.map (PortName.map fun _ => ())) c names c' := by
  refine listBy_complete hs hspell hend hne ?_
  rintro text - us c c' ⟨t, rfl, ht, htext⟩ hs -
  refine .tagged ⟨fun tag => ⟨tag, t.text⟩, map_of_ok (name_of_steps hs ht), fun tag => ?_⟩
  show PortName.mk () t.text = text
  rw [htext]

/-- The first token between the parentheses of a port list. -/
theorem portList_head {names : List (PortName Unit)} {t : Token} {us : List Token}
    (hspell : SpellsCommas PortName.Spells names (t :: us)) : t.kind.isDirection = false := by
  cases names with
  | nil => cases hspell
  | cons name names =>
    obtain ⟨vs, ws, heq, ⟨u, rfl, hu, -⟩, -⟩ := hspell
    obtain ⟨rfl, -⟩ := List.cons.inj heq
    cases hkind : t.kind with
    | word k =>
      rw [hkind] at hu
      show k.isDirection = false
      unfold Keyword.isDirection
      split <;> first | rfl | cases hu
    | _ => rfl

theorem modulePorts_complete {ports : PortList Unit} (hs : c.Steps ts c') (hspell : ports.Spells ts)
    (hcan : ports.Canonical) (hfaithful : ∀ t ∈ ts, t.Faithful)
    (hnext : ∀ t us, c'.after = t :: us → t.kind ≠ .op .lParen) :
    Reads modulePorts (PortList.map fun _ => ()) c ports c' := by
  have hparens {spells : List Token → Prop} (h : SpellsParens spells ts)
      (hcalm : ∀ us, spells us → (∀ t ∈ us, t.Faithful) → Calm us)
      (hread : ∀ us c₁ c₂, spells us → c₁.Steps us c₂ → c₂.after = [] →
        Reads portList (PortList.map fun _ => ()) c₁ ports c₂) :
      Reads modulePorts (PortList.map fun _ => ()) c ports c' := by
    obtain ⟨o, us, cl, rfl, ho, hus, hcl⟩ := h
    have hcalm := hcalm us hus fun t h => hfaithful t (by simp [h])
    obtain ⟨ports', hports, hmap⟩ := enclosed_complete (by decide) hs ho hcl hcalm.skipsParens
      fun c₁ c₂ hs hend _ => hread us c₁ c₂ hus hs hend
    refine ⟨ports', ?_, hmap⟩
    rw [modulePorts, check_bind, if_pos (Cursor.check_of_after hs.after ho)]
    exact hports
  cases ports with
  | empty =>
    rcases hspell with rfl | hspell
    · obtain rfl := hs.of_nil
      refine ⟨.empty, ?_, rfl⟩
      rw [modulePorts, check_bind, if_neg (by simp [Cursor.check_eq_false hnext])]
      rfl
    · refine hparens hspell (fun us hus _ => hus ▸ .nil) fun us c₁ c₂ hus hs hend => ?_
      obtain rfl : us = [] := hus
      obtain rfl := hs.of_nil
      refine ⟨.empty, ?_, rfl⟩
      rw [portList, currentKind?_bind, Cursor.currentKind?, Cursor.current?, hend]
      rfl
  | ansi groups =>
    refine hparens hspell ?_ ?_
    · rintro us ⟨fs, hforms, hus⟩ hfaithful
      exact hus.calm hfaithful fun f hf _ hspell => hspell.calm (hforms.declares hcan.2 f hf)
    · rintro us c₁ c₂ ⟨fs, hforms, hus⟩ hs hend
      obtain ⟨groups', hread, hmap⟩ := headerPorts_complete hs hforms hus hcan.1 hcan.2 hend
      obtain ⟨t, vs, rfl, ht⟩ := PortForms.head hforms hcan.1 hus
      refine ⟨.ansi groups', ?_, ?_⟩
      · rw [portList, currentKind?_bind, Cursor.currentKind?_of_after hs.after rfl]
        simp only [ht, if_true]
        exact map_of_ok hread
      · show PortList.ansi (groups'.map (PortGroup.map fun _ => ())) = _
        rw [hmap]
  | nonAnsi names =>
    refine hparens hspell (fun us hus hfaithful => hus.calm hfaithful fun _ _ _ hspell _ =>
      SpellsName.calm hspell) fun us c₁ c₂ hus hs hend => ?_
    obtain ⟨names', hread, hmap⟩ := portNames_complete hs hus hcan hend
    have hne : us ≠ [] := by
      rintro rfl
      cases names with
      | nil => exact hcan rfl
      | cons name names =>
        obtain ⟨vs, ws, heq, ⟨t, rfl, -⟩, -⟩ := hus
        cases heq
    obtain ⟨t, vs, rfl⟩ := List.exists_cons_of_ne_nil hne
    refine ⟨.nonAnsi names', ?_, ?_⟩
    · rw [portList, currentKind?_bind, Cursor.currentKind?_of_after hs.after rfl]
      simp only [portList_head hus, Bool.false_eq_true, if_false]
      exact map_of_ok hread
    · show PortList.nonAnsi (names'.map (PortName.map fun _ => ())) = _
      rw [hmap]

theorem moduleHeader_complete {m : Module Unit} {k n s : Token} {ps qs : List Token}
    (hs : c.Steps (k :: n :: (ps ++ (qs ++ [s]))) c') (hk : k.kind = .word .kwModule)
    (hn : n.kind.isName = true) (hname : n.text = m.name) (hps : SpellsParameters m.params ps)
    (hqs : m.ports.Spells qs) (hsemicolon : s.kind = .op .semicolon) (hcan : m.Canonical)
    (hfaithful : ∀ t ∈ ps ++ qs, t.Faithful) :
    ∃ header, moduleHeader c = .ok (header, c') ∧ header.name = m.name ∧
      header.params.map (ParameterGroup.map fun _ => ()) = m.params ∧
      header.ports.map (fun _ => ()) = m.ports := by
  obtain ⟨hafter, hs⟩ := hs.of_cons
  obtain ⟨hafter', hs⟩ := hs.of_cons
  obtain ⟨c₁, hs₁, hs'⟩ := hs.of_append
  obtain ⟨c₂, hs₂, hs₃⟩ := hs'.of_append
  obtain ⟨hafter₂, hs₃⟩ := hs₃.of_cons
  obtain rfl := hs₃.of_nil
  have hword : expect (.word .kwModule) c = .ok (k, c.skip 1) := expect_eq_ok.2 ⟨_, hafter, hk, rfl⟩
  have hread : name (c.skip 1) = .ok (n.text, (c.skip 1).skip 1) := name_eq_ok.2 ⟨n, _, hafter', hn, rfl, rfl⟩
  have hend : expectAs (.op .semicolon) "';' after module header" c₂ = .ok (s, c₂.skip 1) :=
    expectAs_eq_ok.2 ⟨_, hafter₂, hsemicolon, rfl⟩
  obtain ⟨params, hparams, hmap⟩ := moduleParameters_complete hs₁ hps hcan.params
    (fun t h => hfaithful t (List.mem_append_left _ h)) fun t us h hsharp => by
      rw [hs₂.after, hafter₂] at h
      rcases PortList.Spells.head hqs hsemicolon h with hkind | hkind <;> rw [hsharp] at hkind <;> cases hkind
  obtain ⟨ports, hports, hmap'⟩ := modulePorts_complete hs₂ hqs hcan.ports
    (fun t h => hfaithful t (List.mem_append_right _ h)) fun t us h hparen => by
      obtain ⟨rfl, -⟩ := List.cons.inj (hafter₂.symm.trans h)
      rw [hsemicolon] at hparen
      cases hparen
  refine ⟨⟨n.text, params, ports⟩, ?_, hname, hmap, hmap'⟩
  rw [moduleHeader, bind_of_ok hword, bind_of_ok hread, bind_of_ok hparams, bind_of_ok hports, bind_of_ok hend]
  rfl

end Headers

end Parser

end SystemVerilog
