import Mathlib.Data.List.Nodup
import SystemVerilog.Proofs.Interface.Settling

/-!
# Reconciling headers with bodies

Where a header only names its ports, each name is joined with the port declaration of the body that gives it.
This comes through if and only if the names that the body declares are those of the header, each once, in
any order. Then every name of the header becomes one port, and what the port is hangs neither on the order
nor on the places of the declarations.
-/

namespace SystemVerilog.Interface

/-! ### Lists of names -/

/-- Different names, each once among others that are all among them, are these others in some order. -/
theorem nodup_perm_iff {names others : List String} :
    names.Nodup ∧ (∀ name ∈ names, others.count name = 1) ∧ (∀ name ∈ others, name ∈ names) ↔
      names.Nodup ∧ names.Perm others := by
  constructor
  · rintro ⟨hnodup, hcount, hsub⟩
    have hothers : others.Nodup := by
      refine List.nodup_iff_count_le_one.2 fun name => ?_
      by_cases hname : name ∈ others
      · exact Nat.le_of_eq (hcount name (hsub name hname))
      · rw [List.count_eq_zero_of_not_mem hname]
        exact Nat.zero_le 1
    refine ⟨hnodup, (List.perm_ext_iff_of_nodup hnodup hothers).2 fun name => ⟨fun h => ?_, hsub name⟩⟩
    exact List.count_pos_iff.1 (hcount name h ▸ Nat.zero_lt_one)
  · rintro ⟨hnodup, hperm⟩
    refine ⟨hnodup, fun name h => ?_, fun name h => hperm.mem_iff.2 h⟩
    rw [← hperm.count_eq, List.count_eq_one_of_mem hnodup h]

/-- Things that are related to the same list are related to each other. -/
theorem forall₂_of_left {α β γ : Type} {r : α → β → Prop} {s : α → γ → Prop} {t : β → γ → Prop}
    {as : List α} {bs : List β} {cs : List γ} (hr : List.Forall₂ r as bs) (hs : List.Forall₂ s as cs)
    (h : ∀ a b c, r a b → s a c → t b c) : List.Forall₂ t bs cs := by
  induction hr generalizing cs with
  | nil =>
    cases hs
    exact .nil
  | cons hab _ ih =>
    obtain ⟨c, cs, hac, hrest, rfl⟩ := List.forall₂_cons_left_iff.1 hs
    exact .cons (h _ _ _ hab hac) (ih hrest)

theorem exists_of_mem_left {α β : Type} {r : α → β → Prop} {as : List α} {bs : List β} {a : α}
    (h : List.Forall₂ r as bs) (ha : a ∈ as) : ∃ b ∈ bs, r a b := by
  induction h with
  | nil => cases ha
  | cons hr _ ih =>
    rcases List.mem_cons.1 ha with rfl | ha
    · exact ⟨_, List.mem_cons_self .., hr⟩
    · obtain ⟨b, hb, hr⟩ := ih ha
      exact ⟨b, List.mem_cons_of_mem _ hb, hr⟩

theorem forall₂_of_forall {α β : Type} {r : α → β → Prop} {as : List α} (h : ∀ a ∈ as, ∃ b, r a b) :
    ∃ bs, List.Forall₂ r as bs := by
  induction as with
  | nil => exact ⟨[], .nil⟩
  | cons a as ih =>
    obtain ⟨b, hb⟩ := h a (List.mem_cons_self ..)
    obtain ⟨bs, hbs⟩ := ih fun a ha => h a (List.mem_cons_of_mem _ ha)
    exact ⟨b :: bs, .cons hb hbs⟩

/-! ### Names of a header -/

/-- A name of a header, of which nothing has been said. -/
def pendingOf (n : PortName Site) : Pending := ⟨n.name, n.tag.location, none⟩

/-- A port that a name of the header and one of some details give. -/
def Joins (details : List Detail) (n : PortName Site) (p : Port) : Prop := ∃ d ∈ details,
  d.2.name = n.name ∧ p = { d.1 with name := n.name, origin := .nonAnsi n.tag.location d.2.tag.location }

section Header

variable {header : List (PortName Site)} {details : List Detail} {n : PortName Site} {p : Port}

theorem awaits_pendingOf {name : String} : Awaits (header.map pendingOf) name ↔
    (header.map fun n => n.name).count name = 1 := by
  have hcount : (header.map fun n => n.name).count name =
      ((header.map pendingOf).filter fun p => p.name == name).length := by
    rw [List.count_eq_countP, List.countP_eq_length_filter, List.filter_map, List.filter_map, List.length_map,
      List.length_map]
    rfl
  rw [hcount, List.length_eq_one_iff]
  refine exists_congr fun only => ⟨fun h => h.1, fun h => ⟨h, ?_⟩⟩
  have hmem : only ∈ (header.map pendingOf).filter fun p => p.name == name := h ▸ List.mem_singleton_self only
  obtain ⟨n, -, rfl⟩ := List.mem_map.1 (List.mem_filter.1 hmem).1
  rfl

theorem port_eq_ok (hnodup : (detailNames details).Nodup) :
    ((pendingOf n).givenAll details).port = .ok p ↔ Joins details n p := by
  by_cases hmem : n.name ∈ detailNames details
  · obtain ⟨d, hd, hname⟩ := List.mem_map.1 hmem
    have hgiven := Pending.givenAll_of_mem (p := pendingOf n) hnodup hd hname
    rw [hgiven]
    constructor
    · rintro ⟨⟩
      exact ⟨d, hd, hname, rfl⟩
    · rintro ⟨e, he, hother, rfl⟩
      have hsame := Pending.givenAll_of_mem (p := pendingOf n) hnodup he hother
      rw [hgiven] at hsame
      rw [hsame]
      rfl
  · rw [Pending.givenAll_of_notMem (p := pendingOf n) hmem]
    refine ⟨nofun, ?_⟩
    rintro ⟨d, hd, hname, -⟩
    exact absurd (List.mem_map.2 ⟨d, hd, hname⟩) hmem

end Header

/-! ### Ports of a module -/

section Ports

variable {unit : SourceUnit} {options : Options} {known : List String} {m : Module Site}
  {header : List (PortName Site)} {details : List Detail} {ps : List Port} {i : ModuleInterface}

theorem nonAnsiPorts_eq_ok (hdetails : Details unit known (bodyPortGroups m) details) :
    nonAnsiPorts unit known m header = .ok ps ↔
      ((bodyPortNames m).Nodup ∧ (bodyPortNames m).Perm (header.map fun n => n.name)) ∧
        List.Forall₂ (Joins details) header ps := by
  have hnames : detailNames details = bodyPortNames m := hdetails.names
  have hread : nonAnsiPorts unit known m header = (settleEach (header.map pendingOf) details >>=
      fun settled => settled.mapM Pending.port) := by
    rw [← hdetails.settleGroups_eq]
    rfl
  have hports (hnodup : (detailNames details).Nodup) :
      ((header.map pendingOf).map fun p => p.givenAll details).mapM Pending.port = .ok ps ↔
        List.Forall₂ (Joins details) header ps := by
    have hjoins : (fun n p => ((pendingOf n).givenAll details).port = .ok p) = Joins details := by
      funext n p
      exact propext (port_eq_ok hnodup)
    rw [mapM_eq_ok, List.map_map, List.forall₂_map_left_iff, ← hjoins]
    rfl
  rw [hread, bind_eq_ok, ← hnames, ← nodup_perm_iff]
  constructor
  · rintro ⟨settled, hsettled, hall⟩
    obtain ⟨hnodup, hawaits, rfl⟩ := settleEach_eq_ok.1 hsettled
    have hjoins := (hports hnodup).1 hall
    refine ⟨⟨hnodup, fun name h => awaits_pendingOf.1 (hawaits name h), fun name h => ?_⟩, hjoins⟩
    obtain ⟨n, hn, rfl⟩ := List.mem_map.1 h
    obtain ⟨p, -, d, hd, hname, -⟩ := exists_of_mem_left hjoins hn
    exact List.mem_map.2 ⟨d, hd, hname⟩
  · rintro ⟨⟨hnodup, hcount, -⟩, hjoins⟩
    exact ⟨_, settleEach_eq_ok.2 ⟨hnodup, fun name h => awaits_pendingOf.2 (hcount name h), rfl⟩,
      (hports hnodup).2 hjoins⟩

/-- Names that the header and the body agree on become ports. -/
theorem nonAnsiPorts_of_agree (hdetails : Details unit known (bodyPortGroups m) details)
    (h : (bodyPortNames m).Nodup ∧ (bodyPortNames m).Perm (header.map fun n => n.name)) :
    ∃ ps, List.Forall₂ (Joins details) header ps := by
  refine forall₂_of_forall fun n hn => ?_
  have hmem : n.name ∈ detailNames details :=
    hdetails.names ▸ h.2.mem_iff.2 (List.mem_map_of_mem hn)
  obtain ⟨d, hd, hname⟩ := List.mem_map.1 hmem
  exact ⟨_, d, hd, hname, rfl⟩

/-- With accepted header styles, different parameters and understood declarations, an interface is that of the
ports which the header and the body agree on. -/
theorem ofModule_eq_ok (hports : m.ports = .nonAnsi header) (hallow : options.allowNonAnsi = true)
    (hparams : (parameterNames m).Nodup) (hdetails : Details unit (parameterNames m) (bodyPortGroups m) details) :
    ofModule unit options m = .ok i ↔
      ((bodyPortNames m).Nodup ∧ (bodyPortNames m).Perm (header.map fun n => n.name)) ∧
        List.Forall₂ (Joins details) header i.ports ∧
        i = ⟨m.name, (parameterGroups m).flatMap (groupParameters unit), i.ports, m.tag.location⟩ := by
  have hread : ofModule unit options m = (nonAnsiPorts unit (parameterNames m) m header >>= fun ps =>
      Except.ok ⟨m.name, (parameterGroups m).flatMap (groupParameters unit), ps, m.tag.location⟩).mapError
        (InterfaceFault.mk m.name) := by
    have hparameters : parameters unit m = .ok _ := parameters_eq_ok.2 ⟨hparams, rfl⟩
    have hfound : ports unit options (parameterNames m) m = nonAnsiPorts unit (parameterNames m) m header := by
      rw [ports, hports]
      exact if_pos hallow
    rw [ofModule, extract, hparameters, ← hfound, ← name_groupParameters unit m]
    rfl
  rw [hread]
  cases hfound : nonAnsiPorts unit (parameterNames m) m header with
  | error e =>
    refine ⟨nofun, fun h => ?_⟩
    rw [(nonAnsiPorts_eq_ok hdetails).2 ⟨h.1, h.2.1⟩] at hfound
    cases hfound
  | ok ps =>
    obtain ⟨hagree, hjoins⟩ := (nonAnsiPorts_eq_ok hdetails).1 hfound
    constructor
    · rintro ⟨⟩
      exact ⟨hagree, hjoins, rfl⟩
    · rintro ⟨-, hothers, hi⟩
      rw [(nonAnsiPorts_eq_ok hdetails).2 ⟨hagree, hothers⟩] at hfound
      obtain rfl : i.ports = ps := Except.ok.inj hfound
      rw [hi]
      rfl

end Ports

/-! ### What is declared where -/

/-- The declarators of the port declarations of a body, each with its declaration. -/
def bodyDeclarators (m : Module Site) : List (PortGroup Site × Declarator Site) :=
  (bodyPortGroups m).flatMap fun group => group.declarators.map (Prod.mk group)

/-- The port is named in the header, and the rest of it is what its only declaration in the body says. -/
def Reconciled (unit : SourceUnit) (m : Module Site) (n : PortName Site) (p : Port) : Prop := ∃ group d,
  (bodyDeclarators m).filter (fun entry => entry.2.name == n.name) = [(group, d)] ∧
    groupShape unit (parameterNames m) group = .ok p.toPortShape ∧ p.name = n.name ∧
    p.origin = .nonAnsi n.tag.location d.tag.location

/-- What the declaration of a port says of it, and the name of the port. -/
def declaration (unit : SourceUnit) (m : Module Site) (entry : PortGroup Site × Declarator Site) :
    Except InterfaceCause PortShape × String :=
  (groupShape unit (parameterNames m) entry.1, entry.2.name)

/-- The second module declares in its body the ports of the first one, perhaps in another order, in other
groups and at other places. -/
structure Rearranged (unit : SourceUnit) (m : Module Site) (unit' : SourceUnit) (m' : Module Site) : Prop where
  header : m'.ports = m.ports
  parameters : parameterNames m' = parameterNames m
  understood : ∀ group ∈ bodyPortGroups m', ∃ shape, groupShape unit' (parameterNames m') group = .ok shape
  declarations : ((bodyDeclarators m').map (declaration unit' m')).Perm
    ((bodyDeclarators m).map (declaration unit m))

/-- The ports differ at most in where the body declares them. -/
def SameButBody (p q : Port) : Prop := q.toPortShape = p.toPortShape ∧ q.name = p.name ∧
  ∃ header body body', p.origin = .nonAnsi header body ∧ q.origin = .nonAnsi header body'

section Declarations

variable {unit unit' : SourceUnit} {m m' : Module Site} {said : List Detail} {n : PortName Site}
  {p q : Port}

theorem name_bodyDeclarators (m : Module Site) :
    (bodyDeclarators m).map (fun entry => entry.2.name) = bodyPortNames m := by
  rw [bodyDeclarators, List.map_flatMap, bodyPortNames]
  congr 1
  funext group
  rw [List.map_map]
  rfl

theorem mem_bodyDeclarators {entry : PortGroup Site × Declarator Site} : entry ∈ bodyDeclarators m ↔
    entry.1 ∈ bodyPortGroups m ∧ entry.2 ∈ entry.1.declarators := by
  rw [bodyDeclarators, List.mem_flatMap]
  constructor
  · rintro ⟨group, hgroup, h⟩
    obtain ⟨d, hd, rfl⟩ := List.mem_map.1 h
    exact ⟨hgroup, hd⟩
  · rintro ⟨hgroup, hd⟩
    exact ⟨entry.1, hgroup, List.mem_map.2 ⟨entry.2, hd, rfl⟩⟩

/-- Where names differ, an element is the only one of its name. -/
theorem filter_eq_singleton {β : Type} {name : β → String} {bs : List β} (hnodup : (bs.map name).Nodup) {b : β}
    (hb : b ∈ bs) : bs.filter (fun x => name x == name b) = [b] := by
  induction bs with
  | nil => cases hb
  | cons x bs ih =>
    obtain ⟨hnew, hnodup⟩ := List.nodup_cons.1 hnodup
    rcases List.mem_cons.1 hb with rfl | hb
    · have hnone : bs.filter (fun x => name x == name b) = [] := List.filter_eq_nil_iff.2 fun x hx heq =>
        hnew (beq_iff_eq.1 heq ▸ List.mem_map_of_mem hx)
      simp [hnone]
    · have hne : name x ≠ name b := fun heq => hnew (heq ▸ List.mem_map_of_mem hb)
      simp [hne, ih hnodup hb]

theorem Joins.reconciled (hdetails : Details unit (parameterNames m) (bodyPortGroups m) said)
    (hnodup : (bodyPortNames m).Nodup) (h : Joins said n p) : Reconciled unit m n p := by
  obtain ⟨d, hd, hname, rfl⟩ := h
  obtain ⟨group, hgroup, hshape, hmem⟩ := hdetails.mem_iff.1 hd
  have hentry : (group, d.2) ∈ bodyDeclarators m := mem_bodyDeclarators.2 ⟨hgroup, hmem⟩
  rw [← name_bodyDeclarators] at hnodup
  exact ⟨group, d.2, hname ▸ filter_eq_singleton hnodup hentry, hshape, rfl, rfl⟩

/-- Declarations in another order are rearranged. -/
theorem Rearranged.of_perm (header : m'.ports = m.ports) (parameters : parameterNames m' = parameterNames m)
    (understood : ∀ group ∈ bodyPortGroups m, ∃ shape, groupShape unit (parameterNames m) group = .ok shape)
    (h : (bodyPortGroups m').Perm (bodyPortGroups m)) : Rearranged unit m unit m' where
  header := header
  parameters := parameters
  understood group hgroup := parameters ▸ understood group (h.mem_iff.1 hgroup)
  declarations := by
    have hsame : declaration unit m' = declaration unit m := by
      unfold declaration
      rw [parameters]
    rw [hsame]
    exact (h.flatMap_right _).map _

/-- Rearranged declarations give the same names. -/
theorem Rearranged.names (h : Rearranged unit m unit' m') : (bodyPortNames m').Perm (bodyPortNames m) := by
  have hnames (unit : SourceUnit) (m : Module Site) :
      ((bodyDeclarators m).map (declaration unit m)).map Prod.snd = bodyPortNames m := by
    rw [List.map_map, ← name_bodyDeclarators]
    rfl
  rw [← hnames unit m, ← hnames unit' m']
  exact h.declarations.map _

/-- A name becomes the same port wherever and in whatever order the ports are declared. -/
theorem Rearranged.same (h : Rearranged unit m unit' m') (hp : Reconciled unit m n p)
    (hq : Reconciled unit' m' n q) : SameButBody p q := by
  obtain ⟨group, d, honly, hshape, hname, horigin⟩ := hp
  obtain ⟨group', d', honly', hshape', hname', horigin'⟩ := hq
  have hentry' : (group', d') ∈ (bodyDeclarators m').filter fun entry => entry.2.name == n.name :=
    honly' ▸ List.mem_singleton_self _
  obtain ⟨hmem', heq'⟩ := List.mem_filter.1 hentry'
  -- The first module has a declaration that says the same of a port of this name, so it is the only one.
  obtain ⟨⟨other, e⟩, hmem, heq⟩ := List.mem_map.1 (h.declarations.mem_iff.1 (List.mem_map_of_mem hmem'))
  have hsame : groupShape unit (parameterNames m) other = groupShape unit' (parameterNames m') group' :=
    congrArg Prod.fst heq
  have hen : e.name = d'.name := congrArg Prod.snd heq
  have hentry : (other, e) ∈ (bodyDeclarators m).filter fun entry => entry.2.name == n.name :=
    List.mem_filter.2 ⟨hmem, beq_iff_eq.2 (hen.trans (beq_iff_eq.1 heq'))⟩
  rw [honly, List.mem_singleton] at hentry
  obtain rfl : other = group := congrArg Prod.fst hentry
  refine ⟨Except.ok.inj (hshape'.symm.trans (hsame.symm.trans hshape)), hname'.trans hname.symm, ?_⟩
  exact ⟨_, _, _, horigin, horigin'⟩

end Declarations

/-! ### Reconciliation -/

/-- A header that names its ports is reconciled with the body if and only if the body declares these names,
each once. Each name then becomes one port, in the order of the header, and the order and the places of the
declarations show in no port but for the place where it is declared. -/
theorem nonAnsi_reconciled {unit : SourceUnit} {options : Options} {m : Module Site}
    {header : List (PortName Site)} (hports : m.ports = .nonAnsi header) (hallow : options.allowNonAnsi = true)
    (hparams : (parameterNames m).Nodup)
    (hshapes : ∀ group ∈ bodyPortGroups m, ∃ shape, groupShape unit (parameterNames m) group = .ok shape) :
    ((∃ i, ofModule unit options m = .ok i) ↔
      (bodyPortNames m).Nodup ∧ (bodyPortNames m).Perm (header.map fun n => n.name)) ∧
    ∀ i, ofModule unit options m = .ok i → List.Forall₂ (Reconciled unit m) header i.ports ∧
      ∀ unit' m', Rearranged unit m unit' m' →
        ∃ i', ofModule unit' options m' = .ok i' ∧ List.Forall₂ SameButBody i.ports i'.ports := by
  obtain ⟨details, hdetails⟩ := Details.exists hshapes
  have hread (i : ModuleInterface) := ofModule_eq_ok (i := i) hports hallow hparams hdetails
  refine ⟨⟨fun ⟨i, hi⟩ => ((hread i).1 hi).1, fun hagree => ?_⟩, fun i hi => ?_⟩
  · obtain ⟨ps, hps⟩ := nonAnsiPorts_of_agree hdetails hagree
    exact ⟨_, (hread ⟨m.name, _, ps, m.tag.location⟩).2 ⟨hagree, hps, rfl⟩⟩
  · obtain ⟨hagree, hjoins, -⟩ := (hread i).1 hi
    have hreconciled := hjoins.imp fun _ _ => Joins.reconciled hdetails hagree.1
    refine ⟨hreconciled, fun unit' m' h => ?_⟩
    obtain ⟨details', hdetails'⟩ := Details.exists h.understood
    have hnames := h.names
    have hagree' : (bodyPortNames m').Nodup ∧ (bodyPortNames m').Perm (header.map fun n => n.name) :=
      ⟨hnames.nodup_iff.2 hagree.1, hnames.trans hagree.2⟩
    obtain ⟨ps, hps⟩ := nonAnsiPorts_of_agree hdetails' hagree'
    have hparams' : (parameterNames m').Nodup := h.parameters ▸ hparams
    refine ⟨⟨m'.name, _, ps, m'.tag.location⟩,
      (ofModule_eq_ok (h.header.trans hports) hallow hparams' hdetails').2 ⟨hagree', hps, rfl⟩, ?_⟩
    exact forall₂_of_left hreconciled hps fun n p q hp hq => h.same hp (hq.reconciled hdetails' hagree'.1)

/-- A module `m(a, b)` whose body declares first `b` and then `a` has the ports `a` and `b`, also if the body
declares them the other way round. -/
theorem nonAnsi_reconciled_swapped :
    let a : PortName Site := ⟨⟨⟨1, 10⟩, ⟨3, 4⟩⟩, "a"⟩
    let b : PortName Site := ⟨⟨⟨1, 13⟩, ⟨5, 6⟩⟩, "b"⟩
    let output : PortGroup Site := ⟨⟨⟨2, 1⟩, ⟨8, 11⟩⟩, .output, none, none, [⟨⟨⟨2, 8⟩, ⟨9, 10⟩⟩, "b", [], none⟩]⟩
    let input : PortGroup Site := ⟨⟨⟨3, 1⟩, ⟨11, 14⟩⟩, .input, none, none, [⟨⟨⟨3, 7⟩, ⟨12, 13⟩⟩, "a", [], none⟩]⟩
    let m : Module Site := ⟨⟨⟨1, 1⟩, ⟨0, 15⟩⟩, "m", [], .nonAnsi [a, b], [.ports output, .ports input]⟩
    let m' : Module Site := { m with body := [.ports input, .ports output] }
    let text := "module m(a, b);\noutput b;\ninput a;\nendmodule"
    let unit : SourceUnit := ⟨⟨ReadOptions.source {} text, []⟩, [.design m]⟩
    ∃ i i', ofModule unit {} m = .ok i ∧ ofModule unit {} m' = .ok i' ∧
      List.Forall₂ (Reconciled unit m) [a, b] i.ports ∧ List.Forall₂ SameButBody i.ports i'.ports := by
  intro a b output input m m' text unit
  have hshapes : ∀ group ∈ bodyPortGroups m, ∃ shape, groupShape unit (parameterNames m) group = .ok shape :=
    List.forall_mem_cons.2 ⟨⟨_, rfl⟩, List.forall_mem_singleton.2 ⟨_, rfl⟩⟩
  have hparams : (parameterNames m).Nodup := List.nodup_nil
  obtain ⟨⟨-, hread⟩, hall⟩ := nonAnsi_reconciled rfl rfl hparams hshapes
  obtain ⟨i, hi⟩ := hread ⟨by decide, List.Perm.swap ..⟩
  obtain ⟨hports, hrearranged⟩ := hall i hi
  obtain ⟨i', hi', hsame⟩ := hrearranged unit m' (.of_perm rfl rfl hshapes (List.Perm.swap ..))
  exact ⟨i, i', hi, hi', hports, hsame⟩

end SystemVerilog.Interface
