import SystemVerilog.Proofs.Interface.Names

/-!
# Ports that wait for their declarations

The ports that a header names are pending until the body says what they are. A port declaration settles the
port of its name if there is exactly one and nothing has been said of it. A run through all declarations
therefore comes through if and only if they give different names, each the name of one pending port that
nothing has been said of; it gives every port what the declaration of its name says.
-/

namespace SystemVerilog.Interface

/-! ### One declaration -/

/-- A pending port behind a declaration. -/
def Pending.given (shape : PortShape) (d : Declarator Site) (p : Pending) : Pending :=
  if p.name = d.name then { p with detail := some (shape, d.tag.location) } else p

/-- There is one pending port of this name, and nothing has been said of it. -/
def Awaits (pending : List Pending) (name : String) : Prop := ∃ only,
  pending.filter (fun p => p.name == name) = [only] ∧ only.detail = none

section Declaration

variable {shape : PortShape} {d : Declarator Site} {pending settled : List Pending} {name : String}

@[simp] theorem Pending.given_name (p : Pending) : (p.given shape d).name = p.name := by
  unfold given
  split <;> rfl

@[simp] theorem Pending.given_header (p : Pending) : (p.given shape d).header = p.header := by
  unfold given
  split <;> rfl

theorem Pending.given_of_eq {p : Pending} (h : p.name = d.name) :
    p.given shape d = { p with detail := some (shape, d.tag.location) } := if_pos h

theorem Pending.given_of_ne {p : Pending} (h : p.name ≠ d.name) : p.given shape d = p := if_neg h

theorem settle_eq_ok : settle shape d pending = .ok settled ↔
    Awaits pending d.name ∧ settled = pending.map (Pending.given shape d) := by
  unfold settle Awaits
  split
  · rename_i hnone
    rw [hnone]
    exact ⟨nofun, fun ⟨⟨_, h, _⟩, _⟩ => nomatch h⟩
  · rename_i only hone
    rw [hone]
    split
    · rename_i hdetail
      refine ⟨nofun, ?_⟩
      rintro ⟨⟨_, h, hnone⟩, -⟩
      cases h
      rw [hnone] at hdetail
      cases hdetail
    · rename_i hdetail
      have hnone : only.detail = none := Option.not_isSome_iff_eq_none.1 hdetail
      exact ⟨fun h => ⟨⟨only, rfl, hnone⟩, (Except.ok.inj h).symm⟩, fun h => congrArg Except.ok h.2.symm⟩
  · rename_i p q rest hmany
    rw [hmany]
    exact ⟨nofun, fun ⟨⟨_, h, _⟩, _⟩ => nomatch h⟩

theorem filter_given : (pending.map (Pending.given shape d)).filter (fun p => p.name == name) =
    (pending.filter fun p => p.name == name).map (Pending.given shape d) := by
  rw [List.filter_map]
  congr 2
  funext p
  exact congrArg (· == name) (p.given_name)

/-- A declaration settles its own port only: the others wait on. -/
theorem awaits_given : Awaits pending d.name →
    (Awaits (pending.map (Pending.given shape d)) name ↔ name ≠ d.name ∧ Awaits pending name) := by
  rintro ⟨own, hown, -⟩
  have hname {p : Pending} {ps : List Pending} {n : String} (h : pending.filter (fun p => p.name == n) = p :: ps) :
      p.name = n := by
    have hmem : p ∈ pending.filter fun p => p.name == n := h ▸ List.mem_cons_self ..
    exact beq_iff_eq.1 (List.mem_filter.1 hmem).2
  unfold Awaits
  rw [filter_given]
  constructor
  · rintro ⟨only, hone, hnone⟩
    obtain ⟨p, hp, rfl⟩ := List.map_eq_singleton_iff.1 hone
    have hne : name ≠ d.name := by
      rintro rfl
      rw [p.given_of_eq (hname hp)] at hnone
      cases hnone
    rw [p.given_of_ne (hname hp ▸ hne)] at hnone
    exact ⟨hne, p, hp, hnone⟩
  · rintro ⟨hne, p, hp, hnone⟩
    have hsame : p.given shape d = p := p.given_of_ne (hname hp ▸ hne)
    exact ⟨p, by rw [hp, List.map_singleton, hsame], hnone⟩

end Declaration

/-! ### A run through declarations -/

/-- A declarator with what its declaration says of its port. -/
abbrev Detail := PortShape × Declarator Site

/-- The names that are declared. -/
def detailNames (details : List Detail) : List String := details.map fun d => d.2.name

/-- Gives declared ports their details, one after the other. -/
def settleEach (pending : List Pending) : List Detail → Except InterfaceCause (List Pending)
  | [] => .ok pending
  | d :: ds => do settleEach (← settle d.1 d.2 pending) ds

/-- A pending port behind some declarations. -/
def Pending.givenAll (p : Pending) (details : List Detail) : Pending :=
  details.foldl (fun p d => p.given d.1 d.2) p

section Run

variable {pending settled : List Pending} {details more : List Detail}

@[simp] theorem Pending.givenAll_name (p : Pending) : (p.givenAll details).name = p.name := by
  induction details generalizing p with
  | nil => rfl
  | cons d ds ih =>
    show ((p.given d.1 d.2).givenAll ds).name = _
    rw [ih, given_name]

@[simp] theorem Pending.givenAll_header (p : Pending) : (p.givenAll details).header = p.header := by
  induction details generalizing p with
  | nil => rfl
  | cons d ds ih =>
    show ((p.given d.1 d.2).givenAll ds).header = _
    rw [ih, given_header]

theorem Pending.givenAll_of_notMem {p : Pending} (h : p.name ∉ detailNames details) :
    p.givenAll details = p := by
  induction details with
  | nil => rfl
  | cons d ds ih =>
    obtain ⟨hne, hrest⟩ := not_or.1 fun hor => h (List.mem_cons.2 hor)
    show (p.given d.1 d.2).givenAll ds = p
    rw [p.given_of_ne hne, ih hrest]

/-- Among declarations of different names that of the port settles it. -/
theorem Pending.givenAll_of_mem {p : Pending} (hnodup : (detailNames details).Nodup) {d : Detail}
    (hd : d ∈ details) (hname : d.2.name = p.name) :
    p.givenAll details = { p with detail := some (d.1, d.2.tag.location) } := by
  induction details generalizing p with
  | nil => cases hd
  | cons e ds ih =>
    obtain ⟨hnew, hnodup⟩ := List.nodup_cons.1 hnodup
    show (p.given e.1 e.2).givenAll ds = _
    rcases List.mem_cons.1 hd with rfl | hd
    · have hrest : (p.given d.1 d.2).name ∉ detailNames ds := by rwa [given_name, ← hname]
      rw [givenAll_of_notMem hrest, p.given_of_eq hname.symm]
    · have hmem : d.2.name ∈ detailNames ds := List.mem_map_of_mem hd
      have hne : p.name ≠ e.2.name := by
        intro h
        rw [hname, h] at hmem
        exact hnew hmem
      rw [p.given_of_ne hne, ih hnodup hd hname]

/-- A run through declarations comes through exactly if their names differ and each is awaited. -/
theorem settleEach_eq_ok : settleEach pending details = .ok settled ↔
    (detailNames details).Nodup ∧ (∀ name ∈ detailNames details, Awaits pending name) ∧
      settled = pending.map fun p => p.givenAll details := by
  induction details generalizing pending with
  | nil =>
    have hmap : (pending.map fun p => p.givenAll []) = pending := List.map_id pending
    rw [settleEach, hmap]
    constructor
    · rintro ⟨⟩
      exact ⟨List.nodup_nil, nofun, rfl⟩
    · rintro ⟨-, -, rfl⟩
      rfl
  | cons d ds ih =>
    have hmap : ((pending.map (Pending.given d.1 d.2)).map fun p => p.givenAll ds) =
        pending.map fun p => p.givenAll (d :: ds) := List.map_map
    have hnames : detailNames (d :: ds) = d.2.name :: detailNames ds := rfl
    rw [settleEach, bind_eq_ok, hnames, List.nodup_cons, List.forall_mem_cons]
    constructor
    · rintro ⟨next, hstep, hrest⟩
      obtain ⟨hawaits, rfl⟩ := settle_eq_ok.1 hstep
      obtain ⟨hnodup, hall, rfl⟩ := ih.1 hrest
      have hsplit := fun name h => (awaits_given hawaits).1 (hall name h)
      exact ⟨⟨fun h => (hsplit _ h).1 rfl, hnodup⟩, ⟨hawaits, fun name h => (hsplit name h).2⟩, hmap⟩
    · rintro ⟨⟨hnew, hnodup⟩, ⟨hawaits, hall⟩, rfl⟩
      refine ⟨_, settle_eq_ok.2 ⟨hawaits, rfl⟩, ih.2 ⟨hnodup, fun name h => ?_, hmap.symm⟩⟩
      exact (awaits_given hawaits).2 ⟨fun heq => hnew (heq ▸ h), hall name h⟩

theorem settleEach_append : settleEach pending (details ++ more) =
    settleEach pending details >>= fun settled => settleEach settled more := by
  induction details generalizing pending with
  | nil => rfl
  | cons d ds ih =>
    rw [List.cons_append, settleEach, settleEach]
    cases settle d.1 d.2 pending with
    | error e => rfl
    | ok next => exact ih

end Run

/-! ### Groups of declarations -/

theorem settleAll_eq (shape : PortShape) (pending : List Pending) (ds : List (Declarator Site)) :
    settleAll shape pending ds = settleEach pending (ds.map (Prod.mk shape)) := by
  induction ds generalizing pending with
  | nil => rfl
  | cons d ds ih =>
    rw [settleAll, List.map_cons, settleEach]
    congr 1
    funext next
    exact ih next

/-- The details that port declarations give, if each of them can be understood. -/
inductive Details (unit : SourceUnit) (known : List String) : List (PortGroup Site) → List Detail → Prop
  | nil : Details unit known [] []
  | cons {group : PortGroup Site} {groups : List (PortGroup Site)} {shape : PortShape} {details : List Detail} :
      groupShape unit known group = .ok shape → Details unit known groups details →
      Details unit known (group :: groups) (group.declarators.map (Prod.mk shape) ++ details)

section Groups

variable {unit : SourceUnit} {known : List String} {groups : List (PortGroup Site)} {details : List Detail}

theorem Details.exists (h : ∀ group ∈ groups, ∃ shape, groupShape unit known group = .ok shape) :
    ∃ details, Details unit known groups details := by
  induction groups with
  | nil => exact ⟨[], .nil⟩
  | cons group groups ih =>
    obtain ⟨shape, hshape⟩ := h group (List.mem_cons_self ..)
    obtain ⟨details, hdetails⟩ := ih fun g hg => h g (List.mem_cons_of_mem _ hg)
    exact ⟨_, .cons hshape hdetails⟩

/-- The groups are settled one declarator after the other. -/
theorem Details.settleGroups_eq (h : Details unit known groups details) (pending : List Pending) :
    settleGroups unit known pending groups = settleEach pending details := by
  induction h generalizing pending with
  | nil => rfl
  | cons hshape hrest ih =>
    rw [settleGroups, hshape, settleEach_append, ← settleAll_eq]
    show (settleAll _ pending _ >>= fun settled => settleGroups unit known settled _) = _
    congr 1
    funext next
    exact ih next

theorem Details.names (h : Details unit known groups details) :
    detailNames details = groups.flatMap fun group => group.declarators.map fun d => d.name := by
  induction h with
  | nil => rfl
  | cons hshape hrest ih =>
    rw [List.flatMap_cons, ← ih, detailNames, List.map_append, List.map_map]
    rfl

/-- A detail is that of a declarator in a group. -/
theorem Details.mem_iff (h : Details unit known groups details) {d : Detail} : d ∈ details ↔
    ∃ group ∈ groups, groupShape unit known group = .ok d.1 ∧ d.2 ∈ group.declarators := by
  induction h with
  | nil => simp
  | @cons group groups shape details hshape hrest ih =>
    rw [List.mem_append, ih, List.exists_mem_cons_iff]
    refine or_congr_left ?_
    constructor
    · intro h
      obtain ⟨e, he, rfl⟩ := List.mem_map.1 h
      exact ⟨hshape, he⟩
    · rintro ⟨hd, hmem⟩
      obtain rfl : shape = d.1 := Except.ok.inj (hshape.symm.trans hd)
      exact List.mem_map_of_mem hmem

end Groups

end SystemVerilog.Interface
