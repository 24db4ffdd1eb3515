import Mathlib.Algebra.Group.Nat.Defs
import Mathlib.Data.List.Nodup
import SystemVerilog.Proofs.Interface.Names

/-!
# Interfaces that headers declare

Where the header of a module declares its ports, or where there are none, the interface can be read off if and
only if the module is well formed: no parameter and no port has the name of another one, and every first packed
dimension gives a width. The bounds of such a dimension run down to a literal zero, the names in the upper bound
are parameters, and an upper bound that is a literal has a successor below the bound on values.
-/

namespace SystemVerilog

/-- Whether an expression is a literal. -/
def Expr.isLiteral {α : Type} : Expr α → Bool
  | .literal _ _ _ => true
  | _ => false

namespace Interface

variable {unit : SourceUnit} {options : Options} {m : Module Site} {known seen : List String}

/-! ### Values of bounds -/

theorem literalBound_eq_some {range : String} {e : Expr Site} {v : Nat} :
    literalBound range e = .ok (some v) ↔ e.integerValue? = some v := by
  cases e with
  | literal tag kind text =>
    have hdigits : (Expr.literal tag kind text).integerDigits? = integerDigits? kind text.toList := rfl
    have hvalue : (Expr.literal tag kind text).integerValue? = integerValue? kind text.toList := rfl
    rw [literalBound, hdigits, hvalue, integerValue?]
    cases integerDigits? kind text.toList with
    | none => exact ⟨nofun, nofun⟩
    | some found =>
      obtain ⟨radix, digits⟩ := found
      dsimp only [Option.bind_some]
      cases readDigits radix digits with
      | ok value => exact ⟨fun h => Except.ok.inj h, fun h => congrArg Except.ok h⟩
      | error fault => cases fault <;> exact ⟨nofun, nofun⟩
  | _ => exact ⟨nofun, nofun⟩

theorem literalBound_eq_none {range : String} {e : Expr Site} :
    literalBound range e = .ok none ↔ e.isLiteral = false := by
  cases e with
  | literal tag kind text =>
    refine ⟨fun h => ?_, nofun⟩
    unfold literalBound at h
    dsimp only at h
    split at h
    · cases h
    · split at h <;> cases h
  | _ => exact ⟨fun _ => rfl, fun _ => rfl⟩

theorem firstUnknown?_eq_none {names : List String} :
    firstUnknown? known names = none ↔ ∀ name ∈ names, name ∈ known := by
  rw [firstUnknown?, List.find?_eq_none]
  refine forall₂_congr fun name _ => ?_
  rw [Bool.not_eq_true', Bool.not_eq_false, List.contains_iff_mem]

/-! ### Widths -/

/-- Bounds that give a width. -/
structure Sized (known : List String) (b : Bounds Site) : Prop where
  zero : b.right.integerValue? = some 0
  known : ∀ name ∈ b.left.identifiers, name ∈ known
  below : b.left.isLiteral = true → ∃ v, b.left.integerValue? = some v ∧ v ≤ 2 ^ 128 - 2

/-- The width that the bounds give: one more than the value of the upper one, or than its text. -/
def statedWidth (unit : SourceUnit) (b : Bounds Site) : Width :=
  match b.left.integerValue? with
  | some v => .bits (v + 1)
  | none => .oneMoreThan (unit.nodeText b.left.tag)

theorem isLiteral_of_integerValue? {e : Expr Site} {v : Nat} (h : e.integerValue? = some v) :
    e.isLiteral = true := by
  cases e with
  | literal tag kind text => rfl
  | _ => cases h

theorem add_one_lt_valueBound {v : Nat} : v + 1 < valueBound ↔ v ≤ 2 ^ 128 - 2 := by
  have hbound : valueBound = 2 ^ 128 := rfl
  rw [hbound]
  omega

theorem boundsWidth_eq_ok {b : Bounds Site} {w : Width} :
    boundsWidth unit known b = .ok w ↔ Sized known b ∧ w = statedWidth unit b := by
  unfold boundsWidth
  rw [bind_eq_ok]
  constructor
  · rintro ⟨low, hlow, h⟩
    split at h
    · rename_i hzero
      subst hzero
      split at h
      · cases h
      · rename_i hknown
        obtain ⟨high, hhigh, h⟩ := bind_eq_ok.1 h
        have hright := literalBound_eq_some.1 hlow
        have hnames := firstUnknown?_eq_none.1 hknown
        cases high with
        | some v =>
          have hleft := literalBound_eq_some.1 hhigh
          dsimp only at h
          split at h
          · rename_i hv
            cases h
            refine ⟨⟨hright, hnames, fun _ => ⟨v, hleft, add_one_lt_valueBound.1 hv⟩⟩, ?_⟩
            rw [statedWidth, hleft]
          · cases h
        | none =>
          cases h
          have hleft := literalBound_eq_none.1 hhigh
          refine ⟨⟨hright, hnames, fun hliteral => absurd hliteral (Bool.eq_false_iff.1 hleft)⟩, ?_⟩
          unfold statedWidth
          split
          · rename_i v hv
            rw [isLiteral_of_integerValue? hv] at hleft
            cases hleft
          · rfl
    · cases h
  · rintro ⟨hsized, rfl⟩
    refine ⟨some 0, literalBound_eq_some.2 hsized.zero, ?_⟩
    rw [if_pos rfl, firstUnknown?_eq_none.2 hsized.known]
    cases hliteral : b.left.isLiteral with
    | true =>
      obtain ⟨v, hv, hbelow⟩ := hsized.below hliteral
      refine bind_eq_ok.2 ⟨some v, literalBound_eq_some.2 hv, ?_⟩
      dsimp only
      rw [if_pos (add_one_lt_valueBound.2 hbelow), statedWidth, hv]
      rfl
    | false =>
      refine bind_eq_ok.2 ⟨none, literalBound_eq_none.2 hliteral, ?_⟩
      have hnone : b.left.integerValue? = none := by
        refine Option.eq_none_iff_forall_ne_some.2 fun v hv => ?_
        rw [isLiteral_of_integerValue? hv] at hliteral
        cases hliteral
      rw [statedWidth, hnone]
      rfl

/-! ### Groups -/

/-- The first packed dimension of the ports of a group. -/
def firstBounds? (group : PortGroup Site) : Option (Bounds Site) :=
  group.type.bind fun type => type.packed.head?

/-- What a group says about all its ports. -/
def statedShape (unit : SourceUnit) (group : PortGroup Site) : PortShape where
  direction := group.direction
  type := group.type.map fun type => unit.nodeText type.tag
  width := (firstBounds? group).map (statedWidth unit)

theorem groupShape_eq_ok {group : PortGroup Site} {shape : PortShape} :
    groupShape unit known group = .ok shape ↔
      (∀ b ∈ firstBounds? group, Sized known b) ∧ shape = statedShape unit group := by
  unfold groupShape firstBounds? statedShape firstBounds? typeShape
  cases group.type with
  | none => exact ⟨fun h => ⟨nofun, (Except.ok.inj h).symm⟩, fun h => congrArg Except.ok h.2.symm⟩
  | some type =>
    dsimp only [Option.bind_some, Option.map_some]
    cases type.packed with
    | nil => exact ⟨fun h => ⟨nofun, (Except.ok.inj h).symm⟩, fun h => congrArg Except.ok h.2.symm⟩
    | cons b packed =>
      have hhead (p : Bounds Site → Prop) : (∀ x ∈ (b :: packed).head?, p x) ↔ p b := by
        simp
      rw [hhead, bind_eq_ok]
      constructor
      · rintro ⟨_, hpair, h⟩
        obtain ⟨w, hw, hpair⟩ := bind_eq_ok.1 hpair
        cases hpair
        cases h
        obtain ⟨hsized, rfl⟩ := boundsWidth_eq_ok.1 hw
        exact ⟨hsized, rfl⟩
      · rintro ⟨hsized, rfl⟩
        have hwidth : boundsWidth unit known b = .ok _ := boundsWidth_eq_ok.2 ⟨hsized, rfl⟩
        exact ⟨_, bind_eq_ok.2 ⟨_, hwidth, rfl⟩, rfl⟩

/-- The port that a declarator of a header gives. -/
def headerPort (shape : PortShape) (d : Declarator Site) : Port :=
  { shape with name := d.name, origin := .ansi d.tag.location }

theorem name_headerPort (shape : PortShape) (ds : List (Declarator Site)) :
    (ds.map (headerPort shape)).map (fun p => p.name) = ds.map fun d => d.name := by
  rw [List.map_map]
  rfl

theorem groupPorts_eq_ok {shape : PortShape} {ds : List (Declarator Site)} {ps : List Port} :
    groupPorts shape seen ds = .ok ps ↔
      (ds.map fun d => d.name).Nodup ∧ (∀ name ∈ ds.map fun d => d.name, name ∉ seen) ∧
        ps = ds.map (headerPort shape) := by
  induction ds generalizing seen ps with
  | nil =>
    constructor
    · rintro ⟨⟩
      exact ⟨List.nodup_nil, List.forall_mem_nil _, rfl⟩
    · rintro ⟨-, -, rfl⟩
      rfl
  | cons d ds ih =>
    rw [groupPorts, List.map_cons, List.nodup_cons, List.forall_mem_cons]
    by_cases hseen : d.name ∈ seen
    · rw [if_pos (List.contains_iff_mem.2 hseen)]
      exact ⟨nofun, fun h => absurd hseen h.2.1.1⟩
    · rw [if_neg (fun h => hseen (List.contains_iff_mem.1 h)), bind_eq_ok]
      constructor
      · rintro ⟨rest, hrest, h⟩
        cases h
        obtain ⟨hnodup, hnew, rfl⟩ := ih.1 hrest
        refine ⟨⟨fun h => hnew d.name h (List.mem_cons_self ..), hnodup⟩, ⟨hseen, fun name h hmem => ?_⟩, rfl⟩
        exact hnew name h (List.mem_cons_of_mem _ hmem)
      · rintro ⟨⟨hfirst, hnodup⟩, ⟨-, hnew⟩, rfl⟩
        refine ⟨ds.map (headerPort shape), ih.2 ⟨hnodup, fun name h hmem => ?_, rfl⟩, rfl⟩
        rcases List.mem_cons.1 hmem with rfl | hmem
        · exact hfirst h
        · exact hnew name h hmem

/-- The names that some groups give to their ports. -/
def portNames (groups : List (PortGroup Site)) : List String :=
  groups.flatMap fun group => group.declarators.map fun d => d.name

theorem ansiPorts_eq_ok {groups : List (PortGroup Site)} {ps : List Port} :
    ansiPorts unit known seen groups = .ok ps ↔
      ((portNames groups).Nodup ∧ ∀ name ∈ portNames groups, name ∉ seen) ∧
      (∀ group ∈ groups, ∀ b ∈ firstBounds? group, Sized known b) ∧
      ps = groups.flatMap fun group => group.declarators.map (headerPort (statedShape unit group)) := by
  induction groups generalizing seen ps with
  | nil =>
    constructor
    · rintro ⟨⟩
      exact ⟨⟨List.nodup_nil, List.forall_mem_nil _⟩, List.forall_mem_nil _, rfl⟩
    · rintro ⟨-, -, rfl⟩
      rfl
  | cons group groups ih =>
    have hnames : portNames (group :: groups) = (group.declarators.map fun d => d.name) ++ portNames groups :=
      List.flatMap_cons
    rw [ansiPorts, bind_eq_ok, hnames, List.nodup_append', List.forall_mem_append, List.forall_mem_cons,
      List.flatMap_cons]
    constructor
    · rintro ⟨shape, hshape, h⟩
      obtain ⟨first, hfirst, h⟩ := bind_eq_ok.1 h
      obtain ⟨rest, hrest, h⟩ := bind_eq_ok.1 h
      cases h
      obtain ⟨hsized, rfl⟩ := groupShape_eq_ok.1 hshape
      obtain ⟨hnodup, hnew, rfl⟩ := groupPorts_eq_ok.1 hfirst
      rw [name_headerPort] at hrest
      obtain ⟨⟨hlater, hother⟩, hsizes, rfl⟩ := ih.1 hrest
      refine ⟨⟨⟨hnodup, hlater, fun name h hmem => ?_⟩, hnew, fun name h hmem => ?_⟩, ⟨hsized, hsizes⟩, rfl⟩
      · exact hother name hmem (List.mem_append_left _ h)
      · exact hother name h (List.mem_append_right _ hmem)
    · rintro ⟨⟨⟨hnodup, hlater, hdisjoint⟩, hnew, hother⟩, ⟨hsized, hsizes⟩, rfl⟩
      refine ⟨_, groupShape_eq_ok.2 ⟨hsized, rfl⟩, bind_eq_ok.2 ⟨_, groupPorts_eq_ok.2 ⟨hnodup, hnew, rfl⟩, ?_⟩⟩
      refine bind_eq_ok.2 ⟨_, ?_, rfl⟩
      rw [name_headerPort]
      refine ih.2 ⟨⟨hlater, fun name h hmem => ?_⟩, hsizes, rfl⟩
      rcases List.mem_append.1 hmem with hmem | hmem
      · exact hdisjoint hmem h
      · exact hother name h hmem

/-! ### Modules -/

/-- The port groups of a header that declares its ports. -/
def headerGroups (m : Module Site) : List (PortGroup Site) :=
  match m.ports with
  | .ansi groups => groups
  | .empty | .nonAnsi _ => []

/-- A module whose names differ and whose header gives a width to every port with a packed dimension. -/
structure WellFormed (m : Module Site) : Prop where
  parameters : (parameterNames m).Nodup
  ports : (portNames (headerGroups m)).Nodup
  widths : ∀ group ∈ headerGroups m, ∀ b ∈ firstBounds? group, Sized (parameterNames m) b

/-- The parameter is what a declarator and its group say. -/
structure SaysParameter (unit : SourceUnit) (entry : ParameterGroup Site × Declarator Site) (p : Parameter) :
    Prop where
  name : p.name = entry.2.name
  isLocal : p.isLocal = entry.1.isLocal
  type : p.type = entry.1.type.map fun type => unit.nodeText type.tag
  default : p.default = entry.2.value.map fun value => unit.nodeText value.tag
  location : p.location = entry.2.tag.location

/-- The port is what a declarator of the header and its group say. -/
structure SaysPort (unit : SourceUnit) (entry : PortGroup Site × Declarator Site) (p : Port) : Prop where
  name : p.name = entry.2.name
  direction : p.direction = entry.1.direction
  type : p.type = entry.1.type.map fun type => unit.nodeText type.tag
  width : p.width = (firstBounds? entry.1).map (statedWidth unit)
  origin : p.origin = .ansi entry.2.tag.location

/-- The interface is what the parameter groups and the header of a module say, in the order of the text. -/
structure SaysInterface (unit : SourceUnit) (m : Module Site) (i : ModuleInterface) : Prop where
  name : i.name = m.name
  parameters : List.Forall₂ (SaysParameter unit)
    ((parameterGroups m).flatMap fun group => group.declarators.map (Prod.mk group)) i.parameters
  ports : List.Forall₂ (SaysPort unit)
    ((headerGroups m).flatMap fun group => group.declarators.map (Prod.mk group)) i.ports
  location : i.location = m.tag.location

/-- What every element of every group gives, related one by one. -/
theorem forall₂_flatMap {γ δ β : Type} {parts : γ → List δ} {give : γ → δ → β} {r : γ × δ → β → Prop}
    (h : ∀ g d, r (g, d) (give g d)) (gs : List γ) :
    List.Forall₂ r (gs.flatMap fun g => (parts g).map (Prod.mk g)) (gs.flatMap fun g => (parts g).map (give g)) := by
  induction gs with
  | nil => exact .nil
  | cons g gs ih =>
    rw [List.flatMap_cons, List.flatMap_cons]
    refine List.rel_append ?_ ih
    rw [List.forall₂_map_left_iff, List.forall₂_map_right_iff]
    exact List.forall₂_same.2 fun d _ => h g d

/-- The interface of a well-formed module. -/
def statedInterface (unit : SourceUnit) (m : Module Site) : ModuleInterface where
  name := m.name
  parameters := (parameterGroups m).flatMap (groupParameters unit)
  ports := (headerGroups m).flatMap fun group => group.declarators.map (headerPort (statedShape unit group))
  location := m.tag.location

theorem statedInterface_says (unit : SourceUnit) (m : Module Site) :
    SaysInterface unit m (statedInterface unit m) where
  name := rfl
  parameters := forall₂_flatMap (fun _ _ => ⟨rfl, rfl, rfl, rfl, rfl⟩) _
  ports := forall₂_flatMap (fun _ _ => ⟨rfl, rfl, rfl, rfl, rfl⟩) _
  location := rfl

theorem ports_eq_ok (h : ∀ names, m.ports ≠ .nonAnsi names) {ps : List Port} :
    ports unit options known m = .ok ps ↔ (portNames (headerGroups m)).Nodup ∧
      (∀ group ∈ headerGroups m, ∀ b ∈ firstBounds? group, Sized known b) ∧
      ps = (headerGroups m).flatMap fun group => group.declarators.map (headerPort (statedShape unit group)) := by
  have hread : ports unit options known m = ansiPorts unit known [] (headerGroups m) := by
    rw [ports, headerGroups]
    cases hports : m.ports with
    | empty => rfl
    | ansi groups => rfl
    | nonAnsi names => exact absurd hports (h names)
  rw [hread, ansiPorts_eq_ok]
  constructor
  · rintro ⟨⟨hnodup, -⟩, hsized, hps⟩
    exact ⟨hnodup, hsized, hps⟩
  · rintro ⟨hnodup, hsized, hps⟩
    exact ⟨⟨hnodup, fun _ _ => List.not_mem_nil⟩, hsized, hps⟩

theorem ofModule_eq_ok_iff {i : ModuleInterface} :
    ofModule unit options m = .ok i ↔ extract unit options m = .ok i := by
  rw [ofModule]
  cases extract unit options m with
  | error cause => exact ⟨nofun, nofun⟩
  | ok found => exact ⟨fun h => congrArg Except.ok (Except.ok.inj h), fun h => congrArg Except.ok (Except.ok.inj h)⟩

theorem extract_eq_ok (h : ∀ names, m.ports ≠ .nonAnsi names) {i : ModuleInterface} :
    extract unit options m = .ok i ↔ WellFormed m ∧ i = statedInterface unit m := by
  rw [extract, bind_eq_ok]
  constructor
  · rintro ⟨found, hfound, hrest⟩
    obtain ⟨hparameters, rfl⟩ := parameters_eq_ok.1 hfound
    obtain ⟨ps, hps, hi⟩ := bind_eq_ok.1 hrest
    cases hi
    rw [name_groupParameters] at hps
    obtain ⟨hports, hwidths, rfl⟩ := (ports_eq_ok h).1 hps
    exact ⟨⟨hparameters, hports, hwidths⟩, rfl⟩
  · rintro ⟨hm, rfl⟩
    refine ⟨_, parameters_eq_ok.2 ⟨hm.parameters, rfl⟩, bind_eq_ok.2 ⟨_, ?_, rfl⟩⟩
    rw [name_groupParameters]
    exact (ports_eq_ok h).2 ⟨hm.ports, hm.widths, rfl⟩

theorem ofModule_header_eq_ok (h : ∀ names, m.ports ≠ .nonAnsi names) {i : ModuleInterface} :
    ofModule unit options m = .ok i ↔ WellFormed m ∧ i = statedInterface unit m := by
  rw [ofModule_eq_ok_iff, extract_eq_ok h]

/-! ### Units -/

/-- Where headers declare all ports, the interfaces are those of the well-formed modules. -/
theorem ofModules_header_eq_ok {ms : List (Module Site)} (h : ∀ m ∈ ms, ∀ names, m.ports ≠ .nonAnsi names)
    {is : List ModuleInterface} :
    ofModules unit options ms = .ok is ↔ (∀ m ∈ ms, WellFormed m) ∧ is = ms.map (statedInterface unit) := by
  induction ms generalizing is with
  | nil =>
    constructor
    · rintro ⟨⟩
      exact ⟨List.forall_mem_nil _, rfl⟩
    · rintro ⟨-, rfl⟩
      rfl
  | cons m ms ih =>
    obtain ⟨hm, hms⟩ := List.forall_mem_cons.1 h
    rw [ofModules, bind_eq_ok, List.forall_mem_cons, List.map_cons]
    constructor
    · rintro ⟨i, hi, hrest⟩
      obtain ⟨is, his, hrest⟩ := bind_eq_ok.1 hrest
      cases hrest
      obtain ⟨hfirst, rfl⟩ := (ofModule_header_eq_ok hm).1 hi
      obtain ⟨hall, rfl⟩ := (ih hms).1 his
      exact ⟨⟨hfirst, hall⟩, rfl⟩
    · rintro ⟨⟨hfirst, hall⟩, rfl⟩
      exact ⟨_, (ofModule_header_eq_ok hm).2 ⟨hfirst, rfl⟩, bind_eq_ok.2 ⟨_, (ih hms).2 ⟨hall, rfl⟩, rfl⟩⟩

/-! ### Well-formed modules -/

/-- Where headers declare their ports, a module has an interface if and only if it is well formed, and the
interface is what its declarations say. A unit of such modules has interfaces if and only if all its modules are
well formed: one for each module, in the order of the text. -/
theorem declared_iff_wellFormed (unit : SourceUnit) (options : Options) :
    (∀ m : Module Site, (∀ names, m.ports ≠ .nonAnsi names) →
      ((∃ i, ofModule unit options m = .ok i) ↔ WellFormed m) ∧
      ∀ i, ofModule unit options m = .ok i → SaysInterface unit m i) ∧
    ((∀ m ∈ unit.modules, ∀ names, m.ports ≠ .nonAnsi names) →
      ((∃ is, ofUnit unit options = .ok is) ↔ ∀ m ∈ unit.modules, WellFormed m) ∧
      ∀ is, ofUnit unit options = .ok is → List.Forall₂ (SaysInterface unit) unit.modules is) := by
  refine ⟨fun m h => ⟨⟨?_, fun hm => ⟨_, (ofModule_header_eq_ok h).2 ⟨hm, rfl⟩⟩⟩, fun i hi => ?_⟩,
    fun h => ⟨⟨?_, fun hall => ⟨_, (ofModules_header_eq_ok h).2 ⟨hall, rfl⟩⟩⟩, fun is his => ?_⟩⟩
  · rintro ⟨i, hi⟩
    exact ((ofModule_header_eq_ok h).1 hi).1
  · obtain ⟨-, rfl⟩ := (ofModule_header_eq_ok h).1 hi
    exact statedInterface_says unit m
  · rintro ⟨is, his⟩
    exact ((ofModules_header_eq_ok h).1 his).1
  · obtain ⟨-, rfl⟩ := (ofModules_header_eq_ok h).1 his
    rw [List.forall₂_map_right_iff]
    exact List.forall₂_same.2 fun m _ => statedInterface_says unit m

/-- In `m #(W)(input [W-1:0] a, b)` the width of the ports hangs on a parameter, and the module has an interface;
without the parameter it has none. -/
theorem declared_iff_wellFormed_parameter :
    let tag : Site := ⟨⟨1, 1⟩, ⟨0, 0⟩⟩
    let upper : Expr Site := .binary tag .sub (.identifier tag "W") (.literal tag .integer "1")
    let type : DataType Site := ⟨tag, none, none, [⟨tag, upper, .literal tag .integer "0"⟩]⟩
    let group : PortGroup Site := ⟨tag, .input, none, some type, [⟨tag, "a", [], none⟩, ⟨tag, "b", [], none⟩]⟩
    let m : Module Site := ⟨tag, "m", [⟨tag, false, none, [⟨tag, "W", [], none⟩]⟩], .ansi [group], []⟩
    let unit : SourceUnit := ⟨⟨ReadOptions.source {} "", []⟩, [.design m]⟩
    (∃ i, ofModule unit {} m = .ok i ∧ SaysInterface unit m i) ∧
      (¬∃ i, ofModule unit {} { m with params := [] } = .ok i) ∧
      ∃ is, ofUnit unit {} = .ok is ∧ List.Forall₂ (SaysInterface unit) [m] is := by
  intro tag upper type group m unit
  obtain ⟨hmodules, hunit⟩ := declared_iff_wellFormed unit {}
  have hm : WellFormed m := by
    refine ⟨by decide, by decide, List.forall_mem_singleton.2 fun b hb => ?_⟩
    cases hb
    exact ⟨rfl, by decide, nofun⟩
  have hbad : ¬WellFormed { m with params := [] } := by
    intro h
    have hsized := h.widths group (List.mem_singleton_self _) _ rfl
    exact absurd (hsized.known "W" (by decide)) List.not_mem_nil
  obtain ⟨⟨-, hread⟩, hsays⟩ := hmodules m nofun
  obtain ⟨i, hi⟩ := hread hm
  obtain ⟨⟨-, hreadAll⟩, hsaysAll⟩ := hunit (List.forall_mem_singleton.2 nofun)
  obtain ⟨is, his⟩ := hreadAll (List.forall_mem_singleton.2 hm)
  refine ⟨⟨i, hi, hsays i hi⟩, fun hfound => ?_, is, his, hsaysAll is his⟩
  exact hbad ((hmodules { m with params := [] } nofun).1.1 hfound)

end Interface

end SystemVerilog
