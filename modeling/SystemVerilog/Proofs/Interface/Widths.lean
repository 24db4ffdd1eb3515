import SystemVerilog.Proofs.Interface.Reconciliation
import SystemVerilog.Proofs.Roots.Bounds

/-!
# What the width of a port says

Every port of an interface is one that a declarator of the header or of the body gives, with the shape that its group
states. Where its width is one more than a bound, the text of the bound with `+ 1` behind it is read with the addition
at the right edge of the bound: as the bound with one added if its root binds at least as tightly as an addition, and
otherwise as another expression.
-/

namespace SystemVerilog

namespace Interface

variable {unit : SourceUnit} {options : Options} {m : Module Site} {i : ModuleInterface} {p : Port}

/-! ### Where ports come from -/

/-- Port declarations can be understood if their ports can be settled. -/
theorem Details.of_settleGroups {known : List String} {groups : List (PortGroup Site)} {pending settled : List Pending}
    (h : settleGroups unit known pending groups = .ok settled) : ∃ details, Details unit known groups details := by
  induction groups generalizing pending with
  | nil => exact ⟨[], .nil⟩
  | cons group groups ih =>
    obtain ⟨shape, hshape, h⟩ := bind_eq_ok.1 h
    obtain ⟨next, -, h⟩ := bind_eq_ok.1 h
    obtain ⟨details, hdetails⟩ := ih h
    exact ⟨_, .cons hshape hdetails⟩

/-- Where the header only names the ports, they are understood, and each is joined with one of them. -/
theorem joins_of_ofModule {header : List (PortName Site)} (hports : m.ports = .nonAnsi header)
    (h : ofModule unit options m = .ok i) : ∃ details,
      Details unit (parameterNames m) (bodyPortGroups m) details ∧ List.Forall₂ (Joins details) header i.ports := by
  obtain ⟨found, hfound, hrest⟩ := bind_eq_ok.1 (ofModule_eq_ok_iff.1 h)
  obtain ⟨hparams, rfl⟩ := parameters_eq_ok.1 hfound
  obtain ⟨ps, hps, hi⟩ := bind_eq_ok.1 hrest
  rw [name_groupParameters, ports, hports] at hps
  dsimp only at hps
  split at hps
  · rename_i hallow
    obtain ⟨settled, hsettled, -⟩ := bind_eq_ok.1 hps
    obtain ⟨details, hdetails⟩ := Details.of_settleGroups hsettled
    obtain ⟨-, hjoins, -⟩ := (ofModule_eq_ok hports hallow hparams hdetails).1 h
    exact ⟨details, hdetails, hjoins⟩
  · cases hps

/-- The port is what a declarator of the group gives, and the first bounds of the group have a width. -/
structure GivenBy (unit : SourceUnit) (known : List String) (group : PortGroup Site) (p : Port) : Prop where
  name : ∃ d ∈ group.declarators, p.name = d.name
  shape : p.toPortShape = statedShape unit group
  sized : ∀ b ∈ firstBounds? group, Sized known b

/-- Every port of an interface is given by a group of the header or of the body. -/
theorem exists_group_of_port (h : ofModule unit options m = .ok i) (hp : p ∈ i.ports) :
    ∃ group ∈ headerGroups m ++ bodyPortGroups m, GivenBy unit (parameterNames m) group p := by
  by_cases hports : ∃ header, m.ports = .nonAnsi header
  · obtain ⟨header, hports⟩ := hports
    obtain ⟨details, hdetails, hjoins⟩ := joins_of_ofModule hports h
    obtain ⟨n, -, d, hd, hname, rfl⟩ := exists_of_mem_left hjoins.flip hp
    obtain ⟨group, hgroup, hshape, hmem⟩ := hdetails.mem_iff.1 hd
    obtain ⟨hsized, hstated⟩ := groupShape_eq_ok.1 hshape
    exact ⟨group, List.mem_append_right _ hgroup, ⟨d.2, hmem, hname.symm⟩, hstated, hsized⟩
  · obtain ⟨hm, rfl⟩ := (ofModule_header_eq_ok (not_exists.1 hports)).1 h
    obtain ⟨group, hgroup, hp⟩ := List.mem_flatMap.1 hp
    obtain ⟨d, hd, rfl⟩ := List.mem_map.1 hp
    exact ⟨group, List.mem_append_left _ hgroup, ⟨d, hd, rfl⟩, rfl, hm.widths group hgroup⟩

/-! ### Widths that are no numbers -/

/-- What is added to a bound. -/
def one : Expr Unit := .literal () .integer "1"

theorem canonical_one : one.Canonical .compares := trivial

theorem lexical_one : one.Lexical :=
  List.forall_mem_singleton.2 ⟨⟨'1', [], rfl, rfl, rfl⟩, fun _ => rfl⟩

theorem text_oneMoreThan (bound : String) :
    (Width.oneMoreThan bound).text = bound ++ String.ofList (spread (.fixed BinaryOp.add.kind :: one.marks)) := by
  rfl

/-- Bounds state a width that is no number where the upper one is no literal. -/
theorem statedWidth_eq_oneMoreThan {known : List String} {b : Bounds Site} {bound : String} (hb : Sized known b)
    (h : statedWidth unit b = .oneMoreThan bound) :
    b.left.isLiteral = false ∧ bound = unit.nodeText b.left.tag := by
  unfold statedWidth at h
  split at h
  · cases h
  · rename_i hvalue
    refine ⟨Bool.eq_false_iff.2 fun hliteral => ?_, (Width.oneMoreThan.inj h).symm⟩
    obtain ⟨v, hv, -⟩ := hb.below hliteral
    rw [hvalue] at hv
    cases hv

/-- Where the width of a port is one more than a bound, the bound is the text of the upper one of the first bounds in
its group. If no delay is written in it, the text of the width is read with one added at the right edge of the
bound, and so as the bound with one added if and only if its root binds at least as tightly as the addition. -/
theorem width_extended {text bound : String} {reading : ReadOptions} (h : (readText text reading).result = .ok unit)
    (hm : m ∈ unit.modules) (hi : ofModule unit options m = .ok i) (hp : p ∈ i.ports)
    (hwidth : p.width = some (.oneMoreThan bound)) (reading' : ReadOptions) :
    ∃ group ∈ headerGroups m ++ bodyPortGroups m, GivenBy unit (parameterNames m) group p ∧
      ∃ b ∈ firstBounds? group, b.left.isLiteral = false ∧ bound = unit.nodeText b.left.tag ∧
        ((∀ t ∈ (unit.code.take b.left.tag.range.stop).drop b.left.tag.range.start, t.kind ≠ .op .sharp) →
          ∃ arena e, Arena.ofSource (reading'.source (Width.oneMoreThan bound).text) = .ok arena ∧
            arena.expression = .ok e ∧ e.erase = b.left.erase.extended .add one ∧
            (e.erase = .binary () .add b.left.erase one ↔ BinaryOp.add.power ≤ b.left.level)) := by
  obtain ⟨group, hgroup, hgiven⟩ := exists_group_of_port hi hp
  rw [hgiven.shape] at hwidth
  obtain ⟨b, hb, hstated⟩ := Option.map_eq_some_iff.1 hwidth
  obtain ⟨hliteral, rfl⟩ := statedWidth_eq_oneMoreThan (hgiven.sized b hb) hstated
  refine ⟨group, hgroup, hgiven, b, hb, hliteral, rfl, fun hundelayed => ?_⟩
  obtain ⟨type, htype, hfirst⟩ := Option.bind_eq_some_iff.1 hb
  obtain ⟨hrereads, -⟩ := readText_portBounds h hm hgroup type htype b (List.mem_of_head? hfirst)
  obtain ⟨harena, -⟩ := readText_rooted h
  have hlt : BinaryOp.add.power < one.level := by decide
  obtain ⟨arena, e, hpart, hread, herase⟩ :=
    hrereads.extended harena hundelayed canonical_one lexical_one hlt reading'
  refine ⟨arena, e, ?_, hread, herase, ?_⟩
  · rw [text_oneMoreThan]
    exact hpart
  · rw [herase, Expr.extended_eq_binary_iff, Expr.erase, Expr.level_map]

/-- With one added behind it, a shift shifts by one more. -/
example : Expr.extended (.binary () .logicLeftShift (.identifier () "W") one) .add one =
    .binary () .logicLeftShift (.identifier () "W") (.binary () .add one one) := by
  rfl

end Interface

end SystemVerilog
