import SystemVerilog.Proofs.Interface.Declared
import SystemVerilog.Proofs.Ranges.Tiling
import SystemVerilog.Proofs.Rereading.Nodes
import SystemVerilog.Proofs.Roots.Kinds

/-!
# The bounds of ports are read as expressions

The bounds of a dimension fill the spans on both sides of its colon, and in them `<=` compares. So the bounds in the
data type of a port are read again from their own tokens, whatever stands at their roots.
-/

namespace SystemVerilog

open SystemVerilog.Parser

/-- Both bounds are read again from their own tokens. -/
def Bounds.Reread (ts : List Token) (b : Bounds Site) : Prop := b.left.Rereads ts ∧ b.right.Rereads ts

/-- The bounds of a dimension, if it has two, are read again from their own tokens. -/
def Dimension.BoundsReread (ts : List Token) : Dimension Site → Prop
  | .bounds b => b.Reread ts
  | .size _ _ => True

/-- The bounds of a data type are read again from their own tokens. -/
def DataType.BoundsReread (ts : List Token) (type : DataType Site) : Prop := ∀ b ∈ type.packed, b.Reread ts

/-- So are the bounds in the type of a group of ports, if it has one. -/
def PortGroup.BoundsReread (ts : List Token) (group : PortGroup Site) : Prop :=
  ∀ type ∈ group.type, type.BoundsReread ts

/-- So are those of all ports that a list declares. -/
def PortList.BoundsReread (ts : List Token) : PortList Site → Prop
  | .ansi groups => ∀ g ∈ groups, g.BoundsReread ts
  | .empty | .nonAnsi _ => True

/-- So are those of an item, if it declares ports. -/
def BodyItem.BoundsReread (ts : List Token) : BodyItem Site → Prop
  | .ports group => group.BoundsReread ts
  | _ => True

/-- Every group has the type of an entry. -/
theorem PortEntry.type_gather {P : Option (DataType Site) → Prop} {g : PortGroup Site} {es : List PortEntry}
    (hg : P g.type) (hes : ∀ e ∈ es, P e.type) : ∀ group ∈ PortEntry.gather g es, P group.type := by
  induction es generalizing g with
  | nil => exact List.forall_mem_singleton.2 hg
  | cons e es ih =>
    obtain ⟨he, hes⟩ := List.forall_mem_cons.1 hes
    rw [PortEntry.gather]
    split
    · exact List.forall_mem_cons.2 ⟨hg, ih he hes⟩
    · exact ih hg hes

variable {ts : List Token} {c : Cursor}

/-- An expression that fills a span is read again from it. -/
theorem Expr.rereads_of_filling {message : String} {c' : Cursor} {e : Expr Site} (hc : c.Sees ts)
    (h : filling message expression c = .ok (e, c')) : e.Rereads ts := by
  obtain ⟨hread, hend⟩ := filling_eq_ok.1 h
  have hspan := Forms.expression hc hread
  obtain ⟨n, hn⟩ := hspan.moved
  have hfinish : c'.position = c.finish := by rw [Cursor.position_of_after_eq_nil hend, hn, Cursor.finish_skip]
  refine ⟨c, c', hc, ?_, hread, hend⟩
  rw [← Expr.site_outline, hspan.range, hfinish]

namespace Opens

/-! ### Data types -/

theorem boundFilling (message : String) :
    Opens ts c (Parser.filling message Parser.expression) (Expr.Rereads ts) := by
  intro hc e c' hread
  have hfilling : Opens ts c (Parser.filling message Parser.expression) _ := filling expression
  exact ⟨(hfilling hc hread).1, Expr.rereads_of_filling hc.sees hread⟩

theorem dimensionBounds : Opens ts c Parser.dimension fun d => d.BoundsReread ts := by
  refine .tagged <| enclosed rfl rfl fun _ => bind (spanBefore? fun _ _ h => ?_) fun found _ hfound => ?_
  · exact plain_of_found (distanceAtTop?_found h) rfl
  · split
    · exact bind (within (hfound _ rfl) (boundFilling _)) fun _ _ hleft => bind (boundFilling _) fun _ _ hright =>
        .pure fun _ => ⟨hleft, hright⟩
    · exact silent (boundFilling _).settles fun _ _ => .pure fun _ => trivial

theorem dataTypeBounds : Opens ts c Parser.dataType fun type => ∀ t ∈ type, t.BoundsReread ts := by
  rw [dataType_eq]
  refine look rfl ?_
  split
  · exact .pure nofun
  · split
    · refine .tagged <| silent (tryBy fun _ _ => TokenKind.isQualifier_of_keywordIn) fun keyword _ =>
        silent (signingOf keyword) fun _ _ => bind (P := Every fun b => b.Reread ts) ?_
          fun packed _ hpacked => .pure fun _ _ heq => Option.some.inj heq ▸ hpacked
      unfold Parser.packedOf
      split
      · refine bracketed fun _ => look rfl <| bind dimensionBounds fun d _ hd => ?_
        cases d with
        | bounds b => exact .pure hd
        | size tag index => exact fail
      · exact .pure nofun
    · exact .pure nofun

/-! ### Port declarations -/

theorem portEntryBounds : Opens ts c Parser.portEntry fun e => ∀ type ∈ e.type, type.BoundsReread ts :=
  .tagged <| silent (tryBy fun _ _ => TokenKind.isQualifier_of_direction) fun _ _ => silent netType fun _ _ =>
    bind dataTypeBounds fun _ _ htype => silent declarator.settles fun _ _ => .pure fun _ => htype

theorem headerPortsBounds : Opens ts c Parser.headerPorts fun groups => ∀ g ∈ groups, g.BoundsReread ts :=
  bind (entries fun _ => portEntryBounds) fun es _ hes => by
    cases es with
    | nil => exact .pure (List.forall_mem_nil _)
    | cons e es =>
      obtain ⟨he, hrest⟩ := List.forall_mem_cons.1 hes
      dsimp only
      split
      · exact .pure (PortEntry.type_gather (P := fun type => ∀ t ∈ type, t.BoundsReread ts) (g := e.group _) he hrest)
      · exact fail

theorem portListBounds : Opens ts c Parser.portList fun ports => ports.BoundsReread ts :=
  look rfl <| by
    split
    · exact .pure trivial
    · split
      · exact bind headerPortsBounds fun _ _ hgroups => .pure hgroups
      · exact silent portNames fun _ _ => .pure trivial

theorem portDeclarationBounds : Opens ts c Parser.portDeclaration fun g => g.BoundsReread ts :=
  .tagged <| beforeSemicolon fun _ => silent (demandBy fun _ _ => TokenKind.isQualifier_of_direction) fun _ _ =>
    silent netType fun _ _ => bind dataTypeBounds fun _ _ htype => silent declarators.settles
      fun _ _ => .pure fun _ => htype

/-! ### Module items -/

theorem bodyItemBounds : Opens ts c SystemVerilog.bodyItem fun i => Every (BodyItem.BoundsReread ts) i.walk :=
  bodyItem_of_kinds (fun _ => portDeclarationBounds) (fun _ _ => instantiation.settles) fun i hi => by
    cases i with
    | ports group => exact hi.elim
    | _ => exact trivial

end Opens

/-! ### Modules -/

/-- The groups of a module have the bounds of its header and its body. -/
theorem Interface.boundsReread_of_groups {m : Module Site} (hports : m.ports.BoundsReread ts)
    (hbody : ∀ i ∈ m.body, i.BoundsReread ts) {group : PortGroup Site}
    (hgroup : group ∈ headerGroups m ++ bodyPortGroups m) : group.BoundsReread ts := by
  rcases List.mem_append.1 hgroup with hgroup | hgroup
  · unfold headerGroups at hgroup
    split at hgroup
    · rename_i groups heq
      rw [heq] at hports
      exact hports group hgroup
    · cases hgroup
    · cases hgroup
  · obtain ⟨i, hi, hgiven⟩ := List.mem_filterMap.1 hgroup
    cases i with
    | ports other =>
      obtain rfl : other = group := Option.some.inj hgiven
      exact hbody _ hi
    | _ => cases hgiven

/-- The bounds of all ports in the tree of a text are read again from their own tokens. -/
theorem readText_portBounds {text : String} {options : ReadOptions} {unit : SourceUnit} {m : Module Site}
    {group : PortGroup Site} (h : (readText text options).result = .ok unit) (hm : m ∈ unit.modules)
    (hgroup : group ∈ Interface.headerGroups m ++ Interface.bodyPortGroups m) : group.BoundsReread unit.code := by
  obtain ⟨hports, hbody⟩ := readText_modules (P := PortList.BoundsReread unit.code) h
    (fun _ => Opens.portListBounds) trivial (fun _ => Opens.bodyItemBounds) m hm
  exact Interface.boundsReread_of_groups hports (fun i hi => hbody i hi i (List.mem_cons_self ..)) hgroup

end SystemVerilog
