import SystemVerilog.Grammar.Declaration
import SystemVerilog.Proofs.Correspondence.Expressions
import SystemVerilog.Proofs.Reading.Choices

/-!
# Declarations of corresponding tokens

Every reader of declarations reads the same declaration from corresponding tokens, up to the sites. The
entries of a header correspond one by one, and so do the groups that they make.
-/

namespace SystemVerilog

open SystemVerilog.Parser

namespace Correspondence

variable {τ : Type} {k : Correspondence τ}

namespace Agrees

/-! ### Dimensions and data types -/

theorem dimensionInterior :
    k.Agrees Parser.dimensionInterior Parser.dimensionInterior (k.Makes (k.Same Dimension.map)) :=
  bind (spanBefore? (lexemewise_distanceAtTop? _ _ _)) fun part part' hpart => by
    cases hpart with
    | none =>
      exact bind (filling _ expression) fun _ _ hindex =>
        pure fun _ _ hs => by simp [Same, Dimension.map, hs, hindex.eq]
    | some hpart =>
      exact bind (within hpart.toAlike (filling _ expression)) fun _ _ hleft => bind (filling _ expression)
        fun _ _ hright => pure fun _ _ hs => by simp [Same, Dimension.map, Bounds.map, hs, hleft.eq, hright.eq]

theorem dimension : k.Agrees Parser.dimension Parser.dimension (k.Same Dimension.map) :=
  tagged (enclosed dimensionInterior)

theorem packedBounds : k.Agrees Parser.packedBounds Parser.packedBounds (k.Same Bounds.map) :=
  bind location fun _ _ hplace => bind dimension fun a b hab => by
    cases a with
    | size tag index =>
      cases b with
      | size tag index => exact fail hplace
      | bounds b₂ => cases hab.eq
    | bounds b₁ =>
      cases b with
      | size tag index => cases hab.eq
      | bounds b₂ => exact pure (Dimension.bounds.inj hab.eq)

theorem typeParts : k.Agrees Parser.typeParts Parser.typeParts
    (k.Makes (Option.Rel (k.Same DataType.map))) := by
  refine step (tryBy _) fun keyword => bind (R := Eq) ?_ fun signing _ hsigning =>
    bind (R := List.Forall₂ (k.Same Bounds.map)) ?_ fun _ _ hpacked => pure fun _ _ hs => .some ?_
  · unfold signingOf
    split
    · exact tryBy _
    · exact pure rfl
  · unfold packedOf
    split
    · exact bracketed packedBounds
    · exact pure .nil
  · subst hsigning
    simp [Same, DataType.map, hs, map_eq hpacked]

theorem dataType :
    k.Agrees Parser.dataType Parser.dataType (Option.Rel (k.Same DataType.map)) := by
  rw [dataType_eq]
  refine step currentKind? fun kind => ?_
  cases kind with
  | none => exact pure .none
  | some kind =>
    dsimp only
    split
    · exact tagged typeParts
    · exact pure .none

theorem netType : k.Agrees Parser.netType Parser.netType Eq := tryBy _

/-! ### Declarators -/

theorem declarator : k.Agrees Parser.declarator Parser.declarator (k.Same Declarator.map) :=
  tagged <| step name fun _ => bind (bracketed dimension) fun _ _ hdims => step (eat _) fun assigned => by
    cases assigned with
    | true =>
      exact bind expression fun _ _ hvalue => pure fun _ _ hs => by
        simp [Same, Declarator.map, hs, map_eq hdims, hvalue.eq]
    | false => exact pure fun _ _ hs => by simp [Same, Declarator.map, hs, map_eq hdims]

theorem declarators :
    k.Agrees Parser.declarators Parser.declarators (List.Forall₂ (k.Same Declarator.map)) :=
  listBy comma declarator

end Agrees

/-! ### Groups of header entries -/

/-- Entries of parameter lists that correspond. -/
structure SameParameter (k : Correspondence τ) (e e' : ParameterEntry) : Prop where
  tag : k.left e.tag = k.right e'.tag
  isLocal : e.isLocal = e'.isLocal
  type : Option.Rel (k.Same DataType.map) e.type e'.type
  declarator : k.Same Declarator.map e.declarator e'.declarator

/-- Entries of port lists that correspond. -/
structure SamePort (k : Correspondence τ) (e e' : PortEntry) : Prop where
  tag : k.left e.tag = k.right e'.tag
  direction : e.direction = e'.direction
  net : e.net = e'.net
  type : Option.Rel (k.Same DataType.map) e.type e'.type
  declarator : k.Same Declarator.map e.declarator e'.declarator

theorem isSome_eq {α β : Type} {R : α → β → Prop} {a : Option α} {b : Option β} (h : Option.Rel R a b) :
    a.isSome = b.isSome := by
  cases h <;> rfl

namespace SameParameter

variable {e e' : ParameterEntry} {g g' : ParameterGroup Site}

theorem opens (h : k.SameParameter e e') : e.opens = e'.opens := by
  rw [ParameterEntry.opens, ParameterEntry.opens, h.isLocal, isSome_eq h.type]

theorem group (h : k.SameParameter e e') (inherited : Bool) :
    k.Same ParameterGroup.map (e.group inherited) (e'.group inherited) := by
  simp [Same, ParameterGroup.map, ParameterEntry.group, h.tag, h.isLocal, option_map_eq h.type, h.declarator.eq]

theorem join (h : k.SameParameter e e') (hg : k.Same ParameterGroup.map g g') :
    k.Same ParameterGroup.map (e.join g) (e'.join g') := by
  obtain ⟨htag, hlocal, htype, hdeclarators⟩ := ParameterGroup.mk.inj hg.eq
  simp [Same, ParameterGroup.map, ParameterEntry.join, k.through htag h.tag, hlocal, htype, hdeclarators,
    h.declarator.eq]

end SameParameter

namespace SamePort

variable {e e' : PortEntry} {g g' : PortGroup Site}

theorem opens (h : k.SamePort e e') : e.opens = e'.opens := by
  rw [PortEntry.opens, PortEntry.opens, h.direction, h.net, isSome_eq h.type]

theorem group (h : k.SamePort e e') (inherited : Direction) :
    k.Same PortGroup.map (e.group inherited) (e'.group inherited) := by
  simp [Same, PortGroup.map, PortEntry.group, h.tag, h.direction, h.net, option_map_eq h.type, h.declarator.eq]

theorem join (h : k.SamePort e e') (hg : k.Same PortGroup.map g g') :
    k.Same PortGroup.map (e.join g) (e'.join g') := by
  obtain ⟨htag, hdirection, hnet, htype, hdeclarators⟩ := PortGroup.mk.inj hg.eq
  simp [Same, PortGroup.map, PortEntry.join, k.through htag h.tag, hdirection, hnet, htype, hdeclarators,
    h.declarator.eq]

end SamePort

theorem gather_parameters {g g' : ParameterGroup Site} {es es' : List ParameterEntry}
    (hg : k.Same ParameterGroup.map g g') (h : List.Forall₂ k.SameParameter es es') :
    List.Forall₂ (k.Same ParameterGroup.map) (ParameterEntry.gather g es) (ParameterEntry.gather g' es') := by
  induction h generalizing g g' with
  | nil => exact .cons hg .nil
  | @cons e e' es es' he _ ih =>
    have hlocal : g.isLocal = g'.isLocal := (ParameterGroup.mk.inj hg.eq).2.1
    rw [ParameterEntry.gather, ParameterEntry.gather, he.opens, hlocal]
    split
    · exact .cons hg (ih (he.group _))
    · exact ih (he.join hg)

theorem gather_ports {g g' : PortGroup Site} {es es' : List PortEntry}
    (hg : k.Same PortGroup.map g g') (h : List.Forall₂ k.SamePort es es') :
    List.Forall₂ (k.Same PortGroup.map) (PortEntry.gather g es) (PortEntry.gather g' es') := by
  induction h generalizing g g' with
  | nil => exact .cons hg .nil
  | @cons e e' es es' he _ ih =>
    have hdirection : g.direction = g'.direction := (PortGroup.mk.inj hg.eq).2.1
    rw [PortEntry.gather, PortEntry.gather, he.opens, hdirection]
    split
    · exact .cons hg (ih (he.group _))
    · exact ih (he.join hg)

namespace Agrees

/-! ### Module headers -/

theorem parameterKeyword : k.Agrees Parser.parameterKeyword Parser.parameterKeyword Eq :=
  step (eat _) fun found => by
    cases found with
    | true => exact pure rfl
    | false =>
      refine step (eat _) fun found => ?_
      cases found with
      | true => exact pure rfl
      | false => exact pure rfl

theorem parameterEntry : k.Agrees Parser.parameterEntry Parser.parameterEntry k.SameParameter :=
  tagged <| step parameterKeyword fun _ => bind dataType fun _ _ htype => bind declarator
    fun _ _ hdeclarator => pure fun _ _ hs => ⟨hs, rfl, htype, hdeclarator⟩

theorem headerParameters : k.Agrees Parser.headerParameters Parser.headerParameters
    (List.Forall₂ (k.Same ParameterGroup.map)) :=
  bind (entries parameterEntry) fun es es' h => pure <| by
    cases h with
    | nil => exact .nil
    | cons he hes => exact gather_parameters (he.group false) hes

theorem portEntry : k.Agrees Parser.portEntry Parser.portEntry k.SamePort :=
  tagged <| step (tryBy _) fun _ => step netType fun _ => bind dataType fun _ _ htype => bind declarator
    fun _ _ hdeclarator => pure fun _ _ hs => ⟨hs, rfl, rfl, htype, hdeclarator⟩

theorem headerPorts : k.Agrees Parser.headerPorts Parser.headerPorts
    (List.Forall₂ (k.Same PortGroup.map)) :=
  bind (entries portEntry) fun es es' h => by
    cases h with
    | nil => exact pure .nil
    | @cons e e' es es' he hes =>
      dsimp only
      rw [← he.direction]
      cases e.direction with
      | none => exact fail (k.located he.tag)
      | some direction => exact pure (gather_ports (he.group direction) hes)

theorem portNames : k.Agrees Parser.portNames Parser.portNames (List.Forall₂ (k.Same PortName.map)) :=
  listBy comma <| tagged <| step name fun _ => pure fun _ _ hs => by simp [Same, PortName.map, hs]

theorem portList : k.Agrees Parser.portList Parser.portList (k.Same PortList.map) :=
  step currentKind? fun kind => by
    cases kind with
    | none => exact pure rfl
    | some kind =>
      dsimp only
      split
      · exact bind headerPorts fun _ _ hgroups => pure (by simp [Same, PortList.map, map_eq hgroups])
      · exact bind portNames fun _ _ hnames => pure (by simp [Same, PortList.map, map_eq hnames])

/-! ### Module bodies -/

theorem parameterDeclaration : k.Agrees Parser.parameterDeclaration Parser.parameterDeclaration
    (k.Same ParameterGroup.map) :=
  tagged <| beforeSemicolon <| bind consume fun keyword keyword' hkeyword => bind dataType fun _ _ htype =>
    bind declarators fun _ _ hdeclared => pure fun _ _ hs => by
      simp [Same, ParameterGroup.map, hs, kind_eq hkeyword, option_map_eq htype, map_eq hdeclared]

theorem portDeclaration : k.Agrees Parser.portDeclaration Parser.portDeclaration (k.Same PortGroup.map) :=
  tagged <| beforeSemicolon <| step (demandBy _ _) fun _ => step netType fun _ => bind dataType
    fun _ _ htype => bind declarators fun _ _ hdeclared => pure fun _ _ hs => by
      simp [Same, PortGroup.map, hs, option_map_eq htype, map_eq hdeclared]

theorem signalDeclaration : k.Agrees Parser.signalDeclaration Parser.signalDeclaration
    (k.Same SignalGroup.map) :=
  tagged <| beforeSemicolon <| step netType fun _ => bind dataType fun _ _ htype => bind declarators
    fun _ _ hdeclared => pure fun _ _ hs => by
      simp [Same, SignalGroup.map, hs, option_map_eq htype, map_eq hdeclared]

theorem genvarDeclaration : k.Agrees Parser.genvarDeclaration Parser.genvarDeclaration
    (k.Same Genvars.map) :=
  tagged <| beforeSemicolon <| bind (expect _) fun _ _ _ => bind (listBy comma name) fun names names' hnames =>
    pure fun _ _ hs => by
      obtain rfl : names = names' := List.forall₂_eq_eq_eq ▸ hnames
      simp [Same, Genvars.map, hs]

theorem connectedValue : k.Agrees Parser.connectedValue Parser.connectedValue
    (Option.Rel (k.Same Expr.map)) :=
  step atEnd fun ended => by
    cases ended with
    | true => exact pure .none
    | false => exact bind (filling _ expression) fun _ _ hvalue => pure (.some hvalue)

theorem connection : k.Agrees Parser.connection Parser.connection (k.Same Connection.map) :=
  tagged <| step (eat _) fun named => by
    cases named with
    | true =>
      exact step name fun _ => bind (enclosed connectedValue) fun _ _ hvalue => pure fun _ _ hs => by
        simp [Same, Connection.map, hs, option_map_eq hvalue]
    | false =>
      exact bind expression fun _ _ hvalue => pure fun _ _ hs => by simp [Same, Connection.map, hs, hvalue.eq]

theorem connections : k.Agrees Parser.connections Parser.connections
    (List.Forall₂ (k.Same Connection.map)) :=
  enclosed (entries connection)

theorem instantiation : k.Agrees Parser.instantiation Parser.instantiation
    (k.Same Instantiation.map) := by
  rw [instantiation_eq]
  refine tagged <| beforeSemicolon <| step name fun _ => bind (R := List.Forall₂ (k.Same Connection.map)) ?_
    fun _ _ hparams => step name fun _ => bind connections fun _ _ hports => step (expectEnd _) fun _ =>
      pure fun _ _ hs => by simp [Same, Instantiation.map, hs, map_eq hparams, map_eq hports]
  exact step (eat _) fun given => by
    cases given with
    | true => exact connections
    | false => exact pure .nil

end Agrees

end Correspondence

end SystemVerilog
