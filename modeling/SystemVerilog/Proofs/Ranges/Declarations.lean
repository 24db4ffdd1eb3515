import SystemVerilog.Grammar.Declaration
import SystemVerilog.Proofs.Ranges.Expressions
import SystemVerilog.Proofs.Reading.Choices

/-!
# Declarations cover what they are read from

Data types, declarators and the declarations of module headers and bodies are nodes over the tokens that
are read for them. The entries of a header are such nodes too; a group of entries covers them from the
first to the last.
-/

namespace SystemVerilog

open SystemVerilog.Parser

variable {ts : List Token} {c c' : Cursor}

/-! ### Dimensions and data types -/

theorem Gathers.dimensionInterior :
    Gathers ts c [] Parser.dimensionInterior (ChildrenOf Dimension.outline) :=
  .spanBefore? (.node (.filling _ .expression) fun _ _ => .pure (.of_eq fun _ => rfl))
    fun hc _ _ _ hread => Gathers.after_ahead (fun _ => (Forms.filling _ .expression).lays)
      (fun _ _ => .node (.filling _ .expression) fun _ _ => .pure (.of_eq fun _ => rfl)) hc hread

theorem Forms.dimension : Forms ts c Parser.dimension Dimension.outline :=
  .tagged <| .enclosed fun _ => .dimensionInterior

theorem Forms.packedBounds : Forms ts c Parser.packedBounds Bounds.outline :=
  .look rfl <| .forward .dimension fun d c₁ b c' h => by
    cases d with
    | bounds b' =>
      obtain ⟨rfl, rfl⟩ := pure_eq_ok.1 h
      exact ⟨rfl, rfl⟩
    | size tag index => exact absurd h fail_ne_ok

/-- What opens a data type is its keyword, its signing or the bracket of a packed dimension. -/
theorem TokenKind.opens_of_startsDataType {kind : TokenKind} (h : kind.startsDataType = true)
    (hk : keywordIn? Keyword.namesDataType kind = none) (hs : Signing.ofKind? kind = none) :
    kind = .op .lBracket := by
  cases kind with
  | word k =>
    have hopens : (k.namesDataType || word k == word .kwSigned || word k == word .kwUnsigned ||
      word k == op .lBracket) = true := h
    by_cases hnames : k.namesDataType = true
    · simp [keywordIn?, hnames] at hk
    · have hsign : k = .kwSigned ∨ k = .kwUnsigned := by simpa [hnames] using hopens
      rcases hsign with rfl | rfl <;> cases hs
  | op o =>
    have hopens : (op o == op .lBracket) = true := h
    simpa using hopens
  | _ => cases h

theorem Lays.signingOf (keyword : Option Keyword) : Lays ts c (Parser.signingOf keyword) fun _ => [] := by
  unfold Parser.signingOf
  split
  · exact .tryBy _
  · exact .pure rfl

theorem Lays.packedOf (keyword : Option Keyword) :
    Lays ts c (Parser.packedOf keyword) fun bs => bs.map Bounds.outline := by
  unfold Parser.packedOf
  split
  · exact .of_flatMap (.bracketed fun _ => Forms.packedBounds.lays)
  · exact .pure rfl

/-- The parts of a data type hold a token if the first token opens one: it is read as the keyword, or the
signing where there is no keyword, or a bracket where there is neither. -/
theorem Moves.typeParts {t : Token} {rest : List Token} (hafter : c.after = t :: rest)
    (ht : t.kind.startsDataType = true) : Moves ts c Parser.typeParts := by
  intro hc node c' hread
  obtain ⟨keyword, c₁, hkeyword, hrest⟩ := bind_eq_ok.1 hread
  obtain ⟨signing, c₂, hsigning, hrest'⟩ := bind_eq_ok.1 hrest
  obtain ⟨packed, c₃, hpacked, hpure⟩ := bind_eq_ok.1 hrest'
  obtain ⟨-, rfl⟩ := pure_eq_ok.1 hpure
  have hadvance₁ := (Lays.tryBy _).advance hc hkeyword
  have hadvance₂ := (Lays.signingOf keyword).advance (hadvance₁.sees hc) hsigning
  have hadvance₃ := (Lays.packedOf keyword).advance (hadvance₂.sees (hadvance₁.sees hc)) hpacked
  have hle := hadvance₂.position_le
  have hle' := hadvance₃.position_le
  have hskip : c.position < (c.skip 1).position := by
    rw [Cursor.position_skip, hafter, List.length_cons]
    omega
  have hunread {β : Type} {meaning : TokenKind → Option β} (h : meaning t.kind = none) :
      tryBy meaning c = .ok (none, c) := by
    refine tryBy_of_forall fun u us hu => ?_
    obtain ⟨rfl, -⟩ := List.cons.inj (hafter.symm.trans hu)
    exact h
  cases hk : TokenKind.keywordIn? Keyword.namesDataType t.kind with
  | some k =>
    obtain ⟨-, rfl⟩ := Prod.mk.inj (Except.ok.inj ((tryBy_of_after hafter hk).symm.trans hkeyword))
    omega
  | none =>
    obtain ⟨rfl, rfl⟩ := Prod.mk.inj (Except.ok.inj ((hunread hk).symm.trans hkeyword))
    have hsigning' : tryBy Signing.ofKind? c = .ok (signing, c₂) := hsigning
    cases hs : Signing.ofKind? t.kind with
    | some signing =>
      obtain ⟨-, rfl⟩ := Prod.mk.inj (Except.ok.inj ((tryBy_of_after hafter hs).symm.trans hsigning'))
      omega
    | none =>
      obtain ⟨rfl, rfl⟩ := Prod.mk.inj (Except.ok.inj ((hunread hs).symm.trans hsigning'))
      have hbracket : c.check (.op .lBracket) = true :=
        Cursor.check_of_after hafter (TokenKind.opens_of_startsDataType ht hk hs)
      have hpacked' : Parser.bracketed Parser.packedBounds c = .ok (packed, c') := hpacked
      exact Moves.bracketed hbracket Forms.packedBounds.moves (fun _ => Forms.packedBounds.lays) hc hpacked'

/-- The parts of a data type are the children of its node. -/
theorem Gathers.typeParts : Gathers ts c [] Parser.typeParts fun os f =>
    ∃ node : Site → DataType Site, (∀ site, f site = some (node site)) ∧ ChildrenOf DataType.outline os node :=
  .silent (.tryBy _) fun keyword _ => .silent (.signingOf keyword) fun signing _ =>
    .step (.packedOf keyword) fun packed _ =>
      .pure ⟨fun tag => ⟨tag, keyword, signing, packed⟩, fun _ => rfl, .of_eq fun _ => rfl⟩

theorem Lays.dataType : Lays ts c Parser.dataType (optionOutlines DataType.outline) := by
  intro hc o c' hread
  rw [dataType_eq] at hread
  have hread' := currentKind?_bind.symm.trans hread
  cases hafter : c.after with
  | nil =>
    rw [Cursor.currentKind?, Cursor.current?, hafter] at hread'
    obtain ⟨rfl, rfl⟩ := pure_eq_ok.1 hread'
    exact ⟨[], .refl c', rfl⟩
  | cons t rest =>
    rw [Cursor.currentKind?, Cursor.current?, hafter] at hread'
    by_cases ht : t.kind.startsDataType = true
    · have hparts : tagged Parser.typeParts c = .ok (o, c') := by simpa [ht] using hread'
      obtain ⟨f, hf, rfl⟩ := tagged_eq_ok.1 hparts
      obtain ⟨os, hos, node, hnode, children, hperm, hout⟩ := Gathers.typeParts hc hf
      have hlt := Moves.typeParts hafter ht hc hf
      rw [hnode]
      have hspans : Spans ts c c' (node ⟨c.location, c'.rangeFrom c.position⟩).outline := by
        rw [hout]
        exact ⟨hos.moved, rfl, hos.node hc hperm hlt⟩
      exact ⟨_, hspans.advance, rfl⟩
    · have hnone : (pure none : Parser (Option (DataType Site))) c = .ok (o, c') := by
        simpa [ht] using hread'
      obtain ⟨rfl, rfl⟩ := pure_eq_ok.1 hnone
      exact ⟨[], .refl c', rfl⟩

theorem Lays.netType : Lays ts c Parser.netType fun _ => [] := .tryBy _

/-! ### Declarators -/

theorem Forms.declarator : Forms ts c Parser.declarator Declarator.outline :=
  .tagged <| .token .name fun _ _ => .step (Lays.of_flatMap (.bracketed fun _ => Forms.dimension.lays))
    fun _ _ => .silent (.eat _) fun _ _ => by
      split
      · exact .node .expression fun _ _ => .pure (.of_eq fun _ => rfl)
      · exact .pure (.of_eq fun _ => by simp [Declarator.outline, optionOutlines])

theorem Lays.declarators : Lays ts c Parser.declarators fun ds => ds.map Declarator.outline :=
  .of_flatMap (.listBy (fun _ => (Takes.comma _).lays) fun _ => Forms.declarator.lays)

/-! ### Groups of header entries -/

def ParameterEntry.outline (e : ParameterEntry) : Outline := .node e.tag (groupOutlines e.type [e.declarator])

def PortEntry.outline (e : PortEntry) : Outline := .node e.tag (groupOutlines e.type [e.declarator])

/-- A declarator that joins a group comes behind those of the group. -/
theorem groupOutlines_append (type : Option (DataType Site)) (ds : List (Declarator Site))
    (d : Declarator Site) :
    groupOutlines type (ds ++ [d]) = groupOutlines type ds ++ groupOutlines none [d] := by
  simp [groupOutlines, optionOutlines]

theorem ParameterEntry.outline_join {e : ParameterEntry} (h : e.opens = false) (g : ParameterGroup Site) :
    (e.join g).outline = g.outline.join e.outline := by
  have htype : e.type = none := by
    simp only [opens, Bool.or_eq_false_iff, Option.isSome_eq_false_iff, Option.isNone_iff_eq_none] at h
    exact h.2
  rw [ParameterGroup.outline, join, groupOutlines_append, ParameterEntry.outline, htype]
  rfl

theorem PortEntry.outline_join {e : PortEntry} (h : e.opens = false) (g : PortGroup Site) :
    (e.join g).outline = g.outline.join e.outline := by
  have htype : e.type = none := by
    simp only [opens, Bool.or_eq_false_iff, Option.isSome_eq_false_iff, Option.isNone_iff_eq_none] at h
    exact h.2
  rw [PortGroup.outline, join, groupOutlines_append, PortEntry.outline, htype]
  rfl

/-- Where the entries make a row, their groups do. -/
theorem Row.gather_parameters {a b : Nat} {g : ParameterGroup Site} {es : List ParameterEntry}
    (h : Row ts a b (g.outline :: es.map ParameterEntry.outline)) :
    Row ts a b ((ParameterEntry.gather g es).map ParameterGroup.outline) := by
  induction es generalizing a g with
  | nil => exact h
  | cons e es ih =>
    rw [ParameterEntry.gather]
    split
    · obtain ⟨hexact, ha, hb, hrest⟩ := Row.cons_iff.1 h
      exact Row.cons_iff.2 ⟨hexact, ha, hb, ih (g := e.group g.isLocal) hrest⟩
    · rename_i hopens
      refine ih ?_
      rw [ParameterEntry.outline_join (by simpa using hopens)]
      exact h.join

theorem Row.gather_ports {a b : Nat} {g : PortGroup Site} {es : List PortEntry}
    (h : Row ts a b (g.outline :: es.map PortEntry.outline)) :
    Row ts a b ((PortEntry.gather g es).map PortGroup.outline) := by
  induction es generalizing a g with
  | nil => exact h
  | cons e es ih =>
    rw [PortEntry.gather]
    split
    · obtain ⟨hexact, ha, hb, hrest⟩ := Row.cons_iff.1 h
      exact Row.cons_iff.2 ⟨hexact, ha, hb, ih (g := e.group g.direction) hrest⟩
    · rename_i hopens
      refine ih ?_
      rw [PortEntry.outline_join (by simpa using hopens)]
      exact h.join

/-! ### Module headers -/

theorem Lays.parameterKeyword : Lays ts c Parser.parameterKeyword fun _ => [] :=
  .silent (.eat _) fun _ _ => by
    split
    · exact .pure rfl
    · refine .silent (.eat _) fun _ _ => ?_
      split <;> exact .pure rfl

theorem Forms.parameterEntry : Forms ts c Parser.parameterEntry ParameterEntry.outline :=
  .tagged <| .silent .parameterKeyword fun _ _ => .step .dataType fun _ _ =>
    .node .declarator fun _ _ => .pure (.of_eq fun _ => rfl)

theorem Lays.headerParameters :
    Lays ts c Parser.headerParameters fun gs => gs.map ParameterGroup.outline := by
  intro hc gs c' hread
  obtain ⟨es, c₁, hentries, hpure⟩ := bind_eq_ok.1 hread
  obtain ⟨rfl, rfl⟩ := pure_eq_ok.1 hpure
  have hes := (Lays.of_flatMap (.entries fun _ => Forms.parameterEntry.lays)).advance hc hentries
  refine ⟨_, ⟨hes.moved, ?_⟩, rfl⟩
  cases es with
  | nil => exact .nil
  | cons e es => exact Row.gather_parameters (g := e.group false) hes.row

theorem Forms.portEntry : Forms ts c Parser.portEntry PortEntry.outline :=
  .tagged <| .silent (.tryBy _) fun _ _ => .silent .netType fun _ _ => .step .dataType fun _ _ =>
    .node .declarator fun _ _ => .pure (.of_eq fun _ => rfl)

theorem Lays.headerPorts : Lays ts c Parser.headerPorts fun gs => gs.map PortGroup.outline := by
  intro hc gs c' hread
  obtain ⟨es, c₁, hentries, hrest⟩ := bind_eq_ok.1 hread
  have hes := (Lays.of_flatMap (.entries fun _ => Forms.portEntry.lays)).advance hc hentries
  cases es with
  | nil =>
    obtain ⟨rfl, rfl⟩ := pure_eq_ok.1 hrest
    exact ⟨[], ⟨hes.moved, .nil⟩, rfl⟩
  | cons e es =>
    cases hdirection : e.direction with
    | none =>
      simp only [hdirection] at hrest
      exact absurd hrest fail_ne_ok
    | some direction =>
      simp only [hdirection] at hrest
      obtain ⟨rfl, rfl⟩ := pure_eq_ok.1 hrest
      exact ⟨_, ⟨hes.moved, Row.gather_ports (g := e.group direction) hes.row⟩, rfl⟩

theorem Lays.portNames : Lays ts c Parser.portNames fun ns => ns.map PortName.outline :=
  .of_flatMap <| Lays.listBy (fun _ => (Takes.comma _).lays) fun _ => Forms.lays <|
    .tagged <| .token .name fun _ _ => .pure (.of_eq fun _ => rfl)

theorem Lays.portList : Lays ts c Parser.portList PortList.outlines :=
  .silent .currentKind? fun _ _ => by
    split
    · exact .pure rfl
    · split
      · exact .step .headerPorts fun _ _ => .pure rfl
      · exact .step .portNames fun _ _ => .pure rfl

/-! ### Module bodies -/

theorem Forms.parameterDeclaration : Forms ts c Parser.parameterDeclaration ParameterGroup.outline :=
  .tagged <| .beforeSemicolon fun _ => .silent Takes.consume.lays fun _ _ => .step .dataType fun _ _ =>
    .step .declarators fun _ _ => .pure (.of_eq fun _ => rfl)

theorem Forms.portDeclaration : Forms ts c Parser.portDeclaration PortGroup.outline :=
  .tagged <| .beforeSemicolon fun _ => .silent (Takes.demandBy _ _).lays fun _ _ => .silent .netType fun _ _ =>
    .step .dataType fun _ _ => .step .declarators fun _ _ => .pure (.of_eq fun _ => rfl)

theorem Forms.signalDeclaration : Forms ts c Parser.signalDeclaration SignalGroup.outline :=
  .tagged <| .beforeSemicolon fun _ => .silent .netType fun _ _ =>
    .step .dataType fun _ _ => .step .declarators fun _ _ => .pure (.of_eq fun _ => rfl)

theorem Forms.genvarDeclaration : Forms ts c Parser.genvarDeclaration Genvars.outline :=
  .tagged <| .beforeSemicolon fun _ => .silent (Takes.expect _).lays fun _ _ =>
    .step (Lays.listBy (fun _ => (Takes.comma _).lays) fun _ => Takes.name.lays) fun _ _ =>
      .pure (.of_eq fun _ => by simp [Genvars.outline])

theorem Lays.connectedValue : Lays ts c Parser.connectedValue (optionOutlines Expr.outline) :=
  .silent .atEnd fun _ _ => by
    split
    · exact .pure rfl
    · exact .node (.filling _ .expression) fun _ _ => .pure rfl

theorem Forms.connection : Forms ts c Parser.connection Connection.outline :=
  .tagged <| .silent (.eat _) fun _ _ => by
    split
    · exact .token .name fun _ _ => .step (Builds.enclosed fun _ => Lays.connectedValue).gathers
        fun _ _ => .pure (.of_eq fun _ => rfl)
    · exact .node .expression fun _ _ => .pure (.of_eq fun _ => rfl)

theorem Builds.connections :
    Builds ts c [] Parser.connections fun os cs => os = cs.map Connection.outline :=
  .enclosed fun _ => Lays.of_flatMap (.entries fun _ => Forms.connection.lays)

theorem Lays.instanceParameters :
    Lays ts c Parser.instanceParameters fun cs => cs.map Connection.outline :=
  .silent (.eat _) fun _ _ => by
    split
    · exact Builds.connections.gathers
    · exact .pure rfl

theorem Forms.instantiation : Forms ts c Parser.instantiation Instantiation.outline := by
  rw [instantiation_eq]
  exact .tagged <| .beforeSemicolon fun _ => .silent Takes.name.lays fun _ _ =>
    .step .instanceParameters fun _ _ => .silent Takes.name.lays fun _ _ =>
      .step Builds.connections.gathers fun _ _ => .silent (.expectEnd _) fun _ _ => .pure (.of_eq fun _ => rfl)

end SystemVerilog
