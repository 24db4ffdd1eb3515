import SystemVerilog.Proofs.Reading.Choices
import SystemVerilog.Proofs.Roots.Openings
import SystemVerilog.Proofs.Tree.Expressions

/-!
# The expressions of declarations are read as expressions

The expressions of a tree are what the expression readers have read, and nothing else, and no reader was started
behind a qualifier. So what is known of everything that those readers give is known of every expression of a tree.
-/

namespace SystemVerilog

open SystemVerilog.Parser

variable {α : Type} {ts : List Token} {c : Cursor}

/-- An expression reader has read the expression from tokens of `ts`, and not from behind a qualifier. -/
def Expr.ReadFrom (ts : List Token) (e : Expr Site) : Prop :=
  ∃ c c' budget reading floor, c.Ready ts ∧ expressionWithin budget reading floor c = .ok (e, c')

/-- Expression readers have read all of some expressions. -/
def Rooted (ts : List Token) (es : List (Expr Site)) : Prop := ∀ e ∈ es, e.ReadFrom ts

namespace Rooted

variable {es es' : List (Expr Site)} {e : Expr Site} {as : List α} {out : α → List (Expr Site)}

theorem nil : Rooted ts [] := nofun

theorem cons (h : e.ReadFrom ts) (hes : Rooted ts es) : Rooted ts (e :: es) := List.forall_mem_cons.2 ⟨h, hes⟩

theorem one (h : e.ReadFrom ts) : Rooted ts [e] := .cons h .nil

theorem append (h : Rooted ts es) (h' : Rooted ts es') : Rooted ts (es ++ es') := List.forall_mem_append.2 ⟨h, h'⟩

theorem flatMap (h : ∀ a ∈ as, Rooted ts (out a)) : Rooted ts (as.flatMap out) := by
  intro e he
  obtain ⟨a, ha, hmem⟩ := List.mem_flatMap.1 he
  exact h a ha e hmem

end Rooted

namespace Opens

/-! ### Expressions -/

theorem expressionWithin (budget : Nat) (reading : LessEqualReading) (floor : Nat) :
    Opens ts c (Parser.expressionWithin budget reading floor) (Expr.ReadFrom ts) :=
  fun hc _ c' hread => ⟨(expressionWithin_fills hread).ready hc, c, c', budget, reading, floor, hc, hread⟩

theorem expression : Opens ts c Parser.expression (Expr.ReadFrom ts) :=
  fun hc _ _ hread => expressionWithin (budget c) .compares 0 hc hread

theorem statementExpression : Opens ts c Parser.statementExpression (Expr.ReadFrom ts) :=
  fun hc _ _ hread => expressionWithin (budget c) .assigns 0 hc hread

theorem operand : Opens ts c Parser.operand (Expr.ReadFrom ts) :=
  fun hc _ _ hread => expressionWithin (budget c) .compares prefixPower hc hread

theorem listOf {nested : Nested} (hn : ∀ c₁, Opens ts c₁ (nested 0) (Expr.ReadFrom ts)) :
    Opens ts c (Parser.listOf nested) (Rooted ts) :=
  look rfl <| by
    split
    · exact .pure nofun
    · exact listBy (fun _ => comma) hn

theorem expressionList : Opens ts c Parser.expressionList (Rooted ts) :=
  fun hc _ _ hread => listOf (fun _ => expressionWithin (budget c) .compares 0) hc hread

theorem delayUnit : Settles ts c Parser.delayUnit := by
  intro hc unit c' hread
  have hread' : Parser.delayUnit c = .ok (unit, c') := hread
  unfold Parser.delayUnit at hread'
  split at hread'
  · rename_i last _ t rest _ hafter
    split at hread'
    · rename_i hunit
      split at hread'
      · obtain ⟨-, rfl⟩ := Prod.mk.inj (Except.ok.inj hread')
        exact ⟨hc.sees.ready_next hafter (TokenKind.isQualifier_of_isName (TokenKind.isName_of_unit hunit)), trivial⟩
      · obtain ⟨-, rfl⟩ := Prod.mk.inj (Except.ok.inj hread')
        exact ⟨hc, trivial⟩
    · obtain ⟨-, rfl⟩ := Prod.mk.inj (Except.ok.inj hread')
      exact ⟨hc, trivial⟩
  · obtain ⟨-, rfl⟩ := Prod.mk.inj (Except.ok.inj hread')
    exact ⟨hc, trivial⟩

theorem delayOf {nested : Nested} (hn : ∀ c₁, Opens ts c₁ (nested prefixPower) (Expr.ReadFrom ts)) :
    Opens ts c (Parser.delayOf nested) fun d => Rooted ts d.expressions :=
  .tagged <| silent (expect rfl) fun _ _ => bind (hn _) fun _ _ hmagnitude => silent delayUnit fun _ _ =>
    .pure fun _ => .one hmagnitude

theorem delay : Opens ts c Parser.delay fun d => Rooted ts d.expressions :=
  fun hc _ _ hread => delayOf (fun _ => expressionWithin (budget c) .compares prefixPower) hc hread

/-! ### Dimensions and data types -/

theorem dimension : Opens ts c Parser.dimension fun d => Rooted ts d.expressions := by
  refine .tagged <| enclosed rfl rfl fun _ => bind (spanBefore? fun _ _ h => ?_) fun found _ hfound => ?_
  · exact plain_of_found (distanceAtTop?_found h) rfl
  · split
    · exact bind (within (hfound _ rfl) (filling expression)) fun _ _ hleft =>
        bind (filling expression) fun _ _ hright => .pure fun _ => .cons hleft (.one hright)
    · exact bind (filling expression) fun _ _ hindex => .pure fun _ => .one hindex

theorem packedBounds : Opens ts c Parser.packedBounds fun b => Rooted ts b.expressions :=
  look rfl <| bind dimension fun d _ hd => by
    cases d with
    | bounds b => exact .pure hd
    | size tag index => exact fail

theorem packedOf (keyword : Option Keyword) :
    Opens ts c (Parser.packedOf keyword) fun bs => Rooted ts (bs.flatMap Bounds.expressions) := by
  unfold Parser.packedOf
  split
  · exact (bracketed fun _ => packedBounds).mono fun _ => .flatMap
  · exact .pure .nil

theorem signingOf (keyword : Option Keyword) : Settles ts c (Parser.signingOf keyword) := by
  unfold Parser.signingOf
  split
  · exact tryBy fun _ _ => TokenKind.isQualifier_of_signing
  · exact .pure trivial

theorem dataType : Opens ts c Parser.dataType fun type => Rooted ts (type.toList.flatMap DataType.expressions) := by
  rw [dataType_eq]
  refine look rfl ?_
  split
  · exact .pure .nil
  · split
    · refine .tagged <| silent (tryBy fun _ _ => TokenKind.isQualifier_of_keywordIn) fun keyword _ =>
        silent (signingOf keyword) fun _ _ => bind (packedOf keyword) fun packed _ hpacked => .pure fun _ => ?_
      rwa [Option.toList_some, List.flatMap_singleton]
    · exact .pure .nil

theorem netType : Settles ts c Parser.netType := tryBy fun _ _ => TokenKind.isQualifier_of_keywordIn

/-! ### Declarators and their groups -/

theorem declarator : Opens ts c Parser.declarator fun d => Rooted ts d.expressions :=
  .tagged <| silent name fun _ _ => bind (bracketed fun _ => dimension) fun _ _ hdims => silent (eat rfl) fun _ _ => by
    split
    · exact bind expression fun _ _ hvalue => .pure fun _ => .append (.flatMap hdims) (.one hvalue)
    · exact .pure fun _ => .append (.flatMap hdims) .nil

theorem declarators : Opens ts c Parser.declarators fun ds => Rooted ts (ds.flatMap Declarator.expressions) :=
  (listBy (fun _ => comma) fun _ => declarator).mono fun _ => .flatMap

end Opens

/-- A declarator that joins a group brings its own expressions. -/
theorem groupExpressions_append (type : Option (DataType Site)) (ds : List (Declarator Site)) (d : Declarator Site) :
    groupExpressions type (ds ++ [d]) = groupExpressions type ds ++ d.expressions := by
  rw [groupExpressions, groupExpressions, List.flatMap_append, List.flatMap_singleton, List.append_assoc]

def ParameterEntry.expressions (e : ParameterEntry) : List (Expr Site) := groupExpressions e.type [e.declarator]

def PortEntry.expressions (e : PortEntry) : List (Expr Site) := groupExpressions e.type [e.declarator]

/-- The groups of some entries hold no other expressions than the entries. -/
theorem Rooted.gather_parameters {g : ParameterGroup Site} {es : List ParameterEntry} (hg : Rooted ts g.expressions)
    (hes : ∀ e ∈ es, Rooted ts e.expressions) :
    Rooted ts ((ParameterEntry.gather g es).flatMap ParameterGroup.expressions) := by
  induction es generalizing g with
  | nil =>
    rw [ParameterEntry.gather, List.flatMap_singleton]
    exact hg
  | cons e es ih =>
    obtain ⟨he, hrest⟩ := List.forall_mem_cons.1 hes
    rw [ParameterEntry.gather]
    split
    · rw [List.flatMap_cons]
      exact hg.append (ih (g := e.group g.isLocal) he hrest)
    · refine ih ?_ hrest
      rw [ParameterGroup.expressions, ParameterEntry.join, groupExpressions_append]
      refine hg.append fun e' he' => he e' ?_
      rw [ParameterEntry.expressions, groupExpressions, List.flatMap_singleton]
      exact List.mem_append_right _ he'

theorem Rooted.gather_ports {g : PortGroup Site} {es : List PortEntry} (hg : Rooted ts g.expressions)
    (hes : ∀ e ∈ es, Rooted ts e.expressions) :
    Rooted ts ((PortEntry.gather g es).flatMap PortGroup.expressions) := by
  induction es generalizing g with
  | nil =>
    rw [PortEntry.gather, List.flatMap_singleton]
    exact hg
  | cons e es ih =>
    obtain ⟨he, hrest⟩ := List.forall_mem_cons.1 hes
    rw [PortEntry.gather]
    split
    · rw [List.flatMap_cons]
      exact hg.append (ih (g := e.group g.direction) he hrest)
    · refine ih ?_ hrest
      rw [PortGroup.expressions, PortEntry.join, groupExpressions_append]
      refine hg.append fun e' he' => he e' ?_
      rw [PortEntry.expressions, groupExpressions, List.flatMap_singleton]
      exact List.mem_append_right _ he'

namespace Opens

/-! ### Module headers -/

theorem parameterKeyword : Settles ts c Parser.parameterKeyword :=
  silent (eat rfl) fun _ _ => by
    split
    · exact .pure trivial
    · exact silent (eat rfl) fun _ _ => by split <;> exact .pure trivial

theorem parameterEntry : Opens ts c Parser.parameterEntry fun e => Rooted ts e.expressions :=
  .tagged <| silent parameterKeyword fun _ _ => bind dataType fun _ _ htype => bind declarator fun _ _ hd =>
    .pure fun _ => htype.append (.flatMap (List.forall_mem_singleton.2 hd))

theorem headerParameters :
    Opens ts c Parser.headerParameters fun gs => Rooted ts (gs.flatMap ParameterGroup.expressions) :=
  bind (entries fun _ => parameterEntry) fun es _ hes => .pure <| by
    cases es with
    | nil => exact .nil
    | cons e es =>
      obtain ⟨he, hrest⟩ := List.forall_mem_cons.1 hes
      exact .gather_parameters (g := e.group false) he hrest

theorem portEntry : Opens ts c Parser.portEntry fun e => Rooted ts e.expressions :=
  .tagged <| silent (tryBy fun _ _ => TokenKind.isQualifier_of_direction) fun _ _ => silent netType fun _ _ =>
    bind dataType fun _ _ htype => bind declarator fun _ _ hd =>
      .pure fun _ => htype.append (.flatMap (List.forall_mem_singleton.2 hd))

theorem headerPorts : Opens ts c Parser.headerPorts fun gs => Rooted ts (gs.flatMap PortGroup.expressions) :=
  bind (entries fun _ => portEntry) fun es _ hes => by
    cases es with
    | nil => exact .pure .nil
    | cons e es =>
      obtain ⟨he, hrest⟩ := List.forall_mem_cons.1 hes
      dsimp only
      split
      · exact .pure (.gather_ports (g := e.group _) he hrest)
      · exact fail

theorem portNames : Settles ts c Parser.portNames :=
  (listBy (P := fun _ => True) (fun _ => comma) fun _ => .tagged <| silent name fun _ _ => .pure fun _ => trivial).mono
    fun _ _ => trivial

theorem portList : Opens ts c Parser.portList fun ports => Rooted ts ports.expressions :=
  look rfl <| by
    split
    · exact .pure .nil
    · split
      · exact bind headerPorts fun _ _ hgroups => .pure hgroups
      · exact silent portNames fun _ _ => .pure .nil

/-! ### Module bodies -/

/-- The word of a declaration was looked at before. -/
theorem parameterDeclaration {word : Keyword} (hword : c.currentKind? = some (.word word)) :
    Opens ts c Parser.parameterDeclaration fun g => Rooted ts g.expressions :=
  .tagged <| beforeSemicolon fun _ => silent (consume (Cursor.plain_ahead hword rfl)) fun _ _ =>
    bind dataType fun _ _ htype => bind declarators fun _ _ hds => .pure fun _ => htype.append hds

theorem portDeclaration : Opens ts c Parser.portDeclaration fun g => Rooted ts g.expressions :=
  .tagged <| beforeSemicolon fun _ => silent (demandBy fun _ _ => TokenKind.isQualifier_of_direction) fun _ _ =>
    silent netType fun _ _ => bind dataType fun _ _ htype => bind declarators fun _ _ hds =>
      .pure fun _ => htype.append hds

theorem signalDeclaration : Opens ts c Parser.signalDeclaration fun g => Rooted ts g.expressions :=
  .tagged <| beforeSemicolon fun _ => silent netType fun _ _ => bind dataType fun _ _ htype =>
    bind declarators fun _ _ hds => .pure fun _ => htype.append hds

theorem genvarDeclaration : Settles ts c Parser.genvarDeclaration :=
  .tagged <| beforeSemicolon fun _ => silent (expect rfl) fun _ _ =>
    silent (listBy (P := fun _ => True) (fun _ => comma) fun _ => name).settles fun _ _ =>
      .pure fun _ => trivial

theorem connectedValue : Opens ts c Parser.connectedValue fun value => Rooted ts value.toList :=
  look rfl <| by
    split
    · exact .pure .nil
    · exact bind (filling expression) fun _ _ he => .pure (.one he)

/-- Behind the dot of a connection stands its name, and no expression. -/
theorem connection : Opens ts c Parser.connection fun c => Rooted ts c.expressions := by
  refine .tagged ?_
  cases hdot : c.check (.op .dot) with
  | false => exact look (eat_of_check hdot) (bind expression fun _ _ hvalue => .pure fun _ => .one hvalue)
  | true =>
    intro hc node c' hread
    obtain ⟨dot, rest, hafter, hkind⟩ := Cursor.after_of_check hdot
    obtain ⟨text, c₁, hname, hrest⟩ := bind_eq_ok.1 ((bind_of_ok (eat_of_after hafter hkind)).symm.trans hread)
    obtain ⟨t, rest', hafter', ht, -, rfl⟩ := name_eq_ok.1 hname
    have hready := (hc.sees.skip 1).ready_next hafter' (TokenKind.isQualifier_of_isName ht)
    exact bind (Q := fun node : Site → Connection Site => ∀ site, Rooted ts (node site).expressions)
      (enclosed rfl rfl fun _ => connectedValue) (fun _ _ hvalue => .pure fun _ => hvalue) hready hrest

theorem connections : Opens ts c Parser.connections fun cs => Rooted ts (cs.flatMap Connection.expressions) :=
  enclosed rfl rfl fun _ => (entries fun _ => connection).mono fun _ => .flatMap

theorem instanceParameters :
    Opens ts c Parser.instanceParameters fun cs => Rooted ts (cs.flatMap Connection.expressions) :=
  silent (eat rfl) fun _ _ => by
    split
    · exact connections
    · exact .pure .nil

theorem instantiation : Opens ts c Parser.instantiation fun inst => Rooted ts inst.expressions := by
  rw [instantiation_eq]
  exact .tagged <| beforeSemicolon fun _ => silent name fun _ _ => bind instanceParameters fun _ _ hparams =>
    silent name fun _ _ => bind connections fun _ _ hports => silent expectEnd fun _ _ =>
      .pure fun _ => hparams.append hports

end Opens

end SystemVerilog
