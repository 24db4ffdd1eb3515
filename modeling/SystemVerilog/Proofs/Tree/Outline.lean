import SystemVerilog.Token.Basic
import SystemVerilog.Tree.Module
import SystemVerilog.Tree.Site

/-!
# Outlines of trees

The outline of a tree keeps of every node its site and the outlines of its children, in the order of the
constructor. `o.Exact ts` says of every node in an outline how its site fits the tokens `ts`.
-/

namespace SystemVerilog

/-- The sites of a node and of all nodes below it. -/
inductive Outline where
  | node (site : Site) (children : List Outline)

namespace Outline

/-- The site of the root. -/
def site : Outline → Site
  | node site _ => site

/-- The index of the first token of the root. -/
def start (o : Outline) : Nat := o.site.range.start

/-- The index just past the last token of the root. -/
def stop (o : Outline) : Nat := o.site.range.stop

@[simp] theorem start_node (site : Site) (children : List Outline) :
    (node site children).start = site.range.start := rfl

@[simp] theorem stop_node (site : Site) (children : List Outline) :
    (node site children).stop = site.range.stop := rfl

/-- Two ranges share no token. -/
def Apart (o o' : Outline) : Prop := o.stop ≤ o'.start ∨ o'.stop ≤ o.start

/-- Every node of the outline covers at least one of the tokens and no place behind them, its location
is that of its first token, and its children lie inside it and apart from each other. -/
inductive Exact (ts : List Token) : Outline → Prop
  | node {site : Site} {children : List Outline}
    (nonempty : site.range.start < site.range.stop)
    (inside : site.range.stop ≤ ts.length)
    (located : ts[site.range.start]?.map (fun t => t.location) = some site.location)
    (nested : ∀ o ∈ children, site.range.start ≤ o.start ∧ o.stop ≤ site.range.stop)
    (apart : children.Pairwise Apart)
    (parts : ∀ o ∈ children, o.Exact ts) : (node site children).Exact ts

theorem Exact.nonempty {ts : List Token} {o : Outline} (h : o.Exact ts) : o.start < o.stop := by
  cases h
  assumption

theorem Exact.stop_le {ts : List Token} {o : Outline} (h : o.Exact ts) : o.stop ≤ ts.length := by
  cases h
  assumption

/-- The nodes directly below the root. -/
def children : Outline → List Outline
  | node _ children => children

/-- Two neighbours as one node, which has the children of both. -/
def join (o o' : Outline) : Outline := node (o.site.through o'.site) (o.children ++ o'.children)

theorem Exact.join {ts : List Token} {o o' : Outline} (h : o.Exact ts) (h' : o'.Exact ts)
    (hle : o.stop ≤ o'.start) : (o.join o').Exact ts := by
  have hlt := h.nonempty
  have hlt' := h'.nonempty
  cases h with
  | @node site children _ _ located nested apart parts =>
    cases h' with
    | @node site' children' _ inside' _ nested' apart' parts' =>
      simp only [start_node, stop_node] at hle hlt hlt'
      refine .node (Nat.lt_of_lt_of_le hlt (Nat.le_trans hle (Nat.le_of_lt hlt'))) inside' located
        (List.forall_mem_append.2 ⟨fun p hp => ?_, fun p hp => ?_⟩)
        (List.pairwise_append.2 ⟨apart, apart', fun p hp p' hp' => .inl ?_⟩)
        (List.forall_mem_append.2 ⟨parts, parts'⟩)
      · obtain ⟨hstart, hstop⟩ := nested p hp
        exact ⟨hstart, Nat.le_trans hstop (Nat.le_trans hle (Nat.le_of_lt hlt'))⟩
      · obtain ⟨hstart, hstop⟩ := nested' p hp
        exact ⟨Nat.le_trans (Nat.le_of_lt hlt) (Nat.le_trans hle hstart), hstop⟩
      · exact Nat.le_trans (nested p hp).2 (Nat.le_trans hle (nested' p' hp').1)

end Outline

/-! ### Expressions -/

mutual

def Expr.outline : Expr Site → Outline
  | .identifier tag _ | .systemIdentifier tag _ | .literal tag _ _ => .node tag []
  | .unary tag _ operand => .node tag [operand.outline]
  | .binary tag _ lhs rhs => .node tag [lhs.outline, rhs.outline]
  | .parenthesis tag inner => .node tag [inner.outline]
  | .index tag target subscript => .node tag [target.outline, subscript.outline]
  | .slice tag _ target left right => .node tag [target.outline, left.outline, right.outline]
  | .conditional tag condition thenExpr elseExpr =>
    .node tag [condition.outline, thenExpr.outline, elseExpr.outline]
  | .assignment tag _ target value => .node tag [target.outline, value.outline]
  | .delayedAssignment tag _ target delay magnitude _ value =>
    .node tag [target.outline, .node delay [magnitude.outline], value.outline]
  | .concatenation tag items => .node tag (Expr.outlineAll items)
  | .replication tag count items => .node tag (count.outline :: Expr.outlineAll items)
  | .arrayPattern tag items => .node tag (Expr.outlineAll items)
  | .call tag callee parens args => .node tag [callee.outline, .node parens (Expr.outlineAll args)]
  | .member tag target _ => .node tag [target.outline]
  | .scope tag outer _ => .node tag [outer.outline]

def Expr.outlineAll : List (Expr Site) → List Outline
  | [] => []
  | e :: es => e.outline :: Expr.outlineAll es

end

theorem Expr.outlineAll_eq_map (es : List (Expr Site)) : outlineAll es = es.map outline := by
  induction es with
  | nil => rfl
  | cons e es ih => rw [outlineAll, ih, List.map_cons]

@[simp] theorem Expr.site_outline (e : Expr Site) : e.outline.site = e.tag := by
  cases e <;> rfl

/-! ### Declarations -/

/-- The outline of something, if it is there. -/
def optionOutlines {α : Type} (outline : α → Outline) (o : Option α) : List Outline :=
  o.toList.map outline

def Delay.outline (delay : Delay Site) : Outline := .node delay.tag [delay.magnitude.outline]

def Bounds.outline (b : Bounds Site) : Outline := .node b.tag [b.left.outline, b.right.outline]

def Dimension.outline : Dimension Site → Outline
  | bounds b => b.outline
  | size tag index => .node tag [index.outline]

def DataType.outline (type : DataType Site) : Outline := .node type.tag (type.packed.map Bounds.outline)

def Declarator.outline (d : Declarator Site) : Outline :=
  .node d.tag (d.dims.map Dimension.outline ++ optionOutlines Expr.outline d.value)

/-- The children of a group of declarators: its type and the declarators. -/
def groupOutlines (type : Option (DataType Site)) (declarators : List (Declarator Site)) :
    List Outline :=
  optionOutlines DataType.outline type ++ declarators.map Declarator.outline

def ParameterGroup.outline (group : ParameterGroup Site) : Outline :=
  .node group.tag (groupOutlines group.type group.declarators)

def PortGroup.outline (group : PortGroup Site) : Outline :=
  .node group.tag (groupOutlines group.type group.declarators)

def SignalGroup.outline (group : SignalGroup Site) : Outline :=
  .node group.tag (groupOutlines group.type group.declarators)

def PortName.outline (name : PortName Site) : Outline := .node name.tag []

/-- The port list of a header is no node; its groups or names are children of the module. -/
def PortList.outlines : PortList Site → List Outline
  | empty => []
  | ansi groups => groups.map PortGroup.outline
  | nonAnsi names => names.map PortName.outline

def Genvars.outline (group : Genvars Site) : Outline := .node group.tag []

def Connection.outline (c : Connection Site) : Outline :=
  .node c.tag (optionOutlines Expr.outline c.value)

def Instantiation.outline (inst : Instantiation Site) : Outline :=
  .node inst.tag (inst.params.map Connection.outline ++ inst.ports.map Connection.outline)

/-! ### Statements -/

def Event.outline (event : Event Site) : Outline := .node event.tag [event.expr.outline]

def Sensitivity.outline (sensitivity : Sensitivity Site) : Outline :=
  .node sensitivity.tag (sensitivity.events.map Event.outline)

def LoopInit.outline (init : LoopInit Site) : Outline :=
  .node init.tag (optionOutlines DataType.outline init.type ++ [init.assignment.outline])

def LoopHeader.outline (header : LoopHeader Site) : Outline :=
  .node header.tag (optionOutlines LoopInit.outline header.init ++
    (optionOutlines Expr.outline header.condition ++ optionOutlines Expr.outline header.step))

/-- The outline of a case item over that of what it selects. -/
def caseItemOutline (tag : Site) (labels : List (Expr Site)) (body : Outline) : Outline :=
  .node tag (labels.map Expr.outline ++ [body])

namespace Statement

mutual

def outline : Statement Site → Outline
  | block tag _ statements => .node tag (outlineAll statements)
  | ifElse tag condition thenBranch elseBranch =>
    .node tag (condition.outline :: thenBranch.outline :: outlineOption elseBranch)
  | caseOf tag _ selector items default =>
    .node tag (selector.outline :: (outlineItems items ++ outlineOption default))
  | loop tag header body => .node tag [header.outline, body.outline]
  | delayed tag delay body => .node tag [delay.outline, body.outline]
  | event tag sensitivity body => .node tag [sensitivity.outline, body.outline]
  | expression tag e => .node tag [e.outline]
  | empty tag => .node tag []

def outlineAll : List (Statement Site) → List Outline
  | [] => []
  | s :: ss => s.outline :: outlineAll ss

def outlineOption : Option (Statement Site) → List Outline
  | none => []
  | some s => [s.outline]

def outlineItems : List (CaseItem Site (Statement Site)) → List Outline
  | [] => []
  | ⟨tag, labels, body⟩ :: items => caseItemOutline tag labels body.outline :: outlineItems items

end

theorem outlineAll_eq_map (ss : List (Statement Site)) : outlineAll ss = ss.map outline := by
  induction ss with
  | nil => rfl
  | cons s ss ih => rw [outlineAll, ih, List.map_cons]

theorem outlineOption_eq (o : Option (Statement Site)) : outlineOption o = optionOutlines outline o := by
  cases o <;> rfl

theorem outlineItems_eq_map (items : List (CaseItem Site (Statement Site))) :
    outlineItems items = items.map fun i => caseItemOutline i.tag i.labels i.body.outline := by
  induction items with
  | nil => rfl
  | cons item items ih => rw [outlineItems, ih, List.map_cons]

end Statement

/-! ### Module items -/

def ContinuousAssign.outline (group : ContinuousAssign Site) : Outline :=
  .node group.tag (optionOutlines Delay.outline group.delay ++ group.assignments.map Expr.outline)

def AlwaysBlock.outline (a : AlwaysBlock Site) : Outline :=
  .node a.tag (optionOutlines Sensitivity.outline a.sensitivity ++ [a.body.outline])

def InitialBlock.outline (i : InitialBlock Site) : Outline := .node i.tag [i.body.outline]

def Directive.outline (d : Directive Site) : Outline := .node d.tag []

namespace BodyItem

mutual

def outline : BodyItem Site → Outline
  | parameters group => group.outline
  | ports group => group.outline
  | signals group => group.outline
  | genvars group => group.outline
  | assign group => group.outline
  | always a => a.outline
  | initial i => i.outline
  | instantiation inst => inst.outline
  | block b => outlineBlock b
  | region tag items => .node tag (outlineAll items)
  | generateIf tag condition thenBlock elseBlock =>
    .node tag (condition.outline :: outlineBlock thenBlock :: outlineOption elseBlock)
  | generateFor tag header body => .node tag [header.outline, outlineBlock body]
  | generateCase tag selector items default =>
    .node tag (selector.outline :: (outlineItems items ++ outlineOption default))
  | directive d => d.outline
  | empty tag => .node tag []

def outlineBlock : GenerateBlock Site (BodyItem Site) → Outline
  | ⟨tag, _, items⟩ => .node tag (outlineAll items)

def outlineAll : List (BodyItem Site) → List Outline
  | [] => []
  | item :: items => item.outline :: outlineAll items

def outlineOption : Option (GenerateBlock Site (BodyItem Site)) → List Outline
  | none => []
  | some b => [outlineBlock b]

def outlineItems : List (CaseItem Site (GenerateBlock Site (BodyItem Site))) → List Outline
  | [] => []
  | ⟨tag, labels, body⟩ :: items => caseItemOutline tag labels (outlineBlock body) :: outlineItems items

end

theorem outlineAll_eq_map (items : List (BodyItem Site)) : outlineAll items = items.map outline := by
  induction items with
  | nil => rfl
  | cons item items ih => rw [outlineAll, ih, List.map_cons]

theorem outlineOption_eq (o : Option (GenerateBlock Site (BodyItem Site))) :
    outlineOption o = optionOutlines outlineBlock o := by
  cases o <;> rfl

theorem outlineItems_eq_map (items : List (CaseItem Site (GenerateBlock Site (BodyItem Site)))) :
    outlineItems items = items.map fun i => caseItemOutline i.tag i.labels (outlineBlock i.body) := by
  induction items with
  | nil => rfl
  | cons item items ih => rw [outlineItems, ih, List.map_cons]

end BodyItem

/-! ### Sources -/

def Module.outline (m : Module Site) : Outline :=
  .node m.tag (m.params.map ParameterGroup.outline ++ (m.ports.outlines ++ m.body.map BodyItem.outline))

def Item.outline : Item Site → Outline
  | design m => m.outline
  | directive d => d.outline

end SystemVerilog
