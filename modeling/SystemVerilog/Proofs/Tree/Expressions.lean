import SystemVerilog.Grammar.Unit

/-!
# The expressions of a tree

The expressions that stand in a tree are listed in the order of the constructors. Those listed are whole
expressions: the parts of an expression are found by walking it.
-/

namespace SystemVerilog

variable {α : Type}

/-! ### Declarations -/

def Delay.expressions (delay : Delay α) : List (Expr α) := [delay.magnitude]

def Bounds.expressions (b : Bounds α) : List (Expr α) := [b.left, b.right]

def Dimension.expressions : Dimension α → List (Expr α)
  | bounds b => b.expressions
  | size _ index => [index]

def DataType.expressions (type : DataType α) : List (Expr α) := type.packed.flatMap Bounds.expressions

def Declarator.expressions (d : Declarator α) : List (Expr α) :=
  d.dims.flatMap Dimension.expressions ++ d.value.toList

/-- The expressions of a group of declarators: those of its type and of the declarators. -/
def groupExpressions (type : Option (DataType α)) (declarators : List (Declarator α)) : List (Expr α) :=
  type.toList.flatMap DataType.expressions ++ declarators.flatMap Declarator.expressions

def ParameterGroup.expressions (group : ParameterGroup α) : List (Expr α) :=
  groupExpressions group.type group.declarators

def PortGroup.expressions (group : PortGroup α) : List (Expr α) := groupExpressions group.type group.declarators

def SignalGroup.expressions (group : SignalGroup α) : List (Expr α) :=
  groupExpressions group.type group.declarators

def PortList.expressions : PortList α → List (Expr α)
  | empty | nonAnsi _ => []
  | ansi groups => groups.flatMap PortGroup.expressions

def Connection.expressions (c : Connection α) : List (Expr α) := c.value.toList

def Instantiation.expressions (inst : Instantiation α) : List (Expr α) :=
  inst.params.flatMap Connection.expressions ++ inst.ports.flatMap Connection.expressions

/-! ### Statements -/

def Event.expressions (event : Event α) : List (Expr α) := [event.expr]

def Sensitivity.expressions (sensitivity : Sensitivity α) : List (Expr α) :=
  sensitivity.events.flatMap Event.expressions

def LoopInit.expressions (init : LoopInit α) : List (Expr α) :=
  init.type.toList.flatMap DataType.expressions ++ [init.assignment]

def LoopHeader.expressions (header : LoopHeader α) : List (Expr α) :=
  header.init.toList.flatMap LoopInit.expressions ++ (header.condition.toList ++ header.step.toList)

namespace Statement

mutual

def expressions : Statement α → List (Expr α)
  | block _ _ statements => expressionsAll statements
  | ifElse _ condition thenBranch elseBranch =>
    condition :: (thenBranch.expressions ++ expressionsOption elseBranch)
  | caseOf _ _ selector items default => selector :: (expressionsItems items ++ expressionsOption default)
  | loop _ header body => header.expressions ++ body.expressions
  | delayed _ delay body => delay.expressions ++ body.expressions
  | event _ sensitivity body => sensitivity.expressions ++ body.expressions
  | expression _ e => [e]
  | empty _ => []

def expressionsAll : List (Statement α) → List (Expr α)
  | [] => []
  | s :: ss => s.expressions ++ expressionsAll ss

def expressionsOption : Option (Statement α) → List (Expr α)
  | none => []
  | some s => s.expressions

def expressionsItems : List (CaseItem α (Statement α)) → List (Expr α)
  | [] => []
  | ⟨_, labels, body⟩ :: items => labels ++ body.expressions ++ expressionsItems items

end

theorem expressionsAll_eq (ss : List (Statement α)) : expressionsAll ss = ss.flatMap expressions := by
  induction ss with
  | nil => rfl
  | cons s ss ih => rw [expressionsAll, ih, List.flatMap_cons]

theorem expressionsOption_eq (o : Option (Statement α)) : expressionsOption o = o.toList.flatMap expressions := by
  cases o with
  | none => rfl
  | some s => rw [expressionsOption, Option.toList_some, List.flatMap_singleton]

theorem expressionsItems_eq (items : List (CaseItem α (Statement α))) :
    expressionsItems items = items.flatMap fun i => i.labels ++ i.body.expressions := by
  induction items with
  | nil => rfl
  | cons item items ih => rw [expressionsItems, ih, List.flatMap_cons]

end Statement

/-! ### Module items -/

def ContinuousAssign.expressions (group : ContinuousAssign α) : List (Expr α) :=
  group.delay.toList.flatMap Delay.expressions ++ group.assignments

def AlwaysBlock.expressions (a : AlwaysBlock α) : List (Expr α) :=
  a.sensitivity.toList.flatMap Sensitivity.expressions ++ a.body.expressions

def InitialBlock.expressions (i : InitialBlock α) : List (Expr α) := i.body.expressions

namespace BodyItem

mutual

def expressions : BodyItem α → List (Expr α)
  | parameters group => group.expressions
  | ports group => group.expressions
  | signals group => group.expressions
  | genvars _ => []
  | assign group => group.expressions
  | always a => a.expressions
  | initial i => i.expressions
  | instantiation inst => inst.expressions
  | block b => expressionsBlock b
  | region _ items => expressionsAll items
  | generateIf _ condition thenBlock elseBlock =>
    condition :: (expressionsBlock thenBlock ++ expressionsOption elseBlock)
  | generateFor _ header body => header.expressions ++ expressionsBlock body
  | generateCase _ selector items default => selector :: (expressionsItems items ++ expressionsOption default)
  | directive _ | empty _ => []

def expressionsBlock : GenerateBlock α (BodyItem α) → List (Expr α)
  | ⟨_, _, items⟩ => expressionsAll items

def expressionsAll : List (BodyItem α) → List (Expr α)
  | [] => []
  | item :: items => item.expressions ++ expressionsAll items

def expressionsOption : Option (GenerateBlock α (BodyItem α)) → List (Expr α)
  | none => []
  | some b => expressionsBlock b

def expressionsItems : List (CaseItem α (GenerateBlock α (BodyItem α))) → List (Expr α)
  | [] => []
  | ⟨_, labels, body⟩ :: items => labels ++ expressionsBlock body ++ expressionsItems items

end

theorem expressionsAll_eq (items : List (BodyItem α)) : expressionsAll items = items.flatMap expressions := by
  induction items with
  | nil => rfl
  | cons item items ih => rw [expressionsAll, ih, List.flatMap_cons]

theorem expressionsOption_eq (o : Option (GenerateBlock α (BodyItem α))) :
    expressionsOption o = o.toList.flatMap expressionsBlock := by
  cases o with
  | none => rfl
  | some b => rw [expressionsOption, Option.toList_some, List.flatMap_singleton]

theorem expressionsItems_eq (items : List (CaseItem α (GenerateBlock α (BodyItem α)))) :
    expressionsItems items = items.flatMap fun i => i.labels ++ expressionsBlock i.body := by
  induction items with
  | nil => rfl
  | cons item items ih => rw [expressionsItems, ih, List.flatMap_cons]

end BodyItem

/-! ### Sources -/

def Module.expressions (m : Module α) : List (Expr α) :=
  m.params.flatMap ParameterGroup.expressions ++ (m.ports.expressions ++ m.body.flatMap BodyItem.expressions)

def Item.expressions : Item α → List (Expr α)
  | design m => m.expressions
  | directive _ => []

/-- Every expression of a source unit, and every part of one. -/
def SourceUnit.expressionNodes (unit : SourceUnit) : List (Expr Site) :=
  (unit.items.flatMap Item.expressions).flatMap Expr.walk

end SystemVerilog
