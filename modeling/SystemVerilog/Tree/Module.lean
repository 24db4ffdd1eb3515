import SystemVerilog.Tree.Directive
import SystemVerilog.Tree.Statement

/-!
# Modules and their items

A source is a list of modules and directives. The body of a module is a list of items, some of which
are generate constructs that hold items again.
-/

namespace SystemVerilog

/-- Items of a generate scope: several between `begin` and `end`, or a single bare one. -/
structure GenerateBlock (α β : Type) where
  tag : α
  label : Option String
  items : List β

/-- Continuous assignments made together. -/
structure ContinuousAssign (α : Type) where
  tag : α
  delay : Option (Delay α)
  assignments : List (Expr α)

/-- A block that runs again whenever what it waits for happens. -/
structure AlwaysBlock (α : Type) where
  tag : α
  kind : AlwaysKind
  sensitivity : Option (Sensitivity α)
  body : Statement α

/-- A block that runs once. -/
structure InitialBlock (α : Type) where
  tag : α
  body : Statement α

/-- An item of a module body. -/
inductive BodyItem (α : Type) where
  | parameters (group : ParameterGroup α)
  | ports (group : PortGroup α)
  | signals (group : SignalGroup α)
  | genvars (group : Genvars α)
  | assign (group : ContinuousAssign α)
  | always (a : AlwaysBlock α)
  | initial (i : InitialBlock α)
  | instantiation (inst : Instantiation α)
  | block (b : GenerateBlock α (BodyItem α))
  | region (tag : α) (items : List (BodyItem α))
  | generateIf (tag : α) (condition : Expr α) (thenBlock : GenerateBlock α (BodyItem α))
      (elseBlock : Option (GenerateBlock α (BodyItem α)))
  | generateFor (tag : α) (header : LoopHeader α) (body : GenerateBlock α (BodyItem α))
  | generateCase (tag : α) (selector : Expr α)
      (items : List (CaseItem α (GenerateBlock α (BodyItem α))))
      (default : Option (GenerateBlock α (BodyItem α)))
  | directive (d : Directive α)
  | empty (tag : α)

/-- The tag of a body item. -/
def BodyItem.tag {α : Type} : BodyItem α → α
  | parameters group => group.tag
  | ports group => group.tag
  | signals group => group.tag
  | genvars group => group.tag
  | assign group => group.tag
  | always a => a.tag
  | initial i => i.tag
  | instantiation inst => inst.tag
  | block b => b.tag
  | region tag _ => tag
  | generateIf tag _ _ _ => tag
  | generateFor tag _ _ => tag
  | generateCase tag _ _ _ => tag
  | directive d => d.tag
  | empty tag => tag

/-- A module. -/
structure Module (α : Type) where
  tag : α
  name : String
  params : List (ParameterGroup α)
  ports : PortList α
  body : List (BodyItem α)

/-- An item of a source. -/
inductive Item (α : Type) where
  | design (m : Module α)
  | directive (d : Directive α)

namespace Item

variable {α : Type}

/-- The tag of an item. -/
def tag : Item α → α
  | design m => m.tag
  | directive d => d.tag

/-- The module that an item is. -/
def module? : Item α → Option (Module α)
  | design m => some m
  | directive _ => none

end Item

end SystemVerilog
