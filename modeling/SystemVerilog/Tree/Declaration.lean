import SystemVerilog.Tree.Expr

/-!
# Declarations

Data types, and the groups that declare parameters, ports, nets and variables: one group gives all
its declarators the same type.
-/

namespace SystemVerilog

/-- Two bounds between brackets. -/
structure Bounds (α : Type) where
  tag : α
  left : Expr α
  right : Expr α

/-- A dimension behind a declared name. -/
inductive Dimension (α : Type) where
  | bounds (b : Bounds α)
  | size (tag : α) (index : Expr α)

/-- A data type. Without its keyword it is implicit, and then has a sign or packed dimensions. -/
structure DataType (α : Type) where
  tag : α
  keyword : Option Keyword
  signing : Option Signing
  packed : List (Bounds α)

/-- A declared name with its dimensions and the value that it starts from. -/
structure Declarator (α : Type) where
  tag : α
  name : String
  dims : List (Dimension α)
  value : Option (Expr α)

/-- Parameters declared together. -/
structure ParameterGroup (α : Type) where
  tag : α
  isLocal : Bool
  type : Option (DataType α)
  declarators : List (Declarator α)

/-- Ports declared together. -/
structure PortGroup (α : Type) where
  tag : α
  direction : Direction
  net : Option Keyword
  type : Option (DataType α)
  declarators : List (Declarator α)

/-- Signals, which are nets or variables, declared together. -/
structure SignalGroup (α : Type) where
  tag : α
  net : Option Keyword
  type : Option (DataType α)
  declarators : List (Declarator α)

/-- A port that the module header only names. -/
structure PortName (α : Type) where
  tag : α
  name : String

/-- The ports in a module header: none, declared there (ANSI style), or only named there and declared
in the body. -/
inductive PortList (α : Type) where
  | empty
  | ansi (groups : List (PortGroup α))
  | nonAnsi (names : List (PortName α))

/-- Whether a header has no port. -/
def PortList.isEmpty {α : Type} : PortList α → Bool
  | empty => true
  | ansi groups => groups.isEmpty
  | nonAnsi names => names.isEmpty

/-- Generate loop variables declared together. -/
structure Genvars (α : Type) where
  tag : α
  names : List String

/-- A value given to a parameter or port, by name or by position. -/
structure Connection (α : Type) where
  tag : α
  name : Option String
  value : Option (Expr α)

/-- A module used inside another one. -/
structure Instantiation (α : Type) where
  tag : α
  moduleName : String
  params : List (Connection α)
  instanceName : String
  ports : List (Connection α)

end SystemVerilog
