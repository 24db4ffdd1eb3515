import SystemVerilog.Grammar.Unit
import SystemVerilog.Interface.Fault

/-!
# Module interfaces

The interface of a module: its parameters and its ports, with directions, data types and widths. The
width of a port comes from the first packed dimension of its data type, which must run down to a
literal zero. If the upper bound is a literal the width is a number; otherwise it is the text of the
bound with one added, and every name in the bound must be a parameter of the module.

The ports of a module are those of its header. Where the header only names them, each must be declared
exactly once by a port declaration of the body.
-/

namespace SystemVerilog

/-! ### What an interface holds -/

/-- A parameter as the users of its module see it. -/
structure Parameter where
  name : String
  isLocal : Bool
  /-- The text of its data type. -/
  type : Option String
  /-- The text of its value. -/
  default : Option String
  location : Location
  deriving DecidableEq, Repr

/-- The number of bits of a port. -/
inductive Width where
  | bits (n : Nat)
  /-- One more than the value of an expression. -/
  | oneMoreThan (bound : String)
  deriving DecidableEq, Repr

/-- The text of a width. -/
def Width.text : Width → String
  | bits n => toString n
  | oneMoreThan bound => s!"{bound} + 1"

/-- Where a port is declared: in the header, or by a name in the header and a declaration in the
body. -/
inductive PortOrigin where
  | ansi (location : Location)
  | nonAnsi (header body : Location)
  deriving DecidableEq, Repr

/-- What a port declaration says about all its ports. -/
structure PortShape where
  direction : Direction
  /-- The text of the data type. -/
  type : Option String
  width : Option Width
  deriving DecidableEq, Repr

/-- A port as the users of its module see it. -/
structure Port extends PortShape where
  name : String
  origin : PortOrigin
  deriving DecidableEq, Repr

/-- What the users of a module see of it. -/
structure ModuleInterface where
  name : String
  parameters : List Parameter
  ports : List Port
  location : Location
  deriving DecidableEq, Repr

/-! ### Widths -/

namespace Interface

/-- The value of a literal bound; none if the bound is no literal. -/
def literalBound (range : String) (bound : Expr Site) : Except InterfaceCause (Option Nat) :=
  match bound with
  | .literal _ _ _ =>
    match bound.integerDigits? with
    | none => .error (.nonIntegerIndex range)
    | some (radix, digits) =>
      match readDigits radix digits with
      | .ok value => .ok (some value)
      | .error .overflow => .error (.indexOverflow range)
      | .error _ => .error (.nonIntegerIndex range)
  | _ => .ok none

/-- The first name that is no parameter. -/
def firstUnknown? (known names : List String) : Option String :=
  names.find? fun name => !known.contains name

/-- The width that a packed dimension gives. The lower bound is checked first, then the names in the
upper bound, then its value. -/
def boundsWidth (unit : SourceUnit) (known : List String) (b : Bounds Site) :
    Except InterfaceCause Width := do
  let range := unit.nodeText b.tag
  if (← literalBound range b.right) = some 0 then
    match firstUnknown? known b.left.identifiers with
    | some name => .error (.undeclaredParameter name range)
    | none =>
      match ← literalBound range b.left with
      | some value =>
        if value + 1 < valueBound then return .bits (value + 1) else .error (.indexOverflow range)
      | none => return .oneMoreThan (unit.nodeText b.left.tag)
  else .error (.nonZeroLowIndex range)

/-- The text of a data type and the width that it gives. -/
def typeShape (unit : SourceUnit) (known : List String) (type : DataType Site) :
    Except InterfaceCause (String × Option Width) := do
  match type.packed with
  | [] => return (unit.nodeText type.tag, none)
  | b :: _ => return (unit.nodeText type.tag, some (← boundsWidth unit known b))

/-- What a port declaration says about all its ports. -/
def groupShape (unit : SourceUnit) (known : List String) (group : PortGroup Site) :
    Except InterfaceCause PortShape := do
  match group.type with
  | none => return ⟨group.direction, none, none⟩
  | some type =>
    let (text, width) ← typeShape unit known type
    return ⟨group.direction, some text, width⟩

/-! ### Parameters -/

/-- The parameters of a group. -/
def groupParameters (unit : SourceUnit) (group : ParameterGroup Site) : List Parameter :=
  group.declarators.map fun d =>
    { name := d.name
      isLocal := group.isLocal
      type := group.type.map fun type => unit.nodeText type.tag
      default := d.value.map fun value => unit.nodeText value.tag
      location := d.tag.location }

/-- The first element of a list that occurs before. -/
def firstRepeated? (seen : List String) : List String → Option String
  | [] => none
  | name :: rest => if seen.contains name then some name else firstRepeated? (name :: seen) rest

/-- The parameter groups of a module: those of its header, then those of its body. -/
def parameterGroups (m : Module Site) : List (ParameterGroup Site) :=
  m.params ++ m.body.filterMap fun
    | .parameters group => some group
    | _ => none

/-- The parameters of a module, whose names must differ. -/
def parameters (unit : SourceUnit) (m : Module Site) : Except InterfaceCause (List Parameter) :=
  let found := (parameterGroups m).flatMap (groupParameters unit)
  match firstRepeated? [] (found.map fun p => p.name) with
  | some name => .error (.duplicateParameter name)
  | none => .ok found

/-! ### Ports declared in the header -/

/-- Adds the ports of a group, whose names must differ from each other and from those seen. -/
def groupPorts (shape : PortShape) (seen : List String) :
    List (Declarator Site) → Except InterfaceCause (List Port)
  | [] => .ok []
  | d :: ds =>
    if seen.contains d.name then .error (.duplicatePort d.name)
    else do
      let rest ← groupPorts shape (d.name :: seen) ds
      return { shape with name := d.name, origin := .ansi d.tag.location } :: rest

/-- The ports of some groups of a header, each group checked before its names. -/
def ansiPorts (unit : SourceUnit) (known seen : List String) :
    List (PortGroup Site) → Except InterfaceCause (List Port)
  | [] => .ok []
  | group :: groups => do
    let shape ← groupShape unit known group
    let first ← groupPorts shape seen group.declarators
    let names := first.map fun p => p.name
    let rest ← ansiPorts unit known (names ++ seen) groups
    return first ++ rest

/-! ### Ports declared in the body -/

/-- A port that the header names, with what the body has said about it so far. -/
structure Pending where
  name : String
  header : Location
  detail : Option (PortShape × Location)

/-- Gives a declared port its detail. The header must name it, once, and no declaration may have come
before. -/
def settle (shape : PortShape) (d : Declarator Site) (pending : List Pending) :
    Except InterfaceCause (List Pending) :=
  match pending.filter fun p => p.name == d.name with
  | [] => .error (.portNotInHeader d.name)
  | [only] =>
    if only.detail.isSome then .error (.duplicatePortDetail d.name)
    else .ok (pending.map fun p =>
      if p.name = d.name then { p with detail := some (shape, d.tag.location) } else p)
  | _ :: _ :: _ => .error (.duplicatePort d.name)

/-- Gives all ports of a group their detail. -/
def settleAll (shape : PortShape) (pending : List Pending) :
    List (Declarator Site) → Except InterfaceCause (List Pending)
  | [] => .ok pending
  | d :: ds => do settleAll shape (← settle shape d pending) ds

/-- Gives the ports of all groups their detail, each group checked before its names. -/
def settleGroups (unit : SourceUnit) (known : List String) (pending : List Pending) :
    List (PortGroup Site) → Except InterfaceCause (List Pending)
  | [] => .ok pending
  | group :: groups => do
    let shape ← groupShape unit known group
    settleGroups unit known (← settleAll shape pending group.declarators) groups

/-- The port that a pending one has become. -/
def Pending.port (p : Pending) : Except InterfaceCause Port :=
  match p.detail with
  | none => .error (.missingDirection p.name)
  | some (shape, body) => .ok { shape with name := p.name, origin := .nonAnsi p.header body }

/-- The port declarations of a module body. -/
def bodyPortGroups (m : Module Site) : List (PortGroup Site) :=
  m.body.filterMap fun
    | .ports group => some group
    | _ => none

/-- The ports of a module whose header only names them, in the order of the header. -/
def nonAnsiPorts (unit : SourceUnit) (known : List String) (m : Module Site)
    (names : List (PortName Site)) : Except InterfaceCause (List Port) := do
  let pending := names.map fun n => (⟨n.name, n.tag.location, none⟩ : Pending)
  let settled ← settleGroups unit known pending (bodyPortGroups m)
  settled.mapM Pending.port

/-! ### Whole interfaces -/

/-- What reading interfaces is asked to do. -/
structure Options where
  /-- Whether headers that only name their ports are accepted. -/
  allowNonAnsi : Bool := true
  deriving DecidableEq, Repr

/-- The ports of a module. -/
def ports (unit : SourceUnit) (options : Options) (known : List String) (m : Module Site) :
    Except InterfaceCause (List Port) :=
  match m.ports with
  | .empty => .ok []
  | .ansi groups => ansiPorts unit known [] groups
  | .nonAnsi names =>
    if options.allowNonAnsi then nonAnsiPorts unit known m names else .error .nonAnsiDisabled

/-- The interface of a module, or the first cause why it has none. -/
def extract (unit : SourceUnit) (options : Options) (m : Module Site) :
    Except InterfaceCause ModuleInterface := do
  let parameters ← parameters unit m
  let ports ← ports unit options (parameters.map fun p => p.name) m
  return ⟨m.name, parameters, ports, m.tag.location⟩

/-- The interface of a module. -/
def ofModule (unit : SourceUnit) (options : Options) (m : Module Site) :
    Except InterfaceFault ModuleInterface :=
  (extract unit options m).mapError fun cause => ⟨m.name, cause⟩

/-- The interfaces of some modules, up to the first that has none. -/
def ofModules (unit : SourceUnit) (options : Options) :
    List (Module Site) → Except InterfaceFault (List ModuleInterface)
  | [] => .ok []
  | m :: ms => do
    let first ← ofModule unit options m
    let rest ← ofModules unit options ms
    return first :: rest

/-- The interfaces of all modules of a unit. -/
def ofUnit (unit : SourceUnit) (options : Options) : Except InterfaceFault (List ModuleInterface) :=
  ofModules unit options unit.modules

/-- The modules whose interfaces are looked at: all up to the first that has none. -/
def visited (unit : SourceUnit) (options : Options) : List (Module Site) → List (Module Site)
  | [] => []
  | m :: ms =>
    match ofModule unit options m with
    | .ok _ => m :: visited unit options ms
    | .error _ => [m]

end Interface

end SystemVerilog
