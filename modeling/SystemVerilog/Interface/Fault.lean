/-!
# Faults of module interfaces

Why a module that belongs to the grammar has no interface.
-/

namespace SystemVerilog

/-- Why the interface of a module cannot be read off. -/
inductive InterfaceCause where
  | duplicateParameter (name : String)
  | duplicatePort (name : String)
  /-- A port that the body declares twice. -/
  | duplicatePortDetail (name : String)
  | portNotInHeader (name : String)
  | missingDirection (name : String)
  | nonZeroLowIndex (range : String)
  | nonIntegerIndex (range : String)
  | indexOverflow (range : String)
  | undeclaredParameter (name range : String)
  | nonAnsiDisabled
  deriving DecidableEq, Repr

/-- A cause and the module that it is about. -/
structure InterfaceFault where
  moduleName : String
  cause : InterfaceCause
  deriving DecidableEq, Repr

/-- The wording of a fault. -/
def InterfaceFault.message (fault : InterfaceFault) : String :=
  let owner := fault.moduleName
  match fault.cause with
  | .duplicateParameter name => s!"duplicated parameter name '{name}' in module '{owner}'"
  | .duplicatePort name => s!"duplicated port name '{name}' in module '{owner}'"
  | .duplicatePortDetail name =>
    s!"duplicated port definition detail '{name}' in module '{owner}'"
  | .portNotInHeader name =>
    s!"port '{name}' is declared in the body of module '{owner}' but missing from its non-ANSI port list"
  | .missingDirection name => s!"port '{name}' of module '{owner}' is never given a direction"
  | .nonZeroLowIndex range =>
    s!"unsupported width range '{range}' in module '{owner}', the lower index must be 0"
  | .nonIntegerIndex range =>
    s!"range index in '{range}' of module '{owner}' must be an integer"
  | .indexOverflow range =>
    s!"range '{range}' of module '{owner}' is too wide to compute its width"
  | .undeclaredParameter name range =>
    s!"'{name}' is used in port range '{range}' of module '{owner}' but is not a parameter"
  | .nonAnsiDisabled =>
    s!"module '{owner}' has a non-ANSI port list but non-ANSI extraction is disabled"

end SystemVerilog
