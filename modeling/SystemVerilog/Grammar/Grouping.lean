import SystemVerilog.Tree.Declaration
import SystemVerilog.Tree.Site

/-!
# Groups of header entries

A module header declares parameters and ports in entries between commas. An entry with a keyword, a
direction, a net type or a data type of its own opens a group; any other entry joins the group before
it and shares its type. What an opening entry leaves out of its keyword or direction is taken over
from the group before it.
-/

namespace SystemVerilog

/-! ### Parameters -/

/-- An entry of a header parameter list. -/
structure ParameterEntry where
  tag : Site
  /-- What its keyword says, if it has one. -/
  isLocal : Option Bool
  type : Option (DataType Site)
  declarator : Declarator Site

namespace ParameterEntry

/-- Whether the entry opens a group even behind another entry. -/
def opens (e : ParameterEntry) : Bool := e.isLocal.isSome || e.type.isSome

/-- The group that the entry opens where parameters are `inherited` local or not. -/
def group (e : ParameterEntry) (inherited : Bool) : ParameterGroup Site :=
  ⟨e.tag, e.isLocal.getD inherited, e.type, [e.declarator]⟩

/-- A group with the entry added at its end. -/
def join (e : ParameterEntry) (g : ParameterGroup Site) : ParameterGroup Site :=
  { g with tag := g.tag.through e.tag, declarators := g.declarators ++ [e.declarator] }

/-- The groups of some entries behind a group that is still open. -/
def gather (current : ParameterGroup Site) : List ParameterEntry → List (ParameterGroup Site)
  | [] => [current]
  | e :: es =>
    if e.opens then current :: gather (e.group current.isLocal) es else gather (e.join current) es

/-- The groups of the entries of a header; the first entry opens one in any case. -/
def groups : List ParameterEntry → List (ParameterGroup Site)
  | [] => []
  | e :: es => gather (e.group false) es

end ParameterEntry

/-! ### Ports -/

/-- An entry of a header port list. -/
structure PortEntry where
  tag : Site
  direction : Option Direction
  net : Option Keyword
  type : Option (DataType Site)
  declarator : Declarator Site

namespace PortEntry

/-- Whether the entry opens a group. -/
def opens (e : PortEntry) : Bool := e.direction.isSome || e.net.isSome || e.type.isSome

/-- The group that the entry opens where a direction is inherited. -/
def group (e : PortEntry) (inherited : Direction) : PortGroup Site :=
  ⟨e.tag, e.direction.getD inherited, e.net, e.type, [e.declarator]⟩

/-- A group with the entry added at its end. -/
def join (e : PortEntry) (g : PortGroup Site) : PortGroup Site :=
  { g with tag := g.tag.through e.tag, declarators := g.declarators ++ [e.declarator] }

/-- The groups of some entries behind a group that is still open. -/
def gather (current : PortGroup Site) : List PortEntry → List (PortGroup Site)
  | [] => [current]
  | e :: es =>
    if e.opens then current :: gather (e.group current.direction) es
    else gather (e.join current) es

end PortEntry

end SystemVerilog
