import SystemVerilog.Text.Location

/-!
# Sites of tree nodes

Every node of a syntax tree carries a tag. In the trees that the grammar reads the tag is a `Site`:
the place where the node starts and the range of tokens that it was read from.
-/

namespace SystemVerilog

/-- A half-open range of token indices. -/
structure TokenRange where
  start : Nat
  stop : Nat
  deriving DecidableEq, Repr, Inhabited

namespace TokenRange

/-- The number of tokens; none if the range is reversed. -/
def length (range : TokenRange) : Nat := range.stop - range.start

/-- Whether a range holds no token. -/
def isEmpty (range : TokenRange) : Bool := range.length == 0

end TokenRange

/-- Where a node starts and which tokens it covers. -/
structure Site where
  location : Location
  range : TokenRange
  deriving DecidableEq, Repr, Inhabited

/-- The site that starts as one and ends as another. -/
def Site.through (first last : Site) : Site :=
  ⟨first.location, ⟨first.range.start, last.range.stop⟩⟩

end SystemVerilog
