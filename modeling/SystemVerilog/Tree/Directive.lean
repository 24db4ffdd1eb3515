import SystemVerilog.Tree.Words

/-!
# Directives

A directive is recorded with its arguments and never carried out. A conditional region is recorded
by the tag of what was skipped.
-/

namespace SystemVerilog

/-- A time of one, ten or a hundred units. -/
structure TimeValue where
  magnitude : Nat
  unit : TimeUnit
  deriving DecidableEq, Repr, Inhabited

/-- What a directive says. -/
inductive DirectiveKind (α : Type) where
  | resetAll
  | cellDefine
  | endCellDefine
  | beginKeywords (version : String)
  | endKeywords
  | includeFile (path : String)
  | timescale (unit precision : TimeValue)
  | defaultNettype (netType : String)
  | unconnectedDrive (pull : Keyword)
  | noUnconnectedDrive
  /-- A region that depends on a macro; its contents were skipped. -/
  | conditional (negated : Bool) (macroName : String) (skipped : α)

/-- A directive at its place. -/
structure Directive (α : Type) where
  tag : α
  kind : DirectiveKind α

end SystemVerilog
