import SystemVerilog.Tree.Declaration

/-!
# Statements

Procedural statements, and the parts that they share with generate constructs: case items and loop
headers.
-/

namespace SystemVerilog

/-- What an event control waits for: an expression, or one transition of it. -/
structure Event (α : Type) where
  tag : α
  edge : Option Edge
  expr : Expr α

/-- An event control: some events, or a star for whatever its body reads. -/
structure Sensitivity (α : Type) where
  tag : α
  star : Bool
  events : List (Event α)

/-- The first clause of a loop header. -/
structure LoopInit (α : Type) where
  tag : α
  genvar : Bool
  type : Option (DataType α)
  assignment : Expr α

/-- A loop header; each of its three clauses may be missing. -/
structure LoopHeader (α : Type) where
  tag : α
  init : Option (LoopInit α)
  condition : Option (Expr α)
  step : Option (Expr α)

/-- A case item: its labels and what they select. -/
structure CaseItem (α β : Type) where
  tag : α
  labels : List (Expr α)
  body : β

/-- A procedural statement. -/
inductive Statement (α : Type) where
  | block (tag : α) (label : Option String) (statements : List (Statement α))
  | ifElse (tag : α) (condition : Expr α) (thenBranch : Statement α)
      (elseBranch : Option (Statement α))
  | caseOf (tag : α) (kind : CaseKind) (selector : Expr α)
      (items : List (CaseItem α (Statement α))) (default : Option (Statement α))
  | loop (tag : α) (header : LoopHeader α) (body : Statement α)
  | delayed (tag : α) (delay : Delay α) (body : Statement α)
  | event (tag : α) (sensitivity : Sensitivity α) (body : Statement α)
  | expression (tag : α) (expr : Expr α)
  | empty (tag : α)

/-- The tag of a statement. -/
def Statement.tag {α : Type} : Statement α → α
  | block tag _ _ => tag
  | ifElse tag _ _ _ => tag
  | caseOf tag _ _ _ _ => tag
  | loop tag _ _ => tag
  | delayed tag _ _ => tag
  | event tag _ _ => tag
  | expression tag _ => tag
  | empty tag => tag

end SystemVerilog
