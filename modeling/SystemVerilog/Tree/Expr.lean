import SystemVerilog.Literal.Basic
import SystemVerilog.Tree.Operators
import SystemVerilog.Tree.Words

/-!
# Expressions

`Expr α` is an expression whose every node carries a tag in `α`. Trees that differ only in their
tags are the same expression: `Expr.map` changes the tags and nothing else. `Expr.walk` lists an
expression and all its parts, and `Expr.identifiers` the names that it refers to.
-/

namespace SystemVerilog

/-- An expression with tagged nodes. -/
inductive Expr (α : Type) where
  | identifier (tag : α) (name : String)
  /-- A name that starts with a dollar sign. -/
  | systemIdentifier (tag : α) (name : String)
  | literal (tag : α) (kind : LiteralKind) (text : String)
  | unary (tag : α) (op : UnaryOp) (operand : Expr α)
  | binary (tag : α) (op : BinaryOp) (lhs rhs : Expr α)
  | parenthesis (tag : α) (inner : Expr α)
  | index (tag : α) (target subscript : Expr α)
  | slice (tag : α) (kind : SliceKind) (target left right : Expr α)
  | conditional (tag : α) (condition thenExpr elseExpr : Expr α)
  | assignment (tag : α) (op : AssignOp) (target value : Expr α)
  /-- An assignment with a delay between its operator and its value. -/
  | delayedAssignment (tag : α) (op : AssignOp) (target : Expr α) (delay : α)
      (magnitude : Expr α) (unit : Option TimeUnit) (value : Expr α)
  | concatenation (tag : α) (items : List (Expr α))
  /-- A concatenation repeated a number of times. -/
  | replication (tag : α) (count : Expr α) (items : List (Expr α))
  /-- Items between braces behind an apostrophe. -/
  | arrayPattern (tag : α) (items : List (Expr α))
  /-- A call; the arguments with their parentheses have a tag of their own. -/
  | call (tag : α) (callee : Expr α) (parens : α) (args : List (Expr α))
  | member (tag : α) (target : Expr α) (name : String)
  | scope (tag : α) (outer : Expr α) (name : String)

namespace Expr

variable {α β : Type}

/-- The tag of the root. -/
def tag : Expr α → α
  | identifier tag _ => tag
  | systemIdentifier tag _ => tag
  | literal tag _ _ => tag
  | unary tag _ _ => tag
  | binary tag _ _ _ => tag
  | parenthesis tag _ => tag
  | index tag _ _ => tag
  | slice tag _ _ _ _ => tag
  | conditional tag _ _ _ => tag
  | assignment tag _ _ _ => tag
  | delayedAssignment tag _ _ _ _ _ _ => tag
  | concatenation tag _ => tag
  | replication tag _ _ => tag
  | arrayPattern tag _ => tag
  | call tag _ _ _ => tag
  | member tag _ _ => tag
  | scope tag _ _ => tag

/-! ### Changing the tags -/

mutual

/-- The same expression with other tags. -/
def map (f : α → β) : Expr α → Expr β
  | identifier tag name => .identifier (f tag) name
  | systemIdentifier tag name => .systemIdentifier (f tag) name
  | literal tag kind text => .literal (f tag) kind text
  | unary tag op operand => .unary (f tag) op (operand.map f)
  | binary tag op lhs rhs => .binary (f tag) op (lhs.map f) (rhs.map f)
  | parenthesis tag inner => .parenthesis (f tag) (inner.map f)
  | index tag target subscript => .index (f tag) (target.map f) (subscript.map f)
  | slice tag kind target left right =>
    .slice (f tag) kind (target.map f) (left.map f) (right.map f)
  | conditional tag condition thenExpr elseExpr =>
    .conditional (f tag) (condition.map f) (thenExpr.map f) (elseExpr.map f)
  | assignment tag op target value => .assignment (f tag) op (target.map f) (value.map f)
  | delayedAssignment tag op target delay magnitude unit value =>
    .delayedAssignment (f tag) op (target.map f) (f delay) (magnitude.map f) unit (value.map f)
  | concatenation tag items => .concatenation (f tag) (mapAll f items)
  | replication tag count items => .replication (f tag) (count.map f) (mapAll f items)
  | arrayPattern tag items => .arrayPattern (f tag) (mapAll f items)
  | call tag callee parens args => .call (f tag) (callee.map f) (f parens) (mapAll f args)
  | member tag target name => .member (f tag) (target.map f) name
  | scope tag outer name => .scope (f tag) (outer.map f) name

/-- The same expressions with other tags. -/
def mapAll (f : α → β) : List (Expr α) → List (Expr β)
  | [] => []
  | e :: es => e.map f :: mapAll f es

end

theorem mapAll_eq_map (f : α → β) (es : List (Expr α)) : mapAll f es = es.map (Expr.map f) := by
  induction es with
  | nil => rfl
  | cons e es ih => rw [mapAll, ih, List.map_cons]

@[simp] theorem tag_map (f : α → β) (e : Expr α) : (e.map f).tag = f e.tag := by
  cases e <;> rfl

/-! ### Parts of an expression -/

mutual

/-- The expression and all its parts, each before its own parts and in the order of the text. -/
def walk : Expr α → List (Expr α)
  | identifier tag name => [identifier tag name]
  | systemIdentifier tag name => [systemIdentifier tag name]
  | literal tag kind text => [literal tag kind text]
  | unary tag op operand => unary tag op operand :: operand.walk
  | binary tag op lhs rhs => binary tag op lhs rhs :: (lhs.walk ++ rhs.walk)
  | parenthesis tag inner => parenthesis tag inner :: inner.walk
  | index tag target subscript => index tag target subscript :: (target.walk ++ subscript.walk)
  | slice tag kind target left right =>
    slice tag kind target left right :: (target.walk ++ (left.walk ++ right.walk))
  | conditional tag condition thenExpr elseExpr =>
    conditional tag condition thenExpr elseExpr ::
      (condition.walk ++ (thenExpr.walk ++ elseExpr.walk))
  | assignment tag op target value => assignment tag op target value :: (target.walk ++ value.walk)
  | delayedAssignment tag op target delay magnitude unit value =>
    delayedAssignment tag op target delay magnitude unit value ::
      (target.walk ++ (magnitude.walk ++ value.walk))
  | concatenation tag items => concatenation tag items :: walkAll items
  | replication tag count items => replication tag count items :: (count.walk ++ walkAll items)
  | arrayPattern tag items => arrayPattern tag items :: walkAll items
  | call tag callee parens args => call tag callee parens args :: (callee.walk ++ walkAll args)
  | member tag target name => member tag target name :: target.walk
  | scope tag outer name => scope tag outer name :: outer.walk

/-- The walks of some expressions, one after the other. -/
def walkAll : List (Expr α) → List (Expr α)
  | [] => []
  | e :: es => e.walk ++ walkAll es

end

/-- The name of a plain identifier. -/
def asIdentifier? : Expr α → Option String
  | identifier _ name => some name
  | _ => none

/-- The names of all plain identifiers in an expression, in the order of the text. -/
def identifiers (e : Expr α) : List String := e.walk.filterMap asIdentifier?

/-! ### Literals and assignments -/

/-- The radix and the digits of an integer literal. -/
def integerDigits? : Expr α → Option (Radix × List Char)
  | literal _ kind text => SystemVerilog.integerDigits? kind text.toList
  | _ => none

/-- The number that an integer literal denotes. -/
def integerValue? : Expr α → Option Nat
  | literal _ kind text => SystemVerilog.integerValue? kind text.toList
  | _ => none

/-- The operator of an assignment at the root. -/
def assigns? : Expr α → Option AssignOp
  | assignment _ op _ _ => some op
  | delayedAssignment _ op _ _ _ _ _ => some op
  | _ => none

end Expr

/-- A delay control: how long to wait. -/
structure Delay (α : Type) where
  tag : α
  magnitude : Expr α
  unit : Option TimeUnit

end SystemVerilog
