import SystemVerilog.Proofs.Expression.Spelling
import SystemVerilog.Proofs.Walks.Paths

/-!
# What an expression is made of

The tokens of an expression are those of its parts and those of its own: marks, which name nothing, names that refer
to something, names behind a qualifier, and units of delays. `Expr.segments` lists the parts and the own tokens of
every shape of expression in the order of the text, and `Occupies` says that tokens are laid out as segments say, in
the parts too. A walk and the names it collects are then read off the segments.
-/

namespace SystemVerilog

/-! ### Kinds of tokens -/

namespace TokenKind

/-- Kinds behind which a name says what something is called inside something else. -/
def isQualifier : TokenKind → Bool
  | op .dot | op .scopeResolution | op .dollar => true
  | _ => false

/-- Kinds that neither name nor qualify anything. -/
def isNeutral (kind : TokenKind) : Bool := !kind.isName && !kind.isQualifier

variable {kind : TokenKind}

theorem isName_of_isNeutral (h : kind.isNeutral = true) : kind.isName = false :=
  Bool.not_eq_true' _ ▸ (Bool.and_eq_true_iff.1 h).1

theorem isQualifier_of_isNeutral (h : kind.isNeutral = true) : kind.isQualifier = false :=
  Bool.not_eq_true' _ ▸ (Bool.and_eq_true_iff.1 h).2

theorem isQualifier_of_isWord (h : kind.isWord = true) : kind.isQualifier = false := by
  cases kind <;> first | rfl | cases h

theorem isQualifier_of_isName (h : kind.isName = true) : kind.isQualifier = false := by
  cases kind <;> first | rfl | cases h

theorem isName_of_isQualifier (h : kind.isQualifier = true) : kind.isName = false := by
  cases hname : kind.isName with
  | false => rfl
  | true => rw [isQualifier_of_isName hname] at h; cases h

theorem isNeutral_unary {op : UnaryOp} (h : kind ∈ op.kinds) : kind.isNeutral = true := by
  revert kind
  cases op <;> decide

theorem isNeutral_binary {op : BinaryOp} (h : kind ∈ op.kinds) : kind.isNeutral = true := by
  revert kind
  cases op <;> decide

theorem isNeutral_assign (op : AssignOp) : op.kind.isNeutral = true := by cases op <;> decide

theorem isNeutral_separator (slice : SliceKind) : slice.separator.isNeutral = true := by cases slice <;> decide

theorem isNeutral_of_literalKind? {t : Token} {literal : LiteralKind} (h : t.literalKind? = some literal) :
    t.kind.isNeutral = true := by
  unfold Token.literalKind? at h
  split at h
  · rw [show t.kind = .literal from ‹_›]
    rfl
  · rw [show t.kind = .stringLiteral from ‹_›]
    rfl
  · cases h

theorem isName_of_unit {unit : TimeUnit} (h : TimeUnit.ofKind? kind = some unit) : kind.isName = true := by
  unfold TimeUnit.ofKind? at h
  split at h <;> first | rfl | cases h

end TokenKind

/-! ### Segments -/

/-- What stands in an expression. -/
inductive Segment where
  /-- A token that names nothing. -/
  | mark
  /-- A qualifier and the word behind it. -/
  | qualified
  /-- The unit of a delay, which is the token at an index. -/
  | unit (index : Nat)
  /-- A name that refers to something. -/
  | name (text : String)
  | part (e : Expr Site)

namespace Segment

/-- Expressions with a comma before each. -/
def led (es : List (Expr Site)) : List Segment := es.flatMap fun e => [mark, part e]

/-- Expressions with commas between them. -/
def listed : List (Expr Site) → List Segment
  | [] => []
  | e :: es => part e :: led es

/-- The unit of a delay, which is its last token, if it has one. -/
def ofUnit (delay : Site) : Option TimeUnit → List Segment
  | none => []
  | some _ => [unit (delay.range.stop - 1)]

/-- The walk of a part. -/
def walk : Segment → List (Expr Site)
  | part e => e.walk
  | _ => []

/-- The names that a segment refers to. -/
def names : Segment → List String
  | name text => [text]
  | part e => e.identifiers
  | _ => []

end Segment

namespace Expr

/-- The parts of an expression and its own tokens, in the order of the text. -/
def segments : Expr Site → List Segment
  | identifier _ name => [.name name]
  | systemIdentifier .. => [.qualified]
  | literal .. => [.mark]
  | unary _ op operand => if op.isPostfix then [.part operand, .mark] else [.mark, .part operand]
  | binary _ _ lhs rhs => [.part lhs, .mark, .part rhs]
  | parenthesis _ inner => [.mark, .part inner, .mark]
  | index _ target subscript => [.part target, .mark, .part subscript, .mark]
  | slice _ _ target left right => [.part target, .mark, .part left, .mark, .part right, .mark]
  | conditional _ condition thenExpr elseExpr => [.part condition, .mark, .part thenExpr, .mark, .part elseExpr]
  | assignment _ _ target value => [.part target, .mark, .part value]
  | delayedAssignment _ _ target delay magnitude unit value =>
    [.part target, .mark, .mark, .part magnitude] ++ (Segment.ofUnit delay unit ++ [.part value])
  | concatenation _ items => .mark :: (Segment.listed items ++ [.mark])
  | replication _ count items =>
    .mark :: ([.part count] ++ .mark :: (Segment.listed items ++ [.mark]) ++ [.mark])
  | arrayPattern _ items => [.mark] ++ .mark :: (Segment.listed items ++ [.mark])
  | call _ callee _ args => .part callee :: .mark :: (Segment.listed args ++ [.mark])
  | member _ target _ => [.part target, .qualified]
  | scope _ outer _ => [.part outer, .qualified]

/-- The unit of a delay that an expression records: the index of its token. -/
def unitIndex? : Expr Site → Option Nat
  | delayedAssignment _ _ _ delay _ (some _) _ => some (delay.range.stop - 1)
  | _ => none

/-- The indices of the tokens that are recorded as the units of delays. -/
def unitIndices (e : Expr Site) : List Nat := e.walk.filterMap unitIndex?

end Expr

/-- The indices of the units of delays in a segment. -/
def Segment.unitIndices : Segment → List Nat
  | unit index => [index]
  | part e => e.unitIndices
  | _ => []

/-! ### Reading off the segments -/

section Lists

variable {β : Type} {f : Segment → List β} (es : List (Expr Site))

theorem Segment.flatMap_led (h : f .mark = []) : (Segment.led es).flatMap f = es.flatMap fun e => f (.part e) := by
  simp [Segment.led, List.flatMap_assoc, h]

theorem Segment.flatMap_listed (h : f .mark = []) :
    (Segment.listed es).flatMap f = es.flatMap fun e => f (.part e) := by
  cases es with
  | nil => rfl
  | cons e es => rw [Segment.listed, List.flatMap_cons, flatMap_led es h, List.flatMap_cons]

@[simp] theorem Segment.walk_listed : (Segment.listed es).flatMap Segment.walk = es.flatMap Expr.walk :=
  flatMap_listed es rfl

@[simp] theorem Segment.names_listed : (Segment.listed es).flatMap Segment.names = es.flatMap Expr.identifiers :=
  flatMap_listed es rfl

@[simp] theorem Segment.unitIndices_listed :
    (Segment.listed es).flatMap Segment.unitIndices = es.flatMap Expr.unitIndices :=
  flatMap_listed es rfl

end Lists

namespace Expr

/-- An expression is walked part by part. -/
theorem walk_eq_segments (e : Expr Site) : e.walk = e :: e.segments.flatMap Segment.walk := by
  rw [walk_eq_cons_parts]
  cases e with
  | unary tag op operand =>
    rw [parts, segments]
    split <;> simp [Segment.walk]
  | delayedAssignment tag op target delay magnitude unit value =>
    cases unit <;> simp [parts, segments, Segment.ofUnit, Segment.walk]
  | _ => simp [parts, segments, Segment.walk]

/-- An expression has a token of its own. -/
theorem segments_ne_part (e part : Expr Site) : e.segments ≠ [.part part] := by
  cases e with
  | unary tag op operand =>
    rw [segments]
    split <;> simp
  | _ => simp [segments]

theorem segments_ne_nil (e : Expr Site) : e.segments ≠ [] := by
  cases e with
  | unary tag op operand =>
    rw [segments]
    split <;> simp
  | _ => simp [segments]

/-- The names that a walk collects are those in the segments. -/
theorem identifiers_eq_segments (e : Expr Site) : e.identifiers = e.segments.flatMap Segment.names := by
  have hparts : e.identifiers = e.asIdentifier?.toList ++ e.parts.flatMap identifiers := by
    rw [identifiers, walk_eq_cons_parts, List.filterMap_cons, List.filterMap_flatMap]
    cases e.asIdentifier? <;> rfl
  rw [hparts]
  cases e with
  | unary tag op operand =>
    rw [parts, segments]
    split <;> simp [Segment.names, asIdentifier?]
  | delayedAssignment tag op target delay magnitude unit value =>
    cases unit <;> simp [parts, segments, Segment.ofUnit, Segment.names, asIdentifier?]
  | _ => simp [parts, segments, Segment.names, asIdentifier?]

/-- The units of delays are those in the segments. A walk comes by the unit of an expression before those of the
parts in front of it, so the two lists may differ in their order. -/
theorem mem_unitIndices_iff {e : Expr Site} {i : Nat} :
    i ∈ e.unitIndices ↔ i ∈ e.segments.flatMap Segment.unitIndices := by
  have hparts : e.unitIndices = e.unitIndex?.toList ++ e.parts.flatMap unitIndices := by
    rw [unitIndices, walk_eq_cons_parts, List.filterMap_cons, List.filterMap_flatMap]
    cases e.unitIndex? <;> rfl
  rw [hparts]
  cases e with
  | unary tag op operand =>
    rw [parts, segments]
    split <;> simp [Segment.unitIndices, unitIndex?]
  | delayedAssignment tag op target delay magnitude unit value =>
    cases unit with
    | none => simp [parts, segments, Segment.ofUnit, Segment.unitIndices, unitIndex?]
    | some unit =>
      simp only [parts, segments, Segment.ofUnit, Segment.unitIndices, unitIndex?, Option.toList_some,
        List.flatMap_append, List.flatMap_cons, List.flatMap_nil, List.mem_append, List.mem_singleton,
        List.not_mem_nil, or_false, false_or]
      rw [or_left_comm, or_assoc, or_left_comm (a := i = _)]
  | _ => simp [parts, segments, Segment.unitIndices, unitIndex?]

end Expr

end SystemVerilog
