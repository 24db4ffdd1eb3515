import SystemVerilog.Grammar.Precedence
import SystemVerilog.Token.Basic
import SystemVerilog.Tree.Expr

/-!
# Canonical expressions

The level of an expression is the power of its root, and an expression is canonical if every operand
stands at a level that its operator admits, so that it can be written without further parentheses.
The spellings of operators are given from the side of the tree (`UnaryOp.kinds`, `BinaryOp.kinds`,
`AssignOp.kind`) and agree with what the tokens mean to the grammar.
-/

namespace SystemVerilog

/-! ### Spellings of operators -/

namespace UnaryOp

/-- Whether an operator stands behind its operand. -/
def isPostfix : UnaryOp → Bool
  | postIncrement | postDecrement => true
  | _ => false

/-- The kinds of tokens that spell an operator; two of them spell `xnor`. -/
def kinds : UnaryOp → List TokenKind
  | plus => [.op .add]
  | minus => [.op .sub]
  | logicNot => [.op .logicNot]
  | bitNot => [.op .bitNot]
  | reduceAnd => [.op .bitAnd]
  | reduceOr => [.op .bitOr]
  | reduceXor => [.op .bitXor]
  | reduceNand => [.op .bitNand]
  | reduceNor => [.op .bitNor]
  | reduceXnor => [.op .bitXnor, .op .bitXnorAlt]
  | preIncrement | postIncrement => [.op .selfIncrement]
  | preDecrement | postDecrement => [.op .selfDecrement]

theorem ofKind?_eq_some_iff {kind : TokenKind} {op : UnaryOp} :
    ofKind? kind = some op ↔ op.isPostfix = false ∧ kind ∈ op.kinds := by
  constructor
  · unfold ofKind?
    split <;> intro h <;> cases h <;> decide
  · rintro ⟨hp, hk⟩
    cases op <;> simp [kinds, isPostfix] at hp hk <;>
      first | (subst hk; rfl) | (rcases hk with rfl | rfl <;> rfl)

end UnaryOp

namespace BinaryOp

/-- The kinds of tokens that spell an operator; two of them spell `xnor`. -/
def kinds : BinaryOp → List TokenKind
  | pow => [.op .pow]
  | mul => [.op .mul]
  | div => [.op .div]
  | mod => [.op .mod]
  | add => [.op .add]
  | sub => [.op .sub]
  | logicLeftShift => [.op .logicLeftShift]
  | logicRightShift => [.op .logicRightShift]
  | arithLeftShift => [.op .arithLeftShift]
  | arithRightShift => [.op .arithRightShift]
  | lessThan => [.op .lessThan]
  | lessEqual => [.op .lessEqual]
  | greaterThan => [.op .greaterThan]
  | greaterEqual => [.op .greaterEqual]
  | inside => [.word .kwInside]
  | equal => [.op .equal]
  | inequal => [.op .inequal]
  | caseEqual => [.op .caseEqual]
  | caseInequal => [.op .caseInequal]
  | wildcardEqual => [.op .wildcardEqual]
  | wildcardInequal => [.op .wildcardInequal]
  | bitAnd => [.op .bitAnd]
  | bitNand => [.op .bitNand]
  | bitXor => [.op .bitXor]
  | bitXnor => [.op .bitXnor, .op .bitXnorAlt]
  | bitOr => [.op .bitOr]
  | bitNor => [.op .bitNor]
  | logicAnd => [.op .logicAnd]
  | logicOr => [.op .logicOr]
  | implication => [.op .implication]
  | equivalence => [.op .equivalence]

theorem ofKind?_eq_some_iff {kind : TokenKind} {op : BinaryOp} :
    ofKind? kind = some op ↔ kind ∈ op.kinds := by
  constructor
  · unfold ofKind?
    split <;> intro h <;> cases h <;> decide
  · intro hk
    cases op <;> simp [kinds] at hk <;> first | (subst hk; rfl) | (rcases hk with rfl | rfl <;> rfl)

theorem power_bounds (op : BinaryOp) : 20 ≤ op.power ∧ op.power ≤ 140 ∧ op.power ≠ 30 := by
  cases op <;> decide

end BinaryOp

namespace AssignOp

/-- The kind of token that spells an assignment. -/
def kind : AssignOp → TokenKind
  | assign => .op .assignment
  | nonBlocking => .op .lessEqual
  | add => .op .addAssignment
  | sub => .op .subAssignment
  | mul => .op .mulAssignment
  | div => .op .divAssignment
  | mod => .op .modAssignment
  | bitAnd => .op .bitAndAssignment
  | bitOr => .op .bitOrAssignment
  | bitXor => .op .bitXorAssignment
  | logicLeftShift => .op .logicLeftShiftAssignment
  | logicRightShift => .op .logicRightShiftAssignment
  | arithLeftShift => .op .arithLeftShiftAssignment
  | arithRightShift => .op .arithRightShiftAssignment

theorem ofKind?_eq_some_iff {reading : LessEqualReading} {kind : TokenKind} {op : AssignOp} :
    ofKind? reading kind = some op ↔ kind = op.kind ∧ (op = nonBlocking → reading = .assigns) := by
  constructor
  · unfold ofKind?
    split <;> (try split) <;> intro h <;> cases h <;> simp [AssignOp.kind]
  · rintro ⟨rfl, hr⟩
    cases op <;> first | rfl | (rw [hr rfl]; rfl)

end AssignOp

/-! ### Levels -/

namespace Expr

variable {α : Type}

/-- The power of the root of an expression. -/
def level : Expr α → Nat
  | assignment _ _ _ _ | delayedAssignment _ _ _ _ _ _ _ => assignPower
  | conditional _ _ _ _ => conditionalPower
  | binary _ op _ _ => op.power
  | unary _ op _ => if op.isPostfix then postfixPower else prefixPower
  | _ => postfixPower

/-- Whether an expression is a name, plain or with a dollar sign. -/
def isName : Expr α → Bool
  | identifier _ _ | systemIdentifier _ _ => true
  | _ => false

mutual

/-- Every operand stands at a level that its operator admits, there is no delay, and what is called
has a name. Along the left edge of the expression `<=` has the given reading; everywhere else it
compares. -/
def Canonical : LessEqualReading → Expr α → Prop
  | _, identifier _ _ | _, systemIdentifier _ _ | _, literal _ _ _ => True
  | reading, unary _ op operand =>
    if op.isPostfix then postfixPower ≤ operand.level ∧ operand.Canonical reading
    else prefixPower ≤ operand.level ∧ operand.Canonical .compares
  | reading, binary _ op lhs rhs =>
    (op = .lessEqual → reading = .compares) ∧ op.power ≤ lhs.level ∧ op.power < rhs.level ∧
      lhs.Canonical reading ∧ rhs.Canonical .compares
  | _, parenthesis _ inner => inner.Canonical .compares
  | reading, index _ target subscript =>
    postfixPower ≤ target.level ∧ target.Canonical reading ∧ subscript.Canonical .compares
  | reading, slice _ _ target left right =>
    postfixPower ≤ target.level ∧ target.Canonical reading ∧ left.Canonical .compares ∧
      right.Canonical .compares
  | reading, conditional _ condition thenExpr elseExpr =>
    conditionalPower < condition.level ∧ conditionalPower ≤ elseExpr.level ∧
      condition.Canonical reading ∧ thenExpr.Canonical .compares ∧ elseExpr.Canonical .compares
  | reading, assignment _ op target value =>
    (op = .nonBlocking → reading = .assigns ∧ BinaryOp.lessEqual.power ≤ target.level) ∧
      assignPower < target.level ∧ target.Canonical reading ∧ value.Canonical .compares
  | _, delayedAssignment _ _ _ _ _ _ _ => False
  | _, concatenation _ items => items ≠ [] ∧ AllCanonical items
  | _, replication _ count items => count.Canonical .compares ∧ AllCanonical items
  | _, arrayPattern _ items => AllCanonical items
  | _, call _ callee _ args => callee.isName = true ∧ AllCanonical args
  | reading, member _ target _ => postfixPower ≤ target.level ∧ target.Canonical reading
  | reading, scope _ outer _ => postfixPower ≤ outer.level ∧ outer.Canonical reading

/-- All of some expressions are canonical where `<=` compares. -/
def AllCanonical : List (Expr α) → Prop
  | [] => True
  | e :: es => e.Canonical .compares ∧ AllCanonical es

end

/-- The floor above which the last operand of an expression has been read; a connective behind the
expression that does not bind tighter is left alone. -/
def tailFloor : Expr α → Nat
  | assignment _ _ _ _ | delayedAssignment _ _ _ _ _ _ _ => assignPower - 1
  | conditional _ _ _ _ => conditionalPower - 1
  | binary _ op _ _ => op.power
  | unary _ op _ => if op.isPostfix then postfixPower else prefixPower
  | _ => postfixPower

/-- The root is an assignment, a conditional, or an operator whose last operand stands above it. -/
theorem tailFloor_cases (e : Expr α) :
    (e.level = 10 ∧ e.tailFloor = 9) ∨ (e.level = 30 ∧ e.tailFloor = 29) ∨
      (e.tailFloor = e.level ∧ 20 ≤ e.level ∧ e.level ≠ 30) := by
  unfold level tailFloor
  split
  · exact .inl ⟨rfl, rfl⟩
  · exact .inl ⟨rfl, rfl⟩
  · exact .inr (.inl ⟨rfl, rfl⟩)
  · rename_i op _ _
    obtain ⟨h₁, -, h₂⟩ := op.power_bounds
    exact .inr (.inr ⟨rfl, h₁, h₂⟩)
  · refine .inr (.inr ⟨rfl, ?_⟩)
    split <;> decide
  · exact .inr (.inr ⟨rfl, by decide, by decide⟩)

theorem assignPower_le_level (e : Expr α) : assignPower ≤ e.level := by
  have := e.tailFloor_cases
  simp only [assignPower]
  omega

/-- Every expression can be read above the least floor. -/
theorem one_le_level (e : Expr α) : min (0 + 1) prefixPower ≤ e.level :=
  Nat.le_trans (by decide) e.assignPower_le_level

end Expr

/-! ### Connectives behind an expression -/

namespace Connective

variable {reading : LessEqualReading} {kind : TokenKind} {k : Connective}

/-- What a token has to be to stand for a connective. -/
def Marks (reading : LessEqualReading) (kind : TokenKind) : Connective → Prop
  | select => kind = .op .lBracket
  | scope => kind = .op .scopeResolution
  | member => kind = .op .dot
  | postfixOp op => op.isPostfix = true ∧ kind ∈ op.kinds
  | conditional => kind = .op .questionMark
  | assignment op => kind = op.kind ∧ (op = .nonBlocking → reading = .assigns)
  | binary op => kind ∈ op.kinds ∧ (op = .lessEqual → reading = .compares)

theorem ofKind?_eq_some_iff : ofKind? reading kind = some k ↔ k.Marks reading kind := by
  constructor
  · intro h
    unfold ofKind? at h
    split at h
    case h_7 =>
      split at h
      · rename_i op hop
        cases h
        exact AssignOp.ofKind?_eq_some_iff.1 hop
      · rename_i hnone
        obtain ⟨op, hop, rfl⟩ := Option.map_eq_some_iff.1 h
        have hkind := BinaryOp.ofKind?_eq_some_iff.1 hop
        refine ⟨hkind, fun hle => ?_⟩
        subst hle
        obtain rfl := List.mem_singleton.1 hkind
        cases reading with
        | assigns => cases hnone
        | compares => rfl
    case h_4 => cases h; exact ⟨rfl, List.mem_singleton.2 rfl⟩
    case h_5 => cases h; exact ⟨rfl, List.mem_singleton.2 rfl⟩
    all_goals cases h; rfl
  · intro h
    cases k with
    | select => rw [show kind = _ from h]; rfl
    | scope => rw [show kind = _ from h]; rfl
    | member => rw [show kind = _ from h]; rfl
    | conditional => rw [show kind = _ from h]; rfl
    | postfixOp op =>
      obtain ⟨hp, hk⟩ := h
      cases op <;> cases hp <;> rw [List.mem_singleton.1 hk] <;> rfl
    | assignment op =>
      obtain ⟨rfl, hr⟩ := h
      cases op <;> first | rfl | (rw [hr rfl]; rfl)
    | binary op =>
      obtain ⟨hk, hr⟩ := h
      revert kind
      cases op <;> first | (rw [hr rfl]; decide) | (cases reading <;> decide)

theorem power_bounds (k : Connective) : 10 ≤ k.power ∧ k.power ≤ 160 := by
  cases k with
  | binary op =>
    obtain ⟨h₁, h₂, -⟩ := op.power_bounds
    exact ⟨Nat.le_trans (by decide) h₁, Nat.le_trans h₂ (by decide)⟩
  | conditional => decide
  | assignment op => exact ⟨Nat.le_refl 10, by show 10 ≤ 160; decide⟩
  | select | scope | member | postfixOp op => exact ⟨by show 10 ≤ 160; decide, Nat.le_refl 160⟩

/-- The least level of the left operand. What stands before a non-blocking assignment must not take
its mark for a relation. -/
def leftLevel : Connective → Nat
  | binary op => op.power
  | conditional => conditionalPower + 1
  | assignment op => if op = .nonBlocking then BinaryOp.lessEqual.power else assignPower + 1
  | select | scope | member | postfixOp _ => postfixPower

theorem power_le_leftLevel (k : Connective) : k.power ≤ k.leftLevel := by
  cases k with
  | binary op => exact Nat.le_refl _
  | assignment op =>
    rw [leftLevel]
    split
    · exact Nat.le_of_lt (by show 10 < 100; decide)
    · exact Nat.le_succ _
  | conditional => exact Nat.le_succ _
  | select | scope | member | postfixOp => exact Nat.le_refl _

theorem power_le_or_eq (k : Connective) : k.power ≤ 140 ∨ k.power = 160 := by
  cases k with
  | binary op => exact .inl op.power_bounds.2.1
  | conditional => exact .inl (by show 30 ≤ 140; decide)
  | assignment => exact .inl (by show 10 ≤ 140; decide)
  | select | scope | member | postfixOp => exact .inr rfl

theorem lt_power (k : Connective) {floor : Nat} (hf : floor ≤ prefixPower)
    (h : min (floor + 1) prefixPower ≤ k.power) : floor < k.power := by
  have := k.power_le_or_eq
  simp only [prefixPower] at hf h
  omega

/-- The readings agree on every connective but the non-blocking assignment. -/
theorem compares_of_ofKind? (h : ofKind? reading kind = some k) :
    (ofKind? .compares kind = some k ∧ k ≠ assignment .nonBlocking) ∨
      (k = assignment .nonBlocking ∧ ofKind? .compares kind = some (binary .lessEqual)) := by
  simp only [ofKind?_eq_some_iff] at h ⊢
  cases k with
  | assignment op =>
    obtain ⟨hk, -⟩ := h
    by_cases hop : op = .nonBlocking
    · subst hop
      exact .inr ⟨rfl, List.mem_singleton.2 hk, fun _ => rfl⟩
    · exact .inl ⟨⟨hk, fun hop' => absurd hop' hop⟩, by simpa using hop⟩
  | binary op => exact .inl ⟨⟨h.1, fun _ => rfl⟩, nofun⟩
  | select | scope | member | conditional | postfixOp => exact .inl ⟨h, nofun⟩

end Connective

/-- The next token is no connective that binds tighter than a floor. -/
def Quiet (reading : LessEqualReading) (floor : Nat) (rest : List Token) : Prop :=
  ∀ t us k, rest = t :: us → Connective.ofKind? reading t.kind = some k → k.power ≤ floor

section Levels

variable {α : Type} {e : Expr α} {reading : LessEqualReading} {floor : Nat} {t : Token}
  {us rest : List Token} {k : Connective}

theorem Quiet.nil : Quiet reading floor [] := fun _ _ _ h => by cases h

theorem Quiet.mono {floor' : Nat} (h : Quiet reading floor rest) (hf : floor ≤ floor') :
    Quiet reading floor' rest := fun t us k ht hk => Nat.le_trans (h t us k ht hk) hf

theorem Quiet.take (h : Quiet reading floor rest) (n : Nat) : Quiet reading floor (rest.take n) := by
  intro t us k ht hk
  rw [← List.take_append_drop n rest, ht] at h
  exact h t _ k rfl hk

theorem Quiet.of_postfixPower : Quiet reading postfixPower rest :=
  fun _ _ k _ _ => k.power_bounds.2

/-- A token that is quiet where `<=` compares is quiet where it assigns. -/
theorem Quiet.of_compares (h : Quiet .compares floor rest) : Quiet reading floor rest := by
  intro t us k ht hk
  rcases Connective.compares_of_ofKind? hk with ⟨hk', -⟩ | ⟨rfl, hk'⟩
  · exact h t us k ht hk'
  · exact Nat.le_trans (by decide) (h t us _ ht hk')

/-- A connective admits an expression as its left operand if and only if what reads the last operand
of the expression leaves it alone. -/
theorem Connective.leftLevel_le_iff (e : Expr α) (hk : k ≠ .assignment .nonBlocking) :
    k.leftLevel ≤ e.level ↔ k.power ≤ e.tailFloor := by
  have htail := e.tailFloor_cases
  cases k with
  | binary op =>
    have hop := op.power_bounds
    show op.power ≤ _ ↔ op.power ≤ _
    omega
  | assignment op =>
    rw [leftLevel, if_neg fun h => hk (congrArg _ h)]
    show 11 ≤ _ ↔ 10 ≤ _
    omega
  | conditional =>
    show 31 ≤ _ ↔ 30 ≤ _
    omega
  | select | scope | member | postfixOp =>
    show 160 ≤ _ ↔ 160 ≤ _
    omega

theorem Expr.hundred_le_level_iff (e : Expr α) : 100 ≤ e.level ↔ 100 ≤ e.tailFloor := by
  have htail := e.tailFloor_cases
  omega

theorem Expr.leftLevel_le (hq : Quiet .compares e.tailFloor (t :: us))
    (hk : Connective.ofKind? reading t.kind = some k) : k.leftLevel ≤ e.level := by
  rcases Connective.compares_of_ofKind? hk with ⟨hk', hne⟩ | ⟨rfl, hk'⟩
  · exact (Connective.leftLevel_le_iff e hne).2 (hq t us k rfl hk')
  · exact e.hundred_le_level_iff.2 (hq t us _ rfl hk')

theorem Expr.quiet_tailFloor (hle : k.leftLevel ≤ e.level)
    (hk : Connective.ofKind? reading t.kind = some k) : Quiet .compares e.tailFloor (t :: us) := by
  intro t' us' k' heq hk'
  obtain ⟨rfl, rfl⟩ := List.cons.inj heq
  rcases Connective.compares_of_ofKind? hk with ⟨hk'', hne⟩ | ⟨rfl, hk''⟩
  · obtain rfl := Option.some.inj (hk'.symm.trans hk'')
    exact (Connective.leftLevel_le_iff e hne).1 hle
  · obtain rfl := Option.some.inj (hk'.symm.trans hk'')
    exact e.hundred_le_level_iff.1 hle

/-- What follows an expression that was read above a floor does not concern its last operand. -/
theorem Quiet.tailFloor (hq : Quiet .compares floor rest) (hf : floor ≤ prefixPower)
    (hl : min (floor + 1) prefixPower ≤ e.level) : Quiet .compares e.tailFloor rest := by
  refine fun t us k ht hk => ?_
  have hle := hq t us k ht hk
  have htail := e.tailFloor_cases
  have hop := k.power_le_or_eq
  simp only [prefixPower] at hl hf
  omega

end Levels

end SystemVerilog
