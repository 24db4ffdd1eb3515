import SystemVerilog.Grammar.Declaration
import SystemVerilog.Proofs.Expression.Spelling
import SystemVerilog.Proofs.Tree.Map

/-!
# Canonical statements

A statement is canonical if it can be written down so that it is read back as it is: its expressions
are canonical, what stands alone as a statement acts, no `else` is claimed by an inner conditional, and
no name with a dollar sign is spelled like a word that opens or closes a block.
-/

namespace SystemVerilog

variable {α : Type}

/-! ### Expressions in statements -/

/-- Names spelled like the words whose pairs are counted when a statement is read. -/
def blockNames : List String := ["$begin", "$end", "$case", "$casez", "$casex", "$endcase"]

/-- The operators that change their operand. -/
def UnaryOp.isStep : UnaryOp → Bool
  | preIncrement | preDecrement | postIncrement | postDecrement => true
  | _ => false

namespace Expr

/-- No name with a dollar sign is spelled like a block word. -/
def Unblocked (e : Expr α) : Prop := ∀ name ∈ e.systemNames, name ∉ blockNames

/-- An expression that may stand anywhere in a statement. -/
def Embeds (e : Expr α) : Prop := e.Canonical .compares ∧ e.Unblocked

/-- An expression that may stand for a statement: an assignment to an operand, an increment or
decrement, or a call. -/
def Acts : Expr α → Prop
  | assignment _ _ target value =>
    postfixPower ≤ target.level ∧ target.Canonical .compares ∧ value.Canonical .compares
  | unary tag op operand => op.isStep = true ∧ (unary tag op operand).Canonical .compares
  | call tag callee parens args => (call tag callee parens args).Canonical .compares
  | _ => False

/-- Whether an expression is an assignment. -/
def isAssignment : Expr α → Bool
  | assignment _ _ _ _ => true
  | _ => false

/-- Whether an expression starts with an increment or decrement of its operand. -/
def startsWithStep : Expr α → Bool
  | unary _ op _ => op.isStep && !op.isPostfix
  | _ => false

end Expr

/-! ### Parts of statements -/

def Bounds.Canonical (b : Bounds α) : Prop := b.left.Embeds ∧ b.right.Embeds

/-- A data type that can be spelled: it does not lack everything, and has a signing and packed
dimensions only where its keyword admits them. -/
structure DataType.Canonical (type : DataType α) : Prop where
  keyword : ∀ k, type.keyword = some k → k.namesDataType = true
  present : type.keyword = none → type.signing = none → type.packed ≠ []
  signing : type.signing ≠ none → Parser.admitsSigning type.keyword = true
  packed : type.packed ≠ [] → Parser.admitsPacked type.keyword = true
  bounds : ∀ b ∈ type.packed, b.Canonical

/-- The magnitude of a delay is a plain integer or stands in parentheses. -/
def Delay.Canonical (delay : Delay α) : Prop :=
  delay.magnitude.Embeds ∧
    ((∃ tag text, delay.magnitude = .literal tag .integer text) ∨
      ∃ tag inner, delay.magnitude = .parenthesis tag inner)

/-- An event control waits for at least one event, unless it has a star and then for none. -/
def Sensitivity.Canonical (sensitivity : Sensitivity α) : Prop :=
  (sensitivity.star = true ↔ sensitivity.events = []) ∧ ∀ event ∈ sensitivity.events, event.expr.Embeds

def LoopInit.Canonical (init : LoopInit α) : Prop :=
  (∀ type, init.type = some type → type.Canonical) ∧ init.assignment.isAssignment = true ∧
    init.assignment.Acts ∧ init.assignment.Unblocked

structure LoopHeader.Canonical (header : LoopHeader α) : Prop where
  init : ∀ init, header.init = some init → init.Canonical
  condition : ∀ e, header.condition = some e → e.Embeds
  step : ∀ e, header.step = some e → e.Acts ∧ e.Unblocked

/-! ### Statements -/

namespace Statement

/-- Whether a statement ends in a conditional without `else`, which would claim one. -/
def endsOpen : Statement α → Bool
  | ifElse _ _ _ none => true
  | ifElse _ _ _ (some elseBranch) => elseBranch.endsOpen
  | loop _ _ body | delayed _ _ body | event _ _ body => body.endsOpen
  | block _ _ _ | caseOf _ _ _ _ _ | expression _ _ | empty _ => false

/-- Whether a statement starts with an increment or decrement. -/
def startsWithStep : Statement α → Bool
  | expression _ e => e.startsWithStep
  | _ => false

mutual

/-- The statement can be written down so that it is read back as it is. -/
def Canonical : Statement α → Prop
  | block _ _ statements => CanonicalAll statements
  | ifElse _ condition thenBranch elseBranch =>
    condition.Embeds ∧ thenBranch.Canonical ∧ CanonicalOption elseBranch ∧
      (elseBranch.isSome = true → thenBranch.endsOpen = false)
  | caseOf _ _ selector items default =>
    selector.Embeds ∧ CanonicalItems items ∧ CanonicalOption default
  | loop _ header body => header.Canonical ∧ body.Canonical
  | delayed _ delay body => delay.Canonical ∧ body.Canonical ∧ body.startsWithStep = false
  | event _ sensitivity body => sensitivity.Canonical ∧ body.Canonical
  | expression _ e => e.Acts ∧ e.Unblocked
  | empty _ => True

def CanonicalAll : List (Statement α) → Prop
  | [] => True
  | s :: ss => s.Canonical ∧ CanonicalAll ss

def CanonicalOption : Option (Statement α) → Prop
  | none => True
  | some s => s.Canonical

/-- Every case item has a label. -/
def CanonicalItems : List (CaseItem α (Statement α)) → Prop
  | [] => True
  | ⟨_, labels, body⟩ :: items =>
    labels ≠ [] ∧ (∀ e ∈ labels, e.Embeds) ∧ body.Canonical ∧ CanonicalItems items

end

theorem canonicalAll_iff {ss : List (Statement α)} : CanonicalAll ss ↔ ∀ s ∈ ss, s.Canonical := by
  induction ss with
  | nil => simp [CanonicalAll]
  | cons s ss ih => rw [CanonicalAll, ih, List.forall_mem_cons]

theorem canonicalOption_iff {o : Option (Statement α)} : CanonicalOption o ↔ ∀ s ∈ o, s.Canonical := by
  cases o <;> simp [CanonicalOption]

theorem canonicalItems_iff {items : List (CaseItem α (Statement α))} : CanonicalItems items ↔
    ∀ item ∈ items, item.labels ≠ [] ∧ (∀ e ∈ item.labels, e.Embeds) ∧ item.body.Canonical := by
  induction items with
  | nil => simp [CanonicalItems]
  | cons item items ih => rw [CanonicalItems, ih, List.forall_mem_cons, and_assoc, and_assoc]

end Statement

/-! ### What an acting expression is where `<=` assigns -/

namespace Expr

/-- The left edge of an operand holds neither `<=` nor an assignment. -/
theorem canonical_of_postfixPower (reading : LessEqualReading) : ∀ {e : Expr α},
    postfixPower ≤ e.level → e.Canonical .compares → e.Canonical reading
  | identifier _ _, _, _ => trivial
  | systemIdentifier _ _, _, _ => trivial
  | literal _ _ _, _, _ => trivial
  | unary _ op operand, hl, hc => by
    unfold Canonical at hc ⊢
    unfold level at hl
    split at hc
    · rename_i hp
      rw [if_pos hp]
      exact ⟨hc.1, canonical_of_postfixPower reading hc.1 hc.2⟩
    · rename_i hp
      rw [if_neg hp]
      exact hc
  | binary _ op _ _, hl, _ => by
    have hpower := op.power_bounds.2.1
    have hlevel : 160 ≤ op.power := hl
    omega
  | parenthesis _ _, _, hc => hc
  | index _ target _, _, hc => ⟨hc.1, canonical_of_postfixPower reading hc.1 hc.2.1, hc.2.2⟩
  | slice _ _ target _ _, _, hc => ⟨hc.1, canonical_of_postfixPower reading hc.1 hc.2.1, hc.2.2⟩
  | conditional _ _ _ _, hl, _ => absurd (show 160 ≤ 30 from hl) (by decide)
  | assignment _ _ _ _, hl, _ => absurd (show 160 ≤ 10 from hl) (by decide)
  | delayedAssignment _ _ _ _ _ _ _, _, hc => hc
  | concatenation _ _, _, hc => hc
  | replication _ _ _, _, hc => hc
  | arrayPattern _ _, _, hc => hc
  | call _ _ _ _, _, hc => hc
  | member _ target _, _, hc => ⟨hc.1, canonical_of_postfixPower reading hc.1 hc.2⟩
  | scope _ outer _, _, hc => ⟨hc.1, canonical_of_postfixPower reading hc.1 hc.2⟩

/-- What acts is canonical at the head of a statement. -/
theorem Acts.canonical {e : Expr α} (h : e.Acts) : e.Canonical .assigns := by
  cases e with
  | assignment tag op target value =>
    obtain ⟨hlevel, htarget, hvalue⟩ := h
    have hassign : assignPower < target.level := Nat.lt_of_lt_of_le (by decide) hlevel
    have hcompare : BinaryOp.lessEqual.power ≤ target.level := Nat.le_trans (by decide) hlevel
    exact ⟨fun _ => ⟨rfl, hcompare⟩, hassign, canonical_of_postfixPower _ hlevel htarget, hvalue⟩
  | unary tag op operand =>
    obtain ⟨-, hcan⟩ := h
    by_cases hp : op.isPostfix = true
    · have hlevel : (unary tag op operand).level = postfixPower := by rw [level, if_pos hp]
      exact canonical_of_postfixPower _ (Nat.le_of_eq hlevel.symm) hcan
    · rw [Canonical, if_neg hp] at hcan ⊢
      exact hcan
  | call tag callee parens args => exact h
  | _ => exact h.elim

end Expr

end SystemVerilog
