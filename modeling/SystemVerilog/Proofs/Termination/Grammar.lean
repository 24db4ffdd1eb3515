import SystemVerilog.Grammar.Unit
import SystemVerilog.Proofs.Ranges.Rows
import SystemVerilog.Proofs.Reading.Units
import SystemVerilog.Proofs.Termination.Items

/-!
# The recursion of the grammar

Every routine that is read again and again reads a token each time, within its span. So all loops end, every
recursion goes on with fewer tokens, and a budget of one more nesting than tokens is as good as any larger one: no
text is refused for want of a budget.
-/

namespace SystemVerilog

open SystemVerilog.Parser

/-! ### Progress -/

/-- The cursor has moved on by a token or more, and not past its span, which is still the same. -/
structure Cursor.Advances (c c' : Cursor) : Prop where
  forward : c.position < c'.position
  inside : c'.position ≤ c.finish
  eq_skip : c' = c.skip (c'.position - c.position)

namespace EndsAt

variable {m : Type → Type} [Monad m] [MonadStateOf Cursor m] [MonadLiftT Parser m] [Runs m]
  {α : Type} {least : Nat} {c : Cursor}

theorem advances {p q : m α} (h : EndsAt 1 c p q) {c' : Cursor} {a : α} {ns ns' : List Notice}
    (hread : Runs.run p c ns = (.ok (a, c'), ns')) : c.Advances c' := by
  obtain ⟨-, hlands⟩ := h ns
  rw [hread] at hlands
  cases hlands with
  | @read _ k hk hlen =>
    have hposition : (c.skip k).position = c.position + k := by rw [Cursor.position_skip, Nat.min_eq_left hlen]
    refine ⟨by omega, by rw [Cursor.finish]; omega, ?_⟩
    rw [hposition, Nat.add_sub_cancel_left]

/-- What ends is not refused for want of a budget. -/
theorem founded {p q : m α} (h : EndsAt least c p q) {fault : Fault} {ns ns' : List Notice}
    (hread : Runs.run p c ns = (.error fault, ns')) : fault.cause ≠ .malformed .bottomless := by
  obtain ⟨-, hlands⟩ := h ns
  rw [hread] at hlands
  cases hlands with
  | failed hcause => exact hcause

end EndsAt

section Advancing

variable {m : Type → Type} [Monad m] [MonadStateOf Cursor m] [MonadLiftT Parser m] [Runs m] {α : Type} {p : m α}

/-- Everywhere the reader reads a token or more, or it fails, but not for want of a budget. -/
def Advancing (p : m α) : Prop := ∀ c, EndsAt 1 c p p

theorem Advancing.endsBelow (h : Advancing p) (bound : Nat) : EndsBelow bound p p := fun c _ => h c

end Advancing

/-! ### The recursion -/

/-- The routines that are read again and again advance. -/
structure RoutinesAdvance : Prop where
  -- the recursion
  item (depth : Depth) : Advancing (item depth)
  bodyItem : Advancing bodyItem
  generateBlock : Advancing (generateBlockOf SystemVerilog.bodyItem)
  statement : Advancing statement
  directive : Advancing directive
  expression (reading : LessEqualReading) (floor : Nat) : Advancing (expressionFrom (reading, floor))
  /-- A connective is read where the next token is one. -/
  connective {reading : LessEqualReading} {k : Connective} {c : Cursor} (lhs : Expr Site)
    (next : c.currentKind?.bind (Connective.ofKind? reading) = some k) :
    EndsAt 1 c (connectiveOf (fun floor => expressionFrom (.compares, floor)) k lhs)
      (connectiveOf (fun floor => expressionFrom (.compares, floor)) k lhs)
  -- the elements of the lists, and what separates them
  parameterEntry : Advancing parameterEntry
  portEntry : Advancing portEntry
  connection : Advancing connection
  declarator : Advancing declarator
  continuousAssignment : Advancing continuousAssignment
  event : Advancing event
  dimension : Advancing dimension
  packedBounds : Advancing packedBounds
  name : Advancing name
  comma (expected : String) : Advancing (comma expected)
  eventSeparator : Advancing eventSeparator

/-- How reading comes to an end. -/
structure Terminates : Prop where
  routines : RoutinesAdvance
  /-- What an advancing routine has read is behind the cursor, and in its span. -/
  progress {m : Type → Type} [Monad m] [MonadStateOf Cursor m] [MonadLiftT Parser m] [Runs m] {α : Type} {p q : m α}
    {c c' : Cursor} {a : α} {ns ns' : List Notice} (advancing : EndsAt 1 c p q)
    (read : Runs.run p c ns = (.ok (a, c'), ns')) : c.Advances c'
  /-- A loop up to the end of the span has turns enough with as many as tokens, and more do not change it. -/
  untilEnd {m : Type → Type} [Monad m] [MonadStateOf Cursor m] [MonadLiftT Parser m] [Runs m] {α : Type} {p : m α}
    {c : Cursor} {n : Nat} (advancing : Advancing p) (turns : c.after.length ≤ n) :
    EndsAt 0 c (untilEnd p) (untilEndUpTo p n)
  caseItems {m : Type → Type} [Monad m] [MonadStateOf Cursor m] [MonadLiftT Parser m] [Runs m] {α : Type} {p : m α}
    {c : Cursor} {n : Nat} (advancing : Advancing p) (turns : c.after.length ≤ n) :
    EndsAt 0 c (caseItems p) (caseItemsUpTo p n none)
  followers {α : Type} {separator : Parser Unit} {p : Parser α} {c : Cursor} {n : Nat} (mark : Advancing separator)
    (advancing : Advancing p) (turns : c.after.length ≤ n) :
    EndsAt 0 c (followers separator p) (followersUpTo separator p n)
  entries {α : Type} {expected : String} {p : Parser α} {c : Cursor} {n : Nat} (advancing : Advancing p)
    (turns : c.after.length ≤ n) : EndsAt 0 c (entries expected p) (entriesUpTo expected p n)
  bracketed {α : Type} {p : Parser α} {c : Cursor} {n : Nat} (advancing : Advancing p)
    (turns : c.after.length ≤ n) : EndsAt 0 c (bracketed p) (bracketedUpTo p n)
  climb {reading : LessEqualReading} {floor n : Nat} {lhs : Expr Site} {c : Cursor} (turns : c.after.length ≤ n) :
    EndsAt 0 c (climb (fun floor => expressionFrom (.compares, floor)) reading floor lhs)
      (climbUpTo (fun floor => expressionFrom (.compares, floor)) reading floor n lhs)
  /-- What a routine comes to is settled by what the routines in it come to on fewer tokens. -/
  expression_founded : Founded expressionStep
  statement_founded : Founded statementStep
  bodyItem_founded : Founded bodyItemStep
  /-- So it is for a scope behind `begin`, which is the only one that an item can be. -/
  begun_founded {c : Cursor} {inner inner' : NestedItem} (agree : EndsBelow c.after.length inner inner')
    (begun : c.check (.word .kwBegin) = true) : EndsAt 1 c (generateBlockOf inner) (generateBlockOf inner')
  /-- A bare scope is its item, which stands where the scope stands. -/
  bare_founded {c : Cursor} {inner inner' : NestedItem} (agree : EndsAt 1 c inner inner')
    (bare : c.check (.word .kwBegin) = false) : EndsAt 1 c (generateBlockOf inner) (generateBlockOf inner')
  /-- Each recursion has one solution. -/
  expression_unique (p : LessEqualReading × Nat → Parser (Expr Site)) :
    (∀ i, p i = expressionStep p i) ↔ p = expressionFrom
  statement_unique (p : Parser (Statement Site)) : p = statementOf p ↔ p = statement
  bodyItem_unique (p : Recorder (BodyItem Site)) : p = bodyItemOf p ↔ p = bodyItem
  /-- One more nesting than tokens is a budget that is never used up, and a larger one leads to the same. -/
  expression_budget {c : Cursor} {n : Nat} (budget : c.after.length < n) (reading : LessEqualReading) (floor : Nat) :
    EndsAt 1 c (expressionFrom (reading, floor)) (expressionWithin n reading floor)
  statement_budget {c : Cursor} {n : Nat} (budget : c.after.length < n) : EndsAt 1 c statement (statementWithin n)
  bodyItem_budget {c : Cursor} {n : Nat} (budget : c.after.length < n) : EndsAt 1 c bodyItem (bodyItemWithin n)
  generateBlock_budget {c : Cursor} {n : Nat} (budget : c.after.length < n) :
    EndsAt 1 c (generateBlockOf bodyItem) (generateBlockOf (bodyItemWithin n))

theorem routinesAdvance : RoutinesAdvance where
  item depth _ := .item depth
  bodyItem _ := .bodyItem
  generateBlock _ := .generateBlockOf (fun _ _ => .bodyItem) (Nat.lt_succ_self _)
  statement _ := .statement
  directive _ := .directive
  expression reading floor _ := .expressionFrom (reading, floor)
  connective {_ k _} lhs next := by
    obtain ⟨t, rest, hafter, -⟩ := Cursor.after_of_currentKind? next
    exact .connectiveOf (fun floor _ _ => .expressionFrom (.compares, floor)) (Nat.le_refl _) k lhs
      (List.ne_nil_iff_exists_cons.2 ⟨t, rest, hafter⟩)
  parameterEntry _ := .parameterEntry
  portEntry _ := .portEntry
  connection _ := .connection
  declarator _ := .declarator
  continuousAssignment _ := .continuousAssignment
  event _ := .event
  dimension _ := .dimension
  packedBounds _ := .packedBounds
  name _ := .name
  comma expected _ := .comma expected
  eventSeparator _ := .eventSeparator

theorem grammar_terminates : Terminates where
  routines := routinesAdvance
  progress advancing read := advancing.advances read
  untilEnd advancing turns :=
    (EndsAt.untilEndUpTo (advancing.endsBelow _) (Nat.lt_succ_self _) (Nat.le_refl _) turns).of_run
      (Runs.run_get_bind _ _) fun _ => rfl
  caseItems advancing turns :=
    (EndsAt.caseItemsUpTo (advancing.endsBelow _) (Nat.lt_succ_self _) (Nat.le_refl _) turns none).of_run
      (Runs.run_get_bind _ _) fun _ => rfl
  followers mark advancing turns :=
    .followersUpTo mark (advancing.endsBelow _) (Nat.lt_succ_self _) (Nat.le_refl _) turns
  entries advancing turns := .entriesUpTo (advancing.endsBelow _) (Nat.lt_succ_self _) (Nat.le_refl _) turns
  bracketed advancing turns := .bracketedUpTo (advancing.endsBelow _) (Nat.lt_succ_self _) (Nat.le_refl _) turns
  climb turns := .climbUpTo (fun floor _ _ => .expressionFrom (.compares, floor)) (Nat.le_refl _) _ _ (Nat.le_refl _)
    turns _
  expression_founded := expressionStep_founded
  statement_founded := statementStep_founded
  bodyItem_founded := bodyItemStep_founded
  begun_founded agree begun := .generateBlockOf_begin agree (Nat.le_refl _) begun
  bare_founded agree bare := .generateBlockOf_bare agree bare
  expression_unique p := by
    refine ⟨fun hp => expressionStep_founded.unique hp expressionFrom_solves, ?_⟩
    rintro rfl
    exact expressionFrom_solves
  statement_unique p := by
    constructor
    · intro hp
      exact congrFun (statementStep_founded.unique (p := fun _ => p) (q := fun _ => statement) (fun _ => hp)
        fun _ => statement_eq) ()
    · rintro rfl
      exact statement_eq
  bodyItem_unique p := by
    constructor
    · intro hp
      exact congrFun (bodyItemStep_founded.unique (p := fun _ => p) (q := fun _ => bodyItem) (fun _ => hp)
        fun _ => bodyItem_eq) ()
    · rintro rfl
      exact bodyItem_eq
  expression_budget budget reading floor :=
    (EndsAt.expressionWithin (Nat.lt_succ_self _) budget reading floor).of_run (fun _ => rfl) fun _ => rfl
  statement_budget budget := (EndsAt.statementWithin (Nat.lt_succ_self _) budget).of_run (fun _ => rfl) fun _ => rfl
  bodyItem_budget budget := .bodyItem_bodyItemWithin budget
  generateBlock_budget budget := .generateBlockOf (fun _ hlt => .bodyItem_bodyItemWithin hlt) budget

/-! ### Whole texts -/

/-- No text is refused because its constructs nest too deep. -/
theorem readText_founded {text : String} {options : ReadOptions} {e : ParseError}
    (h : (readText text options).result = .error e) : e.cause ≠ .malformed .bottomless := by
  unfold readText at h
  split at h
  · rename_i arena _
    unfold Arena.read at h
    split at h
    · cases h
    · rename_i fault notices hread
      obtain rfl := Except.error.inj h
      exact (EndsAt.items options.depth).founded (m := Recorder) hread
  · obtain rfl := Except.error.inj h
    nofun

end SystemVerilog
