import SystemVerilog.Proofs.Selects.Dimensions
import SystemVerilog.Proofs.Statement.Heads
import SystemVerilog.Proofs.Termination.Judgement

/-!
# Labels of case items

The labels of a case item end at the first colon outside brackets that answers no question mark. A list of
expressions is balanced, so the scan for that colon passes over the list as a whole: it finds the colon behind the
list, whatever the tokens are behind the colon, and it finds none in the list itself. So the labels are the
expressions in front of the colon, and the body of the item is read behind it.
-/

namespace SystemVerilog

open SystemVerilog.Parser

variable {c c' : Cursor} {es : List (Expr Site)} {ts rest : List Token} {colon : Token}

/-! ### The scan and lists of expressions -/

/-- A list of expressions is read to the end of its span, which is balanced. -/
theorem balanced_of_expressionList (h : expressionList c = .ok (es, c')) : Balanced Token.IsFlat c.after :=
  fillsAt_listOf (fun floor c => undividedAt_expressionWithin (budget _) .compares floor c) h

/-- The scan finds the colon behind balanced tokens. -/
theorem distanceAtTop?_append_colon (hts : Balanced Token.IsFlat ts) (hcolon : colon.kind = .op .colon)
    (rest : List Token) : distanceAtTop? (.op .colon) 0 0 (ts ++ colon :: rest) = some ts.length := by
  refine (hts.passes_top (fun _ h => h) 0).found ?_
  rw [distanceAtTop?, if_neg (by omega), if_pos hcolon]

/-- The scan finds no colon in balanced tokens. -/
theorem distanceAtTop?_of_balanced (hts : Balanced Token.IsFlat ts) : distanceAtTop? (.op .colon) 0 0 ts = none := by
  have hnone : distanceAtTop? (.op .colon) 0 0 (ts ++ []) = none := (hts.passes_top (fun _ h => h) 0).not_found rfl
  rwa [List.append_nil] at hnone

/-! ### The first token -/

section Starts

variable {nested : Nested} {e : Expr Site}

/-- A token that does not start an expression is refused as an operand. -/
theorem primaryOf_of_not_starts {token : Token} (h : token.kind.startsExpression = false) :
    primaryOf nested token = invalidInExpression token := by
  unfold primaryOf
  split
  case h_7 =>
    have hname : ¬token.kind.isName = true := fun hname => by
      rw [TokenKind.startsExpression_of_isName hname] at h
      cases h
    rw [if_neg hname]
  all_goals
    rename_i hkind
    rw [hkind] at h
    cases h

theorem startsExpression_of_primaryOf {token : Token} (h : primaryOf nested token c = .ok (e, c')) :
    token.kind.startsExpression = true := by
  cases hstarts : token.kind.startsExpression with
  | true => rfl
  | false =>
    rw [primaryOf_of_not_starts hstarts] at h
    exact absurd h fail_ne_ok

theorem startsExpression_of_operandOf (h : operandOf nested c = .ok (e, c')) : StartsExpression c.after := by
  obtain ⟨t, rest, hafter, ⟨op, _, hop, _, _⟩ | ⟨_, hprimary⟩⟩ := operandOf_inv h
  · obtain ⟨hbefore, hkind⟩ := UnaryOp.ofKind?_eq_some_iff.1 hop
    exact ⟨t, rest, hafter, UnaryOp.startsExpression hbefore hkind⟩
  · exact ⟨t, rest, hafter, startsExpression_of_primaryOf hprimary⟩

/-- Where a list has an element, its first token starts an expression. -/
theorem startsExpression_of_listOf {budget : Nat} (h : listOf (expressionWithin budget .compares) c = .ok (es, c'))
    (hsome : es ≠ []) : StartsExpression c.after := by
  rw [listOf, atEnd_bind] at h
  split at h
  · obtain ⟨rfl, -⟩ := pure_eq_ok.1 h
    exact absurd rfl hsome
  · obtain ⟨e, c₁, hfirst, -⟩ := bind_eq_ok.1 h
    cases budget with
    | zero => exact absurd hfirst bottomless_ne_ok
    | succ budget =>
      obtain ⟨lhs, c₂, hoperand, -⟩ := bind_eq_ok.1 hfirst
      exact startsExpression_of_operandOf hoperand

end Starts

/-- An item that starts as an expression is not the default. -/
theorem defaultLabel_of_starts (h : StartsExpression c.after) (seen : Bool) :
    defaultLabel seen c = .ok (false, c) := by
  obtain ⟨t, us, hafter, ht⟩ := h
  have hcheck : c.check (.word .kwDefault) = false := Cursor.check_eq_false fun t' us' hafter' => by
    obtain ⟨rfl, -⟩ := List.cons.inj (hafter.symm.trans hafter')
    exact TokenKind.startsExpression_ne_word ht rfl
  rw [defaultLabel, location_bind, bind_of_ok (eat_of_check hcheck)]
  rfl

/-! ### Labels -/

/-- The labels of an item are read exactly where a list of one expression or more stands in front of a colon. -/
theorem caseLabels_eq_ok : caseLabels c = .ok (es, c') ↔ ∃ ts colon rest c₁, c.after = ts ++ colon :: rest ∧
    colon.kind = .op .colon ∧ expressionList (c.ahead ts.length) = .ok (es, c₁) ∧ es ≠ [] ∧
    c' = c.skip (ts.length + 1) := by
  rw [caseLabels, location_bind]
  constructor
  · intro h
    obtain ⟨part, c₁, hpart, hrest⟩ := bind_eq_ok.1 h
    obtain ⟨n, hn, rfl, rfl⟩ := spanBefore_inv hpart
    obtain ⟨colon, hafter, hlength, hcolon⟩ := distanceAtTop?_parts hn
    obtain ⟨labels, c₂, hwithin, hlabels⟩ := bind_eq_ok.1 hrest
    obtain ⟨⟨c₃, hlist⟩, rfl⟩ := within_eq_ok.1 hwithin
    split at hlabels
    · exact absurd hlabels fail_ne_ok
    · rename_i hsome
      obtain ⟨rfl, rfl⟩ := pure_eq_ok.1 hlabels
      exact ⟨_, colon, _, c₃, hafter, hcolon, by rw [hlength]; exact hlist, hsome, by rw [hlength]⟩
  · rintro ⟨ts, colon, rest, c₁, hafter, hcolon, hlist, hsome, rfl⟩
    have hspan : (c.ahead ts.length).after = ts := by rw [Cursor.ahead_after, hafter, List.take_left]
    have hfound : distanceAtTop? (.op .colon) 0 0 c.after = some ts.length := by
      rw [hafter]
      exact distanceAtTop?_append_colon (hspan ▸ balanced_of_expressionList hlist) hcolon rest
    have hpart : spanBefore (distanceAtTop? (.op .colon) 0 0) (TokenKind.op .colon).describe c =
        .ok (c.ahead ts.length, c.skip (ts.length + 1)) := by rw [spanBefore, hfound]
    rw [bind_of_ok hpart, bind_of_ok (within_eq_ok.2 ⟨⟨c₁, hlist⟩, rfl⟩)]
    cases es with
    | nil => exact absurd rfl hsome
    | cons e es => rfl

/-! ### Items -/

section Items

variable {m : Type → Type} [Monad m] [MonadStateOf Cursor m] [MonadLiftT Parser m] {α : Type}

/-- Reads the body of an item with these labels, which starts at a cursor, and the items behind it. -/
def caseItemsBehind (first : Cursor) (labels : List (Expr Site)) (body : m α) (n : Nat) (fallback : Option α) :
    m (List (CaseItem Site α) × Option α) := do
  let selected ← body
  let last : Cursor ← get
  let (items, fallback) ← caseItemsUpTo body n fallback
  return (⟨⟨first.location, last.rangeFrom first.position⟩, labels, selected⟩ :: items, fallback)

/-- An item that is not the default goes on behind its labels. -/
theorem run_caseItemsUpTo [Runs m] (hmore : c.after ≠ []) {fallback : Option α}
    (hdefault : defaultLabel fallback.isSome c = .ok (false, c)) (hlabels : caseLabels c = .ok (es, c'))
    (body : m α) (n : Nat) (ns : List Notice) :
    Runs.run (caseItemsUpTo body (n + 1) fallback) c ns = Runs.run (caseItemsBehind c es body n fallback) c' ns := by
  have hatEnd : Parser.atEnd c = .ok (false, c) := by
    rw [Parser.atEnd, Cursor.atEnd, List.isEmpty_eq_false_iff.2 hmore]
  simp only [caseItemsUpTo, caseItemsBehind, tagged, Runs.run_bind, Runs.run_get, Runs.run_lift, Runs.run_pure, hatEnd,
    hdefault, hlabels, Bool.false_eq_true, if_false]
  generalize Runs.run body c' ns = read
  obtain ⟨read | ⟨selected, last⟩, ns₁⟩ := read <;> rfl

end Items

/-! ### Isolation -/

/-- How the tokens of `part`, which are read as these labels, are told from what stands around them. -/
structure LabelsIsolated (part : Cursor) (labels : List (Expr Site)) : Prop where
  /-- In front of a colon the scan moves onto that colon, whatever the tokens are behind it. -/
  found {c : Cursor} {colon : Token} {rest : List Token} (front : c.after = part.after ++ colon :: rest)
    (mark : colon.kind = .op .colon) : moveTo? (distanceAtTop? (.op .colon) 0 0) c =
      .ok (some (c.position + part.after.length), c.skip part.after.length)
  /-- Where nothing stands behind them the scan finds no colon, and the cursor stays. -/
  alone {c : Cursor} (whole : c.after = part.after) : moveTo? (distanceAtTop? (.op .colon) 0 0) c = .ok (none, c)
  /-- They are the labels, and the colon is read with them. -/
  read {c : Cursor} {colon : Token} {rest : List Token} (front : c.after = part.after ++ colon :: rest)
    (mark : colon.kind = .op .colon) (here : c.ahead part.after.length = part) :
    caseLabels c = .ok (labels, c.skip (part.after.length + 1))
  /-- They are the labels of an item whatever its body is, and the body is read behind the colon. -/
  item {m : Type → Type} [Monad m] [MonadStateOf Cursor m] [MonadLiftT Parser m] [Runs m] {α : Type}
    {c : Cursor} {colon : Token} {rest : List Token} (front : c.after = part.after ++ colon :: rest)
    (mark : colon.kind = .op .colon) (here : c.ahead part.after.length = part) (body : m α) (n : Nat)
    (fallback : Option α) (ns : List Notice) : Runs.run (caseItemsUpTo body (n + 1) fallback) c ns =
      Runs.run (caseItemsBehind c labels body n fallback) (c.skip (part.after.length + 1)) ns

/-- A list of one expression or more is isolated by the first colon outside brackets and conditionals. -/
theorem labels_isolated {part : Cursor} {labels : List (Expr Site)} (hread : expressionList part = .ok (labels, c'))
    (hsome : labels ≠ []) : LabelsIsolated part labels := by
  have hbalanced := balanced_of_expressionList hread
  have hlabels {c : Cursor} {colon : Token} {rest : List Token} (hfront : c.after = part.after ++ colon :: rest)
      (hcolon : colon.kind = .op .colon) (hhere : c.ahead part.after.length = part) :
      caseLabels c = .ok (labels, c.skip (part.after.length + 1)) :=
    caseLabels_eq_ok.2 ⟨part.after, colon, rest, c', hfront, hcolon, by rw [hhere]; exact hread, hsome, rfl⟩
  constructor
  case found =>
    intro c colon rest hfront hcolon
    rw [moveTo?, hfront, distanceAtTop?_append_colon hbalanced hcolon rest]
  case alone =>
    intro c hwhole
    rw [moveTo?, hwhole, distanceAtTop?_of_balanced hbalanced]
  case read => exact hlabels
  case item =>
    intro m _ _ _ _ α c colon rest hfront hcolon hhere body n fallback ns
    have hstarts : StartsExpression c.after := hfront ▸ (startsExpression_of_listOf hread hsome).append (colon :: rest)
    have hmore : c.after ≠ [] := hfront ▸ List.append_ne_nil_of_right_ne_nil _ (List.cons_ne_nil colon rest)
    exact run_caseItemsUpTo hmore (defaultLabel_of_starts hstarts _) (hlabels hfront hcolon hhere) body n ns

/-- The colons of `s ? a : b` and of `w[3:0]` are no ends of the labels. -/
theorem labels_isolated_conditional :
    let token (kind : TokenKind) (text : String) : Token := ⟨⟨kind, text⟩, 0, .origin, .origin⟩
    let part : Cursor := ⟨.origin, 0, [], [token .identifier "s", token (.op .questionMark) "?",
      token .identifier "a", token (.op .colon) ":", token .identifier "b", token (.op .comma) ",",
      token .identifier "w", token (.op .lBracket) "[", token .literal "3", token (.op .colon) ":",
      token .literal "0", token (.op .rBracket) "]"]⟩
    ∃ labels c', expressionList part = .ok (labels, c') ∧ labels ≠ [] ∧ labels.length = 2 ∧
      LabelsIsolated part labels := by
  intro token part
  have hread : ∃ labels c', expressionList part = .ok (labels, c') ∧ labels.length = 2 := ⟨_, _, rfl, rfl⟩
  obtain ⟨labels, c', hread, hlength⟩ := hread
  have hsome : labels ≠ [] := List.ne_nil_of_length_pos (by omega)
  exact ⟨labels, c', hread, hsome, hlength, labels_isolated hread hsome⟩

end SystemVerilog
