import SystemVerilog.Proofs.Expression.Complete
import SystemVerilog.Proofs.Statement.Scanning

/-!
# What the parts of a statement start with

The readers of statements decide by the next token which part they are at. What tokens the parts start
with, and what they do not start with, keeps a missing part from being found in what follows it.
-/

namespace SystemVerilog

/-! ### What an expression does not start with -/

namespace TokenKind

variable {kind : TokenKind}

theorem startsExpression_word (k : Keyword) : (word k).startsExpression = k.isTimeUnit := by
  show ((word k == identifier || k.isTimeUnit) || (UnaryOp.ofKind? (word k)).isSome) = k.isTimeUnit
  have hname : (word k == identifier) = false := rfl
  have hop : UnaryOp.ofKind? (word k) = none := rfl
  rw [hname, hop, Bool.false_or, Option.isSome_none, Bool.or_false]

/-- The only reserved words that an expression starts with are the time units. -/
theorem startsExpression_ne_word (h : kind.startsExpression = true) {k : Keyword}
    (hk : k.isTimeUnit = false) : kind ≠ .word k := by
  rintro rfl
  rw [startsExpression_word, hk] at h
  cases h

theorem startsDataType_of_startsExpression (h : kind.startsExpression = true) :
    kind.startsDataType = false := by
  cases kind with
  | word k =>
    rw [startsExpression_word] at h
    unfold Keyword.isTimeUnit at h
    split at h <;> first | rfl | cases h
  | op o => cases o <;> first | rfl | cases h
  | _ => rfl

theorem edge_of_startsExpression (h : kind.startsExpression = true) : Edge.ofKind? kind = none := by
  unfold Edge.ofKind?
  split <;> first | rfl | exact absurd rfl (startsExpression_ne_word h rfl)

theorem keywordIn?_of_startsDataType (h : kind.startsDataType = false) :
    keywordIn? Keyword.namesDataType kind = none := by
  cases kind with
  | word k =>
    have hnames : k.namesDataType = false := by
      simp only [startsDataType, Bool.or_eq_false_iff] at h
      obtain ⟨⟨⟨⟨⟨hvector, hatom⟩, hreal⟩, -⟩, -⟩, -⟩ := h
      show (k.isIntegerVectorType || k.isIntegerAtomType || k.isNonIntegerType) = false
      rw [show k.isIntegerVectorType = false from hvector, show k.isIntegerAtomType = false from hatom,
        show k.isNonIntegerType = false from hreal]
      rfl
    simp [keywordIn?, hnames]
  | _ => rfl

theorem startsDataType_of_keywordIn? {k : Keyword}
    (h : keywordIn? Keyword.namesDataType kind = some k) : kind.startsDataType = true := by
  by_cases hstarts : kind.startsDataType = true
  · exact hstarts
  · rw [keywordIn?_of_startsDataType (by simpa using hstarts)] at h
    cases h

theorem startsDataType_of_signing {g : Signing} (h : Signing.ofKind? kind = some g) :
    kind.startsDataType = true := by
  unfold Signing.ofKind? at h
  split at h <;> first | rfl | cases h

/-- A token that starts an expression, but is no prefix operator, does not go on with one. -/
theorem connective_of_startsExpression (h : kind.startsExpression = true)
    (hu : UnaryOp.ofKind? kind = none) : Connective.ofKind? .compares kind = none := by
  cases kind with
  | word k =>
    rw [startsExpression_word] at h
    unfold Keyword.isTimeUnit at h
    split at h <;> first | rfl | cases h
  | op o => cases o <;> first | rfl | (cases hu; done) | cases h
  | _ => rfl

theorem connective_of_opensStatement (h : kind.opensStatement = true) :
    Connective.ofKind? .compares kind = none := by
  unfold opensStatement at h
  split at h <;> first | rfl | cases h

theorem timeUnit_connective {u : TimeUnit} (h : TimeUnit.ofKind? kind = some u) :
    Connective.ofKind? .compares kind = none := by
  unfold TimeUnit.ofKind? at h
  split at h <;> first | rfl | cases h

theorem signing_of_startsDataType (h : kind.startsDataType = false) : Signing.ofKind? kind = none := by
  unfold Signing.ofKind?
  split <;> first | rfl | cases h

end TokenKind

section Heads

variable {ts : List Token}

theorem Expr.Spells.head {α : Type} {e : Expr α} {us : List Token} {t : Token} (h : e.Spells ts)
    (hts : ts = t :: us) : t.kind.startsExpression = true := by
  obtain ⟨u, vs, heq, hu⟩ := h.starts
  obtain ⟨rfl, -⟩ := List.cons.inj (hts.symm.trans heq)
  exact hu

theorem Expr.Spells.ne_nil {α : Type} {e : Expr α} (h : e.Spells ts) : ts ≠ [] := by
  obtain ⟨t, us, rfl, -⟩ := h.starts
  exact List.cons_ne_nil t us

theorem LoopInit.Spells.ne_nil {α : Type} {init : LoopInit α} (h : init.Spells ts) : ts ≠ [] := by
  obtain ⟨us, vs, ws, rfl, -, -, hws⟩ := h
  simp [hws.ne_nil]

theorem SpellsPacked.head {bs : List (Bounds Unit)} {us rest : List Token} {t : Token}
    (h : SpellsPacked bs ts) (ht : ts ++ rest = t :: us) :
    t.kind = .op .lBracket ∨ rest = t :: us := by
  cases bs with
  | nil =>
    obtain rfl : ts = [] := h
    exact .inr ht
  | cons b bs =>
    obtain ⟨_, vs, rfl, ⟨o, ws, m, ws', cl, rfl, ho, -⟩, -⟩ := h
    rw [List.cons_append, List.cons_append] at ht
    obtain ⟨rfl, -⟩ := List.cons.inj ht
    exact .inl ho

/-- What stands behind the keyword of a data type is no second keyword. -/
theorem keywordIn?_behind {type : DataType Unit} {us vs rest ws : List Token} {t : Token}
    (hus : SpellsMark Signing.ofKind? type.signing us) (hvs : SpellsPacked type.packed vs)
    (hrest : ∀ t ws, rest = t :: ws → t.kind.startsDataType = false)
    (h : us ++ (vs ++ rest) = t :: ws) :
    TokenKind.keywordIn? Keyword.namesDataType t.kind = none := by
  cases hsigning : type.signing with
  | none =>
    rw [hsigning] at hus
    obtain rfl : us = [] := hus
    rcases SpellsPacked.head hvs h with hk | hk
    · rw [hk]
      rfl
    · exact TokenKind.keywordIn?_of_startsDataType (hrest t ws hk)
  | some g =>
    rw [hsigning] at hus
    obtain ⟨u, rfl, hu⟩ := hus
    obtain ⟨rfl, -⟩ := List.cons.inj h
    unfold Signing.ofKind? at hu
    split at hu
    · rename_i hk
      rw [hk]
      rfl
    · rename_i hk
      rw [hk]
      rfl
    · cases hu

theorem DataType.Spells.starts {type : DataType Unit} (h : type.Spells ts) (hcan : type.Canonical) :
    ∃ t us, ts = t :: us ∧ t.kind.startsDataType = true := by
  obtain ⟨us, vs, ws, rfl, hus, hvs, hws⟩ := h
  cases hkeyword : type.keyword with
  | some k =>
    rw [hkeyword] at hus
    obtain ⟨t, rfl, ht⟩ := hus
    exact ⟨t, _, rfl, TokenKind.startsDataType_of_keywordIn? ht⟩
  | none =>
    rw [hkeyword] at hus
    obtain rfl : us = [] := hus
    cases hsigning : type.signing with
    | some g =>
      rw [hsigning] at hvs
      obtain ⟨t, rfl, ht⟩ := hvs
      exact ⟨t, _, rfl, TokenKind.startsDataType_of_signing ht⟩
    | none =>
      rw [hsigning] at hvs
      obtain rfl : vs = [] := hvs
      have hne := hcan.present hkeyword hsigning
      cases hpacked : type.packed with
      | nil => exact absurd hpacked hne
      | cons b bs =>
        rw [hpacked] at hws
        obtain ⟨_, vs, rfl, ⟨o, us, m, ws, cl, rfl, ho, -⟩, -⟩ := hws
        exact ⟨o, _, rfl, by rw [ho]; rfl⟩

theorem Bounds.skipsPairs {us vs : List Token} {left right : Expr Unit} {m : Token}
    {opening closing : TokenKind} (hus : left.Spells us) (hm : m.kind = .op .colon)
    (hvs : right.Spells vs) (hp : (opening, closing) ∈ bracketPairs) :
    SkipsPairs opening closing (us ++ m :: vs) := by
  have hseparator : m.kind = SliceKind.range.separator := hm
  exact Expr.skipsPairs_bounds hus hseparator hvs hp

end Heads

/-- An operand whose operators all stand behind it does not start with an operator. -/
theorem Expr.Spells.starts_of_postfixPower {α : Type} : ∀ {e : Expr α} {ts : List Token}, e.Spells ts →
    e.Canonical .compares → postfixPower ≤ e.level →
      ∃ t us, ts = t :: us ∧ UnaryOp.ofKind? t.kind = none
  | identifier _ _, _, ⟨t, hts, ht, _⟩, _, _ => ⟨t, [], hts, UnaryOp.ofKind?_of_isName ht⟩
  | systemIdentifier _ _, _, ⟨d, w, hts, hd, _⟩, _, _ => ⟨d, [w], hts, by rw [hd]; rfl⟩
  | literal _ _ _, _, ⟨t, hts, ht, _⟩, _, _ => by
    refine ⟨t, [], hts, ?_⟩
    unfold Token.literalKind? at ht
    split at ht <;> first | (simp only [*]; rfl) | cases ht
  | unary _ op operand, _, h, hc, hl => by
    have hpost : op.isPostfix = true := by
      by_cases hpost : op.isPostfix = true
      · exact hpost
      · rw [level, if_neg hpost] at hl
        exact absurd hl (by decide)
    rw [Spells, if_pos hpost] at h
    rw [Canonical, if_pos hpost] at hc
    obtain ⟨us, t, rfl, hus, -⟩ := h
    obtain ⟨t', us', rfl, ht'⟩ := hus.starts_of_postfixPower hc.2 hc.1
    exact ⟨t', us' ++ [t], rfl, ht'⟩
  | binary _ op _ _, _, _, _, hl => by
    have hpower := op.power_bounds.2.1
    have hlevel : 160 ≤ op.power := hl
    omega
  | parenthesis _ _, _, ⟨o, us, c, hts, ho, _⟩, _, _ => ⟨o, us ++ [c], hts, by rw [ho]; rfl⟩
  | index _ target _, _, ⟨us, o, vs, c, hts, hus, _⟩, hc, _ => by
    obtain ⟨t, us', rfl, ht⟩ := hus.starts_of_postfixPower hc.2.1 hc.1
    exact ⟨t, us' ++ o :: (vs ++ [c]), hts, ht⟩
  | slice _ _ target _ _, _, ⟨us, o, vs, m, ws, c, hts, hus, _⟩, hc, _ => by
    obtain ⟨t, us', rfl, ht⟩ := hus.starts_of_postfixPower hc.2.1 hc.1
    exact ⟨t, us' ++ o :: (vs ++ m :: (ws ++ [c])), hts, ht⟩
  | conditional _ _ _ _, _, _, _, hl => absurd (show 160 ≤ 30 from hl) (by decide)
  | assignment _ _ _ _, _, _, _, hl => absurd (show 160 ≤ 10 from hl) (by decide)
  | concatenation _ _, _, ⟨o, us, c, hts, ho, _⟩, _, _ => ⟨o, us ++ [c], hts, by rw [ho]; rfl⟩
  | replication _ _ _, _, ⟨o, us, o', vs, c', c, hts, ho, _⟩, _, _ =>
    ⟨o, us ++ o' :: (vs ++ [c', c]), hts, by rw [ho]; rfl⟩
  | arrayPattern _ _, _, ⟨q, o, us, c, hts, hq, _⟩, _, _ => ⟨q, o :: (us ++ [c]), hts, by rw [hq]; rfl⟩
  | call _ callee _ _, _, ⟨us, o, vs, c, hts, hus, _⟩, hc, _ => by
    subst hts
    have hname := hc.1
    cases callee with
    | identifier tag name =>
      obtain ⟨t, rfl, ht, -⟩ := hus
      exact ⟨t, _, rfl, UnaryOp.ofKind?_of_isName ht⟩
    | systemIdentifier tag name =>
      obtain ⟨d, w, rfl, hd, -⟩ := hus
      exact ⟨d, _, rfl, by rw [hd]; rfl⟩
    | _ => cases hname
  | member _ target _, _, ⟨us, d, t, hts, hus, _⟩, hc, _ => by
    obtain ⟨t', us', rfl, ht'⟩ := hus.starts_of_postfixPower hc.2 hc.1
    exact ⟨t', us' ++ [d, t], hts, ht'⟩
  | scope _ target _, _, ⟨us, d, t, hts, hus, _⟩, hc, _ => by
    obtain ⟨t', us', rfl, ht'⟩ := hus.starts_of_postfixPower hc.2 hc.1
    exact ⟨t', us' ++ [d, t], hts, ht'⟩

/-- What acts starts with an operator only if that is an increment or decrement. -/
theorem Expr.Acts.starts {α : Type} {e : Expr α} {ts : List Token} (h : e.Acts) (hspell : e.Spells ts)
    (hstep : e.startsWithStep = false) : ∃ t us, ts = t :: us ∧ UnaryOp.ofKind? t.kind = none := by
  cases e with
  | assignment tag op target value =>
    obtain ⟨us, t, vs, rfl, hus, -⟩ := hspell
    obtain ⟨t', us', rfl, ht'⟩ := hus.starts_of_postfixPower h.2.1 h.1
    exact ⟨t', us' ++ t :: vs, rfl, ht'⟩
  | unary tag op operand =>
    obtain ⟨hop, hcan⟩ := h
    have hpost : op.isPostfix = true := by
      simpa [Expr.startsWithStep, hop] using hstep
    have hlevel : (Expr.unary tag op operand).level = postfixPower := by rw [Expr.level, if_pos hpost]
    exact hspell.starts_of_postfixPower hcan (Nat.le_of_eq hlevel.symm)
  | call tag callee parens args => exact hspell.starts_of_postfixPower h (Nat.le_refl _)
  | _ => exact h.elim

/-- A statement ends the magnitude of the delay before it, unless it starts with an increment or
decrement. -/
theorem Statement.Spells.quiet {α : Type} {s : Statement α} {ts rest : List Token} (h : s.Spells ts)
    (hcan : s.Canonical) (hstep : s.startsWithStep = false) :
    Quiet .compares prefixPower (ts ++ rest) := by
  obtain ⟨t, us, hts, ht⟩ := h.starts
  have hnone : Connective.ofKind? .compares t.kind = none := by
    rcases ht with ht | ⟨ht, tag, e, rfl⟩
    · exact TokenKind.connective_of_opensStatement ht
    · obtain ⟨vs, m, rfl, hvs, -⟩ := h
      obtain ⟨u, ws, rfl, hu⟩ := hcan.1.starts hvs hstep
      obtain ⟨rfl, -⟩ := List.cons.inj hts
      exact TokenKind.connective_of_startsExpression ht hu
  intro t' us' k heq hk
  obtain ⟨rfl, -⟩ := List.cons.inj (hts ▸ heq)
  rw [hnone] at hk
  cases hk

/-- An event does not start with a star. -/
theorem Event.Spells.head_ne_mul {event : Event Unit} {ts us rest : List Token} {t : Token}
    (h : event.Spells ts) (hts : ts ++ rest = t :: us) : t.kind ≠ .op .mul := by
  obtain ⟨es, xs, rfl, hes, hxs⟩ := h
  obtain ⟨u, ws, rfl, hu⟩ := hxs.starts
  intro hk
  cases hedge : event.edge with
  | none =>
    rw [hedge] at hes
    obtain rfl : es = [] := hes
    obtain ⟨rfl, -⟩ := List.cons.inj hts
    rw [hk] at hu
    cases hu
  | some edge =>
    rw [hedge] at hes
    obtain ⟨v, rfl, hv⟩ := hes
    obtain ⟨rfl, -⟩ := List.cons.inj hts
    rw [hk] at hv
    cases hv

theorem SpellsEvents.stops {events : List (Event Unit)} {ts : List Token} (h : SpellsEvents events ts) :
    Stops 0 ts := by
  cases events with
  | nil =>
    obtain rfl : ts = [] := h
    exact .nil
  | cons event events =>
    obtain ⟨m, us, vs, rfl, hm, -⟩ := h
    rcases hm with hm | hm
    · exact .of_kind (by rw [hm]; rfl) (by rw [hm]; decide)
    · exact .of_kind (by rw [hm]; rfl) (by rw [hm]; decide)

end SystemVerilog
