import SystemVerilog.Grammar.Expression
import SystemVerilog.Proofs.Expression.Canonical
import SystemVerilog.Proofs.Reading.Brackets

/-!
# Spellings of expressions

`e.Spells ts` says that the tokens `ts`, read from left to right, are the names, literals, operators,
brackets and separators of the expression `e`. A dollar sign touches its word, and `xnor` may be
spelled either way. Where a delay stands in an assignment no tokens spell it.

An expression is spelled by balanced brackets (`Spells.balanced`), and tags do not matter to its spelling.
-/

namespace SystemVerilog

/-- The kind of literal that a token is. -/
def Token.literalKind? (t : Token) : Option LiteralKind :=
  match t.kind with
  | .literal => some (.ofNumber t.text.toList)
  | .stringLiteral => some .string
  | _ => none

theorem Token.literalKind?_of_literal {t : Token} (h : t.kind = .literal) :
    t.literalKind? = some (.ofNumber t.text.toList) := by rw [literalKind?, h]

theorem Token.literalKind?_of_string {t : Token} (h : t.kind = .stringLiteral) : t.literalKind? = some .string := by
  rw [literalKind?, h]

/-- The separator between the two bounds of a select. -/
def SliceKind.separator : SliceKind → TokenKind
  | range => .op .colon
  | indexedUp => .op .plusColon
  | indexedDown => .op .minusColon

theorem Parser.sliceKind?_eq_some_iff {kind : TokenKind} {slice : SliceKind} :
    Parser.sliceKind? kind = some slice ↔ kind = slice.separator := by
  constructor
  · unfold Parser.sliceKind?
    split <;> intro h <;> cases h <;> rfl
  · rintro rfl
    cases slice <;> rfl

namespace Expr

variable {α β : Type}

mutual

/-- The tokens spell the expression. -/
def Spells : Expr α → List Token → Prop
  | identifier _ name, ts => ∃ t, ts = [t] ∧ t.kind.isName = true ∧ t.text = name
  | systemIdentifier _ name, ts => ∃ d w, ts = [d, w] ∧ d.kind = .op .dollar ∧
      w.kind.isWord = true ∧ w.touches d = true ∧ name = "$" ++ w.text
  | literal _ kind text, ts => ∃ t, ts = [t] ∧ t.literalKind? = some kind ∧ t.text = text
  | unary _ op operand, ts =>
    if op.isPostfix then ∃ us t, ts = us ++ [t] ∧ operand.Spells us ∧ t.kind ∈ op.kinds
    else ∃ t us, ts = t :: us ∧ t.kind ∈ op.kinds ∧ operand.Spells us
  | binary _ op lhs rhs, ts => ∃ us t vs, ts = us ++ t :: vs ∧ lhs.Spells us ∧
      t.kind ∈ op.kinds ∧ rhs.Spells vs
  | parenthesis _ inner, ts => ∃ o us c, ts = o :: (us ++ [c]) ∧ o.kind = .op .lParen ∧
      inner.Spells us ∧ c.kind = .op .rParen
  | index _ target subscript, ts => ∃ us o vs c, ts = us ++ o :: (vs ++ [c]) ∧ target.Spells us ∧
      o.kind = .op .lBracket ∧ subscript.Spells vs ∧ c.kind = .op .rBracket
  | slice _ kind target left right, ts => ∃ us o vs m ws c,
      ts = us ++ o :: (vs ++ m :: (ws ++ [c])) ∧ target.Spells us ∧ o.kind = .op .lBracket ∧
      left.Spells vs ∧ m.kind = kind.separator ∧ right.Spells ws ∧ c.kind = .op .rBracket
  | conditional _ condition thenExpr elseExpr, ts => ∃ us q vs m ws,
      ts = us ++ q :: (vs ++ m :: ws) ∧ condition.Spells us ∧ q.kind = .op .questionMark ∧
      thenExpr.Spells vs ∧ m.kind = .op .colon ∧ elseExpr.Spells ws
  | assignment _ op target value, ts => ∃ us t vs, ts = us ++ t :: vs ∧ target.Spells us ∧
      t.kind = op.kind ∧ value.Spells vs
  | delayedAssignment _ _ _ _ _ _ _, _ => False
  | concatenation _ items, ts => ∃ o us c, ts = o :: (us ++ [c]) ∧ o.kind = .op .lBrace ∧
      SpellsList items us ∧ c.kind = .op .rBrace
  | replication _ count items, ts => ∃ o us o' vs c' c, ts = o :: (us ++ o' :: (vs ++ [c', c])) ∧
      o.kind = .op .lBrace ∧ count.Spells us ∧ o'.kind = .op .lBrace ∧ SpellsList items vs ∧
      c'.kind = .op .rBrace ∧ c.kind = .op .rBrace
  | arrayPattern _ items, ts => ∃ q o us c, ts = q :: o :: (us ++ [c]) ∧ q.kind = .op .singleQuote ∧
      o.kind = .op .lBrace ∧ SpellsList items us ∧ c.kind = .op .rBrace
  | call _ callee _ args, ts => ∃ us o vs c, ts = us ++ o :: (vs ++ [c]) ∧ callee.Spells us ∧
      o.kind = .op .lParen ∧ SpellsList args vs ∧ c.kind = .op .rParen
  | member _ target name, ts => ∃ us d t, ts = us ++ [d, t] ∧ target.Spells us ∧
      d.kind = .op .dot ∧ t.kind.isName = true ∧ t.text = name
  | scope _ outer name, ts => ∃ us d t, ts = us ++ [d, t] ∧ outer.Spells us ∧
      d.kind = .op .scopeResolution ∧ t.kind.isName = true ∧ t.text = name

/-- The tokens spell the expressions with commas between them. -/
def SpellsList : List (Expr α) → List Token → Prop
  | [], ts => ts = []
  | e :: es, ts => ∃ us vs, ts = us ++ vs ∧ e.Spells us ∧ SpellsTail es vs

/-- The tokens spell the expressions with a comma before each. -/
def SpellsTail : List (Expr α) → List Token → Prop
  | [], ts => ts = []
  | e :: es, ts => ∃ m us vs, ts = m :: (us ++ vs) ∧ m.kind = .op .comma ∧ e.Spells us ∧
      SpellsTail es vs

end

/-- The expression without its tags. -/
def erase (e : Expr α) : Expr Unit := e.map fun _ => ()

/-! ### Tags do not matter -/

@[simp] theorem level_map (f : α → β) (e : Expr α) : (e.map f).level = e.level := by
  cases e <;> rfl

@[simp] theorem isName_map (f : α → β) (e : Expr α) : (e.map f).isName = e.isName := by
  cases e <;> rfl

theorem mapAll_eq_nil_iff (f : α → β) {es : List (Expr α)} : mapAll f es = [] ↔ es = [] := by
  rw [mapAll_eq_map, List.map_eq_nil_iff]

mutual

theorem canonical_map (f : α → β) (reading : LessEqualReading) :
    ∀ e : Expr α, (e.map f).Canonical reading ↔ e.Canonical reading
  | identifier _ _ | systemIdentifier _ _ | literal _ _ _ => Iff.rfl
  | unary _ op operand => by simp only [map, Canonical, level_map, canonical_map f _ operand]
  | binary _ op lhs rhs => by
    simp only [map, Canonical, level_map, canonical_map f _ lhs, canonical_map f _ rhs]
  | parenthesis _ inner => by simp only [map, Canonical, canonical_map f _ inner]
  | index _ target subscript => by
    simp only [map, Canonical, level_map, canonical_map f _ target, canonical_map f _ subscript]
  | slice _ _ target left right => by
    simp only [map, Canonical, level_map, canonical_map f _ target, canonical_map f _ left,
      canonical_map f _ right]
  | conditional _ condition thenExpr elseExpr => by
    simp only [map, Canonical, level_map, canonical_map f _ condition, canonical_map f _ thenExpr,
      canonical_map f _ elseExpr]
  | assignment _ op target value => by
    simp only [map, Canonical, level_map, canonical_map f _ target, canonical_map f _ value]
  | delayedAssignment _ _ _ _ _ _ _ => Iff.rfl
  | concatenation _ items => by
    simp only [map, Canonical, allCanonical_map f items, ne_eq, mapAll_eq_nil_iff]
  | replication _ count items => by
    simp only [map, Canonical, canonical_map f _ count, allCanonical_map f items]
  | arrayPattern _ items => by simp only [map, Canonical, allCanonical_map f items]
  | call _ callee _ args => by simp only [map, Canonical, isName_map, allCanonical_map f args]
  | member _ target _ => by simp only [map, Canonical, level_map, canonical_map f _ target]
  | scope _ outer _ => by simp only [map, Canonical, level_map, canonical_map f _ outer]

theorem allCanonical_map (f : α → β) :
    ∀ es : List (Expr α), AllCanonical (mapAll f es) ↔ AllCanonical es
  | [] => Iff.rfl
  | e :: es => by simp only [mapAll, AllCanonical, canonical_map f _ e, allCanonical_map f es]

end

mutual

theorem spells_map (f : α → β) :
    ∀ (e : Expr α) (ts : List Token), (e.map f).Spells ts ↔ e.Spells ts
  | identifier _ _, _ | systemIdentifier _ _, _ | literal _ _ _, _ => Iff.rfl
  | unary _ op operand, _ => by simp only [map, Spells, spells_map f operand]
  | binary _ op lhs rhs, _ => by simp only [map, Spells, spells_map f lhs, spells_map f rhs]
  | parenthesis _ inner, _ => by simp only [map, Spells, spells_map f inner]
  | index _ target subscript, _ => by
    simp only [map, Spells, spells_map f target, spells_map f subscript]
  | slice _ _ target left right, _ => by
    simp only [map, Spells, spells_map f target, spells_map f left, spells_map f right]
  | conditional _ condition thenExpr elseExpr, _ => by
    simp only [map, Spells, spells_map f condition, spells_map f thenExpr, spells_map f elseExpr]
  | assignment _ op target value, _ => by
    simp only [map, Spells, spells_map f target, spells_map f value]
  | delayedAssignment _ _ _ _ _ _ _, _ => Iff.rfl
  | concatenation _ items, _ => by simp only [map, Spells, spellsList_map f items]
  | replication _ count items, _ => by
    simp only [map, Spells, spells_map f count, spellsList_map f items]
  | arrayPattern _ items, _ => by simp only [map, Spells, spellsList_map f items]
  | call _ callee _ args, _ => by
    simp only [map, Spells, spells_map f callee, spellsList_map f args]
  | member _ target _, _ => by simp only [map, Spells, spells_map f target]
  | scope _ outer _, _ => by simp only [map, Spells, spells_map f outer]

theorem spellsList_map (f : α → β) :
    ∀ (es : List (Expr α)) (ts : List Token), SpellsList (mapAll f es) ts ↔ SpellsList es ts
  | [], _ => Iff.rfl
  | e :: es, _ => by simp only [mapAll, SpellsList, spells_map f e, spellsTail_map f es]

theorem spellsTail_map (f : α → β) :
    ∀ (es : List (Expr α)) (ts : List Token), SpellsTail (mapAll f es) ts ↔ SpellsTail es ts
  | [], _ => Iff.rfl
  | e :: es, _ => by simp only [mapAll, SpellsTail, spells_map f e, spellsTail_map f es]

end

/-! ### The first token -/

end Expr

/-- Kinds of tokens that an expression can start with. -/
def TokenKind.startsExpression (kind : TokenKind) : Bool :=
  match kind with
  | .literal | .stringLiteral => true
  | .op .lParen | .op .lBrace | .op .singleQuote | .op .dollar => true
  | _ => kind.isName || (UnaryOp.ofKind? kind).isSome

/-- Whether a list of tokens starts as an expression does. -/
def StartsExpression (ts : List Token) : Prop :=
  ∃ t us, ts = t :: us ∧ t.kind.startsExpression = true

theorem StartsExpression.append {ts : List Token} (h : StartsExpression ts) (us : List Token) :
    StartsExpression (ts ++ us) := by
  obtain ⟨t, vs, rfl, ht⟩ := h
  exact ⟨t, vs ++ us, rfl, ht⟩

theorem UnaryOp.startsExpression {op : UnaryOp} {kind : TokenKind} (hp : op.isPostfix = false)
    (hk : kind ∈ op.kinds) : kind.startsExpression = true := by
  have h := UnaryOp.ofKind?_eq_some_iff.2 ⟨hp, hk⟩
  unfold TokenKind.startsExpression
  split <;> simp [h]

theorem TokenKind.startsExpression_of_isName {kind : TokenKind} (h : kind.isName = true) :
    kind.startsExpression = true := by
  unfold TokenKind.startsExpression
  split <;> simp [h]

namespace Expr

/-- The first token that spells an expression shows that it is one. -/
theorem Spells.starts : ∀ {e : Expr α} {ts : List Token}, e.Spells ts → StartsExpression ts
  | identifier _ _, _, ⟨t, hts, ht, _⟩ => ⟨t, [], hts, TokenKind.startsExpression_of_isName ht⟩
  | systemIdentifier _ _, _, ⟨d, w, hts, hd, _⟩ => ⟨d, [w], hts, by rw [hd]; rfl⟩
  | literal _ _ _, _, ⟨t, hts, ht, _⟩ => by
    refine ⟨t, [], hts, ?_⟩
    unfold Token.literalKind? at ht
    split at ht
    · simp only [*]; rfl
    · simp only [*]; rfl
    · cases ht
  | unary _ op operand, _, h => by
    unfold Spells at h
    split at h
    · obtain ⟨us, t, rfl, hus, -⟩ := h
      exact hus.starts.append _
    · rename_i hp
      obtain ⟨t, us, rfl, ht, -⟩ := h
      exact ⟨t, us, rfl, UnaryOp.startsExpression (by simpa using hp) ht⟩
  | binary _ _ lhs _, _, ⟨us, _, _, hts, hus, _⟩ => hts ▸ hus.starts.append _
  | parenthesis _ _, _, ⟨o, us, c, hts, ho, _⟩ => ⟨o, us ++ [c], hts, by rw [ho]; rfl⟩
  | index _ target _, _, ⟨us, _, _, _, hts, hus, _⟩ => hts ▸ hus.starts.append _
  | slice _ _ target _ _, _, ⟨us, _, _, _, _, _, hts, hus, _⟩ => hts ▸ hus.starts.append _
  | conditional _ condition _ _, _, ⟨us, _, _, _, _, hts, hus, _⟩ => hts ▸ hus.starts.append _
  | assignment _ _ target _, _, ⟨us, _, _, hts, hus, _⟩ => hts ▸ hus.starts.append _
  | concatenation _ _, _, ⟨o, us, c, hts, ho, _⟩ => ⟨o, us ++ [c], hts, by rw [ho]; rfl⟩
  | replication _ _ _, _, ⟨o, us, o', vs, c', c, hts, ho, _⟩ =>
    ⟨o, us ++ o' :: (vs ++ [c', c]), hts, by rw [ho]; rfl⟩
  | arrayPattern _ _, _, ⟨q, o, us, c, hts, hq, _⟩ => ⟨q, o :: (us ++ [c]), hts, by rw [hq]; rfl⟩
  | call _ callee _ _, _, ⟨us, _, _, _, hts, hus, _⟩ => hts ▸ hus.starts.append _
  | member _ target _, _, ⟨us, _, _, hts, hus, _⟩ => hts ▸ hus.starts.append _
  | scope _ outer _, _, ⟨us, _, _, hts, hus, _⟩ => hts ▸ hus.starts.append _

/-! ### Balance -/

/-- The name that an expression is, if it starts with a dollar sign. -/
def systemName? : Expr α → Option String
  | systemIdentifier _ name => some name
  | _ => none

/-- The names with a dollar sign that occur in an expression. -/
def systemNames (e : Expr α) : List String := e.walk.filterMap systemName?

/-- The names with a dollar sign that occur in some expressions. -/
def allSystemNames (es : List (Expr α)) : List String := (walkAll es).filterMap systemName?

end Expr

/-- Kinds of tokens between the brackets and conditionals of an expression, apart from the words
behind dollar signs. -/
def TokenKind.isPlain : TokenKind → Bool
  | .identifier | .literal | .stringLiteral => true
  | .word k => k == .kwInside || k.isTimeUnit
  | .op .semicolon | .op .sharp | .op .atSign | .op .backQuote | .op .doubleBackQuote => false
  | .op o => (TokenKind.op o).isFlat
  | _ => false

/-- A token of plain kind, or a word that makes one of some names when a dollar sign is put before
it. -/
def PlainToken (names : List String) (t : Token) : Prop :=
  t.kind.isPlain = true ∨ t.kind.isWord = true ∧ "$" ++ t.text ∈ names

theorem TokenKind.isFlat_of_isPlain {kind : TokenKind} (h : kind.isPlain = true) : kind.isFlat = true := by
  revert h
  cases kind with
  | op o => cases o <;> decide
  | _ => intro _; rfl

theorem TokenKind.isFlat_of_isWord {kind : TokenKind} (h : kind.isWord = true) : kind.isFlat = true := by
  cases kind with
  | op o => cases h
  | _ => rfl

theorem PlainToken.isFlat {names : List String} {t : Token} (h : PlainToken names t) :
    t.kind.isFlat = true := by
  rcases h with h | ⟨h, -⟩
  · exact TokenKind.isFlat_of_isPlain h
  · exact TokenKind.isFlat_of_isWord h

section Plain

variable {kind : TokenKind}

theorem TokenKind.isPlain_of_isName (h : kind.isName = true) : kind.isPlain = true := by
  unfold TokenKind.isName TokenKind.isTimeUnit TokenKind.isWordWith at h
  cases kind <;> simp_all [TokenKind.isPlain]

theorem Token.isPlain_of_literalKind? {t : Token} {k : LiteralKind} (h : t.literalKind? = some k) :
    t.kind.isPlain = true := by
  unfold Token.literalKind? at h
  split at h
  · simp only [*]; rfl
  · simp only [*]; rfl
  · cases h

theorem UnaryOp.isPlain {op : UnaryOp} (h : kind ∈ op.kinds) : kind.isPlain = true := by
  revert h
  revert kind
  cases op <;> decide

theorem BinaryOp.isPlain {op : BinaryOp} (h : kind ∈ op.kinds) : kind.isPlain = true := by
  revert h
  revert kind
  cases op <;> decide

theorem AssignOp.isPlain (op : AssignOp) : op.kind.isPlain = true := by cases op <;> decide

end Plain

namespace Expr

variable {names : List String}

mutual

/-- The brackets of an expression nest, and between them stand plain tokens. -/
theorem Spells.balanced : ∀ {e : Expr α} {ts : List Token}, e.Spells ts → e.systemNames ⊆ names →
    Balanced (PlainToken names) ts
  | identifier _ _, _, ⟨t, hts, ht, _⟩, _ =>
    hts ▸ .one (.inl (TokenKind.isPlain_of_isName ht))
  | systemIdentifier _ _, _, ⟨d, w, hts, hd, hw, _, hname⟩, hn => by
    subst hts hname
    exact .cons (.inl (by rw [hd]; rfl)) (.one (.inr ⟨hw, hn (by simp [systemNames, walk, systemName?])⟩))
  | literal _ _ _, _, ⟨t, hts, ht, _⟩, _ => hts ▸ .one (.inl (Token.isPlain_of_literalKind? ht))
  | unary _ op operand, _, h, hn => by
    have ih {us : List Token} (hus : operand.Spells us) : Balanced (PlainToken names) us :=
      hus.balanced (by simpa [systemNames, walk, systemName?, List.filterMap_cons] using hn)
    unfold Spells at h
    split at h
    · obtain ⟨us, t, rfl, hus, ht⟩ := h
      exact .append (ih hus) (.one (.inl (UnaryOp.isPlain ht)))
    · obtain ⟨t, us, rfl, ht, hus⟩ := h
      exact .cons (.inl (UnaryOp.isPlain ht)) (ih hus)
  | binary _ _ lhs rhs, _, ⟨us, t, vs, hts, hus, ht, hvs⟩, hn => by
    subst hts
    simp only [systemNames, walk, systemName?, List.filterMap_cons, List.filterMap_append,
      List.append_subset] at hn
    exact .append (hus.balanced hn.1) (.cons (.inl (BinaryOp.isPlain ht)) (hvs.balanced hn.2))
  | parenthesis _ inner, _, ⟨o, us, c, hts, ho, hus, hc⟩, hn => by
    subst hts
    exact .pair (by rw [ho, hc]; decide)
      (hus.balanced (by simpa [systemNames, walk, systemName?, List.filterMap_cons] using hn))
  | index _ target subscript, _, ⟨us, o, vs, c, hts, hus, ho, hvs, hc⟩, hn => by
    subst hts
    simp only [systemNames, walk, systemName?, List.filterMap_cons, List.filterMap_append,
      List.append_subset] at hn
    exact .append (hus.balanced hn.1) (.pair (by rw [ho, hc]; decide) (hvs.balanced hn.2))
  | slice _ kind target left right, _, ⟨us, o, vs, m, ws, c, hts, hus, ho, hvs, hm, hws, hc⟩, hn => by
    subst hts
    simp only [systemNames, walk, systemName?, List.filterMap_cons, List.filterMap_append,
      List.append_subset] at hn
    refine .append (hus.balanced hn.1) ?_
    cases kind with
    | range => exact .bounds ho hm hc (hvs.balanced hn.2.1) (hws.balanced hn.2.2)
    | indexedUp | indexedDown =>
      rw [show vs ++ m :: (ws ++ [c]) = (vs ++ m :: ws) ++ [c] by simp]
      exact .pair (by rw [ho, hc]; decide) (.append (hvs.balanced hn.2.1)
        (.cons (.inl (by rw [hm]; rfl)) (hws.balanced hn.2.2)))
  | conditional _ condition thenExpr elseExpr, _, ⟨us, q, vs, m, ws, hts, hus, hq, hvs, hm, hws⟩, hn => by
    subst hts
    simp only [systemNames, walk, systemName?, List.filterMap_cons, List.filterMap_append,
      List.append_subset] at hn
    rw [show us ++ q :: (vs ++ m :: ws) = us ++ (q :: (vs ++ [m]) ++ ws) by simp]
    exact .append (hus.balanced hn.1) (.append (.choice hq hm (hvs.balanced hn.2.1)) (hws.balanced hn.2.2))
  | assignment _ op target value, _, ⟨us, t, vs, hts, hus, ht, hvs⟩, hn => by
    subst hts
    simp only [systemNames, walk, systemName?, List.filterMap_cons, List.filterMap_append,
      List.append_subset] at hn
    exact .append (hus.balanced hn.1) (.cons (.inl (by rw [ht]; exact op.isPlain)) (hvs.balanced hn.2))
  | concatenation _ items, _, ⟨o, us, c, hts, ho, hus, hc⟩, hn => by
    subst hts
    exact .pair (by rw [ho, hc]; decide)
      (hus.balanced (by simpa [systemNames, allSystemNames, walk, systemName?, List.filterMap_cons] using hn))
  | replication _ count items, _, ⟨o, us, o', vs, c', c, hts, ho, hus, ho', hvs, hc', hc⟩, hn => by
    subst hts
    simp only [systemNames, walk, systemName?, List.filterMap_cons, List.filterMap_append,
      List.append_subset] at hn
    rw [show us ++ o' :: (vs ++ [c', c]) = (us ++ o' :: (vs ++ [c'])) ++ [c] by simp]
    exact .pair (by rw [ho, hc]; decide) (.append (hus.balanced hn.1)
      (.pair (by rw [ho', hc']; decide) (hvs.balanced hn.2)))
  | arrayPattern _ items, _, ⟨q, o, us, c, hts, hq, ho, hus, hc⟩, hn => by
    subst hts
    exact .cons (.inl (by rw [hq]; rfl)) (.pair (by rw [ho, hc]; decide)
      (hus.balanced (by simpa [systemNames, allSystemNames, walk, systemName?, List.filterMap_cons] using hn)))
  | call _ callee _ args, _, ⟨us, o, vs, c, hts, hus, ho, hvs, hc⟩, hn => by
    subst hts
    simp only [systemNames, walk, systemName?, List.filterMap_cons, List.filterMap_append,
      List.append_subset] at hn
    exact .append (hus.balanced hn.1) (.pair (by rw [ho, hc]; decide) (hvs.balanced hn.2))
  | member _ target _, _, ⟨us, d, t, hts, hus, hd, ht, _⟩, hn => by
    subst hts
    exact .append (hus.balanced (by simpa [systemNames, walk, systemName?, List.filterMap_cons] using hn))
      (.cons (.inl (by rw [hd]; rfl)) (.one (.inl (TokenKind.isPlain_of_isName ht))))
  | scope _ outer _, _, ⟨us, d, t, hts, hus, hd, ht, _⟩, hn => by
    subst hts
    exact .append (hus.balanced (by simpa [systemNames, walk, systemName?, List.filterMap_cons] using hn))
      (.cons (.inl (by rw [hd]; rfl)) (.one (.inl (TokenKind.isPlain_of_isName ht))))

theorem SpellsList.balanced : ∀ {es : List (Expr α)} {ts : List Token}, SpellsList es ts →
    allSystemNames es ⊆ names → Balanced (PlainToken names) ts
  | [], _, hts, _ => by
    unfold SpellsList at hts
    exact hts ▸ .nil
  | e :: es, _, ⟨us, vs, hts, hus, hvs⟩, hn => by
    subst hts
    simp only [allSystemNames, walkAll, List.filterMap_append, List.append_subset] at hn
    exact .append (hus.balanced hn.1) (hvs.balanced hn.2)

theorem SpellsTail.balanced : ∀ {es : List (Expr α)} {ts : List Token}, SpellsTail es ts →
    allSystemNames es ⊆ names → Balanced (PlainToken names) ts
  | [], _, hts, _ => by
    unfold SpellsTail at hts
    exact hts ▸ .nil
  | e :: es, _, ⟨m, us, vs, hts, hm, hus, hvs⟩, hn => by
    subst hts
    simp only [allSystemNames, walkAll, List.filterMap_append, List.append_subset] at hn
    exact .cons (.inl (by rw [hm]; rfl)) (.append (hus.balanced hn.1) (hvs.balanced hn.2))

end

variable {e : Expr α} {es : List (Expr α)} {ts us : List Token} {opening closing : TokenKind}

/-- A search for a closing bracket passes over what spells an expression. -/
theorem Spells.skipsPairs (h : e.Spells ts) (hp : (opening, closing) ∈ bracketPairs) :
    SkipsPairs opening closing ts :=
  (h.balanced (List.Subset.refl _)).skipsPairs (fun _ => PlainToken.isFlat) hp

theorem SpellsList.skipsPairs (h : SpellsList es ts) (hp : (opening, closing) ∈ bracketPairs) :
    SkipsPairs opening closing ts :=
  (h.balanced (List.Subset.refl _)).skipsPairs (fun _ => PlainToken.isFlat) hp

/-- A search for a closing bracket passes over the two bounds of a select. -/
theorem skipsPairs_bounds {left right : Expr α} {kind : SliceKind} {m : Token} (hts : left.Spells ts)
    (hm : m.kind = kind.separator) (hus : right.Spells us) (hp : (opening, closing) ∈ bracketPairs) :
    SkipsPairs opening closing (ts ++ m :: us) := by
  have hflat : m.kind.isOpener = false ∧ m.kind.isCloser = false := by
    rw [hm]
    cases kind <;> decide
  obtain ⟨ho, hc⟩ := neutral_of_ne_bracket hp hflat.1 hflat.2
  exact (hts.skipsPairs hp).append (.cons (.one ho hc) (hus.skipsPairs hp))

end Expr

end SystemVerilog
