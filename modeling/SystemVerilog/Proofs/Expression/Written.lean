import SystemVerilog.Proofs.Expression.Spelling
import SystemVerilog.Proofs.Lexing.Spelled

/-!
# Expressions written down

`e.marks` are the lexemes that write the expression `e` down, in their order; only the word of a name
with a dollar sign is joined to what is before it. Where the names and literals of the expression are
lexemes, the text of the marks is cut into them again, and the tokens spell the expression.
-/

namespace SystemVerilog

/-! ### Operators -/

/-- The kind that an operator is written with. -/
def UnaryOp.kind (op : UnaryOp) : TokenKind := op.kinds.head (by cases op <;> nofun)

/-- The kind that an operator is written with. -/
def BinaryOp.kind (op : BinaryOp) : TokenKind := op.kinds.head (by cases op <;> nofun)

theorem Lexable.unaryOp (op : UnaryOp) : Lexable [.fixed op.kind] := by
  cases op <;> exact .op _

theorem Lexable.binaryOp (op : BinaryOp) : Lexable [.fixed op.kind] := by
  cases op <;> first | exact .op _ | exact .keyword (by decide)

theorem Lexable.assignOp (op : AssignOp) : Lexable [.fixed op.kind] := by
  cases op <;> exact .op _

theorem Lexable.separator (kind : SliceKind) : Lexable [.fixed kind.separator] := by
  cases kind <;> exact .op _

/-! ### Marks of expressions -/

namespace Expr

variable {α : Type}

mutual

/-- The lexemes that write an expression down. -/
def marks : Expr α → List Mark
  | identifier _ name => [.word name]
  | systemIdentifier _ name =>
    [.fixed (.op .dollar), (Mark.word (String.ofList (name.toList.drop 1))).join]
  | literal _ kind text => [⟨⟨kind.tokenKind, text⟩, false⟩]
  | unary _ op operand =>
    if op.isPostfix then operand.marks ++ [.fixed op.kind] else .fixed op.kind :: operand.marks
  | binary _ op lhs rhs => lhs.marks ++ .fixed op.kind :: rhs.marks
  | parenthesis _ inner => .fixed (.op .lParen) :: (inner.marks ++ [.fixed (.op .rParen)])
  | index _ target subscript =>
    target.marks ++ .fixed (.op .lBracket) :: (subscript.marks ++ [.fixed (.op .rBracket)])
  | slice _ kind target left right => target.marks ++ .fixed (.op .lBracket) ::
      (left.marks ++ .fixed kind.separator :: (right.marks ++ [.fixed (.op .rBracket)]))
  | conditional _ condition thenExpr elseExpr => condition.marks ++ .fixed (.op .questionMark) ::
      (thenExpr.marks ++ .fixed (.op .colon) :: elseExpr.marks)
  | assignment _ op target value => target.marks ++ .fixed op.kind :: value.marks
  | delayedAssignment _ _ _ _ _ _ _ => []
  | concatenation _ items => .fixed (.op .lBrace) :: (marksList items ++ [.fixed (.op .rBrace)])
  | replication _ count items => .fixed (.op .lBrace) :: (count.marks ++ .fixed (.op .lBrace) ::
      (marksList items ++ [.fixed (.op .rBrace), .fixed (.op .rBrace)]))
  | arrayPattern _ items => .fixed (.op .singleQuote) :: .fixed (.op .lBrace) ::
      (marksList items ++ [.fixed (.op .rBrace)])
  | call _ callee _ args =>
    callee.marks ++ .fixed (.op .lParen) :: (marksList args ++ [.fixed (.op .rParen)])
  | member _ target name => target.marks ++ [.fixed (.op .dot), .word name]
  | scope _ outer name => outer.marks ++ [.fixed (.op .scopeResolution), .word name]

/-- The lexemes of expressions with commas between them. -/
def marksList : List (Expr α) → List Mark
  | [] => []
  | e :: es => e.marks ++ marksTail es

/-- The lexemes of expressions with a comma before each. -/
def marksTail : List (Expr α) → List Mark
  | [] => []
  | e :: es => .fixed (.op .comma) :: (e.marks ++ marksTail es)

end

/-- What the names and literals at the root of an expression must be to be lexemes. -/
def RootLexical : Expr α → Prop
  | identifier _ name | member _ _ name | scope _ _ name => isNameText name = true
  | systemIdentifier _ name => ∃ word, name = "$" ++ word ∧ isWord word = true
  | literal _ kind text => IsLiteral kind text
  | delayedAssignment _ _ _ _ _ _ _ => False
  | _ => True

/-- The names and literals of the expression are lexemes, and no delay stands in it. -/
def Lexical (e : Expr α) : Prop := ∀ part ∈ e.walk, part.RootLexical

/-- The names and literals of the expressions are lexemes, and no delay stands in them. -/
def AllLexical (es : List (Expr α)) : Prop := ∀ part ∈ walkAll es, part.RootLexical

theorem allLexical_cons {e : Expr α} {es : List (Expr α)} :
    AllLexical (e :: es) ↔ e.Lexical ∧ AllLexical es := List.forall_mem_append

theorem allLexical_of_forall {es : List (Expr α)} (h : ∀ e ∈ es, e.Lexical) : AllLexical es := by
  induction es with
  | nil => exact fun _ h => by cases h
  | cons e es ih => exact allLexical_cons.2 ⟨h e (by simp), ih fun e he => h e (by simp [he])⟩

/-- A rule for the parts of an expression: what `Lexical` says of the root and of the walk behind it. -/
theorem Lexical.root {e : Expr α} {parts : List (Expr α)} (h : e.Lexical) (hw : e.walk = e :: parts) :
    e.RootLexical ∧ ∀ part ∈ parts, part.RootLexical := by
  unfold Lexical at h
  rw [hw] at h
  exact List.forall_mem_cons.1 h

/-! ### The text of an expression is cut into its lexemes -/

mutual

theorem lexable_marks : ∀ {e : Expr α}, e.Lexical → Lexable e.marks
  | identifier _ name, h => .word (isWord_of_isNameText (h.root rfl).1)
  | systemIdentifier _ name, h => by
    obtain ⟨word, rfl, hword⟩ := (h.root rfl).1
    have hdrop : String.ofList (("$" ++ word).toList.drop 1) = word := by
      rw [String.toList_append]
      exact String.ofList_toList
    rw [marks, hdrop]
    exact .touched (fun r => leads_dollar _) rfl rfl hword
  | literal _ _ _, h => .literal (h.root rfl).1
  | unary _ op operand, h => by
    have hoperand : operand.Lexical := (h.root rfl).2
    by_cases hp : op.isPostfix = true
    · rw [marks, if_pos hp]
      exact (lexable_marks hoperand).append (.unaryOp op)
    · rw [marks, if_neg hp]
      exact .cons (.unaryOp op) (lexable_marks hoperand)
  | binary _ op lhs rhs, h => by
    obtain ⟨hlhs, hrhs⟩ := List.forall_mem_append.1 (h.root rfl).2
    exact (lexable_marks hlhs).append (.cons (.binaryOp op) (lexable_marks hrhs))
  | parenthesis _ inner, h => by
    have hinner : inner.Lexical := (h.root rfl).2
    exact .cons (.op _) ((lexable_marks hinner).append (.op _))
  | index _ target subscript, h => by
    obtain ⟨htarget, hsubscript⟩ := List.forall_mem_append.1 (h.root rfl).2
    exact (lexable_marks htarget).append (.cons (.op _) ((lexable_marks hsubscript).append (.op _)))
  | slice _ kind target left right, h => by
    obtain ⟨htarget, hbounds⟩ := List.forall_mem_append.1 (h.root rfl).2
    obtain ⟨hleft, hright⟩ := List.forall_mem_append.1 hbounds
    have hsecond := Lexable.cons (.separator kind) ((lexable_marks hright).append (.op .rBracket))
    exact (lexable_marks htarget).append (.cons (.op _) ((lexable_marks hleft).append hsecond))
  | conditional _ condition thenExpr elseExpr, h => by
    obtain ⟨hcondition, hbranches⟩ := List.forall_mem_append.1 (h.root rfl).2
    obtain ⟨hthen, helse⟩ := List.forall_mem_append.1 hbranches
    have hsecond := Lexable.cons (.op .colon) (lexable_marks helse)
    exact (lexable_marks hcondition).append (.cons (.op _) ((lexable_marks hthen).append hsecond))
  | assignment _ op target value, h => by
    obtain ⟨htarget, hvalue⟩ := List.forall_mem_append.1 (h.root rfl).2
    exact (lexable_marks htarget).append (.cons (.assignOp op) (lexable_marks hvalue))
  | delayedAssignment _ _ _ _ _ _ _, h => (h.root rfl).1.elim
  | concatenation _ items, h =>
    .cons (.op _) ((lexable_marksList (h.root rfl).2).append (.op _))
  | replication _ count items, h => by
    obtain ⟨hcount, hitems⟩ := List.forall_mem_append.1 (h.root rfl).2
    have hclose := Lexable.cons (.op .rBrace) (.op .rBrace)
    have hinner := Lexable.cons (.op .lBrace) ((lexable_marksList hitems).append hclose)
    exact .cons (.op _) ((lexable_marks hcount).append hinner)
  | arrayPattern _ items, h =>
    .cons (.op _) (.cons (.op _) ((lexable_marksList (h.root rfl).2).append (.op _)))
  | call _ callee _ args, h => by
    obtain ⟨hcallee, hargs⟩ := List.forall_mem_append.1 (h.root rfl).2
    exact (lexable_marks hcallee).append (.cons (.op _) ((lexable_marksList hargs).append (.op _)))
  | member _ target _, h => by
    obtain ⟨hname, htarget⟩ := h.root rfl
    exact (lexable_marks htarget).append (.cons (.op _) (.word (isWord_of_isNameText hname)))
  | scope _ outer _, h => by
    obtain ⟨hname, houter⟩ := h.root rfl
    exact (lexable_marks houter).append (.cons (.op _) (.word (isWord_of_isNameText hname)))

theorem lexable_marksList : ∀ {es : List (Expr α)}, AllLexical es → Lexable (marksList es)
  | [], _ => .nil
  | e :: es, h => by
    obtain ⟨he, hes⟩ := allLexical_cons.1 h
    exact (lexable_marks he).append (lexable_marksTail hes)

theorem lexable_marksTail : ∀ {es : List (Expr α)}, AllLexical es → Lexable (marksTail es)
  | [], _ => .nil
  | e :: es, h => by
    obtain ⟨he, hes⟩ := allLexical_cons.1 h
    exact .cons (.op _) ((lexable_marks he).append (lexable_marksTail hes))

end

end Expr

/-! ### The tokens of an expression spell it -/

theorem TokenKind.isWord_ofWord (text : String) : (ofWord text).isWord = true := by
  unfold ofWord
  split <;> rfl

theorem IsLiteral.literalKind? {kind : LiteralKind} {text : String} {t : Token}
    (h : IsLiteral kind text) (hkind : t.kind = kind.tokenKind) (htext : t.text = text) :
    t.literalKind? = some kind := by
  by_cases hs : kind = .string
  · subst hs
    rw [Token.literalKind?, hkind]
    rfl
  · have hliteral : kind.tokenKind = .literal := by
      cases kind <;> first | rfl | exact absurd rfl hs
    rw [Token.literalKind?, hkind, hliteral]
    show some (LiteralKind.ofNumber t.text.toList) = some kind
    rw [htext, h.shape hs]

theorem UnaryOp.kind_mem (op : UnaryOp) : op.kind ∈ op.kinds := List.head_mem _

theorem BinaryOp.kind_mem (op : BinaryOp) : op.kind ∈ op.kinds := List.head_mem _

namespace Expr

variable {α : Type}

mutual

/-- The tokens that the marks of an expression become spell it. -/
theorem spells_of_realizes : ∀ {e : Expr α} {before : Option Token} {ts : List Token},
    Realizes before e.marks ts → e.Lexical → e.Spells ts
  | identifier _ name, _, _, h, hl => by
    obtain ⟨t, us, rfl, hkind, htext, hus⟩ := h.name (hl.root rfl).1
    obtain rfl : us = [] := hus
    exact ⟨t, rfl, hkind, htext⟩
  | systemIdentifier _ name, _, _, h, hl => by
    obtain ⟨word, rfl, -⟩ := (hl.root rfl).1
    obtain ⟨d, us, rfl, hd, w, vs, rfl, hlexeme, htouch, hvs⟩ := h.fixed
    obtain rfl : vs = [] := hvs
    have hdrop : String.ofList (("$" ++ word).toList.drop 1) = word := by
      rw [String.toList_append]
      exact String.ofList_toList
    have hkind : w.kind = .ofWord word := by
      rw [← hdrop]
      exact congrArg Lexeme.kind hlexeme
    have htext : w.text = word := by
      rw [← hdrop]
      exact congrArg Lexeme.text hlexeme
    exact ⟨d, w, rfl, hd, by rw [hkind]; exact TokenKind.isWord_ofWord word, htouch d rfl,
      by rw [htext]⟩
  | literal _ kind text, _, _, h, hl => by
    obtain ⟨t, us, rfl, hkind, htext, hus⟩ := h.of_cons
    obtain rfl : us = [] := hus
    exact ⟨t, rfl, (hl.root rfl).1.literalKind? hkind htext, htext⟩
  | unary _ op operand, _, _, h, hl => by
    have hoperand : operand.Lexical := (hl.root rfl).2
    by_cases hp : op.isPostfix = true
    · rw [marks, if_pos hp] at h
      rw [Spells, if_pos hp]
      obtain ⟨us, vs, rfl, hus, hvs⟩ := h.of_append
      obtain ⟨t, rfl, ht⟩ := hvs.last
      exact ⟨us, t, rfl, spells_of_realizes hus hoperand, ht ▸ op.kind_mem⟩
    · rw [marks, if_neg hp] at h
      rw [Spells, if_neg hp]
      obtain ⟨t, us, rfl, ht, hus⟩ := h.fixed
      exact ⟨t, us, rfl, ht ▸ op.kind_mem, spells_of_realizes hus hoperand⟩
  | binary _ op lhs rhs, _, _, h, hl => by
    obtain ⟨hlhs, hrhs⟩ := List.forall_mem_append.1 (hl.root rfl).2
    obtain ⟨us, vs, rfl, hus, htail⟩ := h.of_append
    obtain ⟨t, vs, rfl, ht, hvs⟩ := htail.fixed
    exact ⟨us, t, vs, rfl, spells_of_realizes hus hlhs, ht ▸ op.kind_mem, spells_of_realizes hvs hrhs⟩
  | parenthesis _ inner, _, _, h, hl => by
    obtain ⟨o, us, rfl, ho, hrest⟩ := h.fixed
    obtain ⟨us, vs, rfl, hus, hvs⟩ := hrest.of_append
    obtain ⟨c, rfl, hc⟩ := hvs.last
    exact ⟨o, us, c, rfl, ho, spells_of_realizes hus (hl.root rfl).2, hc⟩
  | index _ target subscript, _, _, h, hl => by
    obtain ⟨htarget, hsubscript⟩ := List.forall_mem_append.1 (hl.root rfl).2
    obtain ⟨us, vs, rfl, hus, htail⟩ := h.of_append
    obtain ⟨o, vs, rfl, ho, hrest⟩ := htail.fixed
    obtain ⟨vs, ws, rfl, hvs, hws⟩ := hrest.of_append
    obtain ⟨c, rfl, hc⟩ := hws.last
    exact ⟨us, o, vs, c, rfl, spells_of_realizes hus htarget, ho, spells_of_realizes hvs hsubscript, hc⟩
  | slice _ kind target left right, _, _, h, hl => by
    obtain ⟨htarget, hbounds⟩ := List.forall_mem_append.1 (hl.root rfl).2
    obtain ⟨hleft, hright⟩ := List.forall_mem_append.1 hbounds
    obtain ⟨us, vs, rfl, hus, htail⟩ := h.of_append
    obtain ⟨o, vs, rfl, ho, hrest⟩ := htail.fixed
    obtain ⟨vs, ws, rfl, hvs, htail⟩ := hrest.of_append
    obtain ⟨m, ws, rfl, hm, hrest⟩ := htail.fixed
    obtain ⟨ws, xs, rfl, hws, hxs⟩ := hrest.of_append
    obtain ⟨c, rfl, hc⟩ := hxs.last
    exact ⟨us, o, vs, m, ws, c, rfl, spells_of_realizes hus htarget, ho, spells_of_realizes hvs hleft, hm,
      spells_of_realizes hws hright, hc⟩
  | conditional _ condition thenExpr elseExpr, _, _, h, hl => by
    obtain ⟨hcondition, hbranches⟩ := List.forall_mem_append.1 (hl.root rfl).2
    obtain ⟨hthen, helse⟩ := List.forall_mem_append.1 hbranches
    obtain ⟨us, vs, rfl, hus, htail⟩ := h.of_append
    obtain ⟨q, vs, rfl, hq, hrest⟩ := htail.fixed
    obtain ⟨vs, ws, rfl, hvs, htail⟩ := hrest.of_append
    obtain ⟨m, ws, rfl, hm, hws⟩ := htail.fixed
    exact ⟨us, q, vs, m, ws, rfl, spells_of_realizes hus hcondition, hq, spells_of_realizes hvs hthen, hm,
      spells_of_realizes hws helse⟩
  | assignment _ op target value, _, _, h, hl => by
    obtain ⟨htarget, hvalue⟩ := List.forall_mem_append.1 (hl.root rfl).2
    obtain ⟨us, vs, rfl, hus, htail⟩ := h.of_append
    obtain ⟨t, vs, rfl, ht, hvs⟩ := htail.fixed
    exact ⟨us, t, vs, rfl, spells_of_realizes hus htarget, ht, spells_of_realizes hvs hvalue⟩
  | delayedAssignment _ _ _ _ _ _ _, _, _, _, hl => (hl.root rfl).1.elim
  | concatenation _ items, _, _, h, hl => by
    obtain ⟨o, us, rfl, ho, hrest⟩ := h.fixed
    obtain ⟨us, vs, rfl, hus, hvs⟩ := hrest.of_append
    obtain ⟨c, rfl, hc⟩ := hvs.last
    exact ⟨o, us, c, rfl, ho, spellsList_of_realizes hus (hl.root rfl).2, hc⟩
  | replication _ count items, _, _, h, hl => by
    obtain ⟨hcount, hitems⟩ := List.forall_mem_append.1 (hl.root rfl).2
    obtain ⟨o, us, rfl, ho, hrest⟩ := h.fixed
    obtain ⟨us, vs, rfl, hus, htail⟩ := hrest.of_append
    obtain ⟨o', vs, rfl, ho', hrest⟩ := htail.fixed
    obtain ⟨vs, ws, rfl, hvs, htail⟩ := hrest.of_append
    obtain ⟨c', ws, rfl, hc', hws⟩ := htail.fixed
    obtain ⟨c, rfl, hc⟩ := hws.last
    exact ⟨o, us, o', vs, c', c, rfl, ho, spells_of_realizes hus hcount, ho',
      spellsList_of_realizes hvs hitems, hc', hc⟩
  | arrayPattern _ items, _, _, h, hl => by
    obtain ⟨q, us, rfl, hq, htail⟩ := h.fixed
    obtain ⟨o, us, rfl, ho, hrest⟩ := htail.fixed
    obtain ⟨us, vs, rfl, hus, hvs⟩ := hrest.of_append
    obtain ⟨c, rfl, hc⟩ := hvs.last
    exact ⟨q, o, us, c, rfl, hq, ho, spellsList_of_realizes hus (hl.root rfl).2, hc⟩
  | call _ callee _ args, _, _, h, hl => by
    obtain ⟨hcallee, hargs⟩ := List.forall_mem_append.1 (hl.root rfl).2
    obtain ⟨us, vs, rfl, hus, htail⟩ := h.of_append
    obtain ⟨o, vs, rfl, ho, hrest⟩ := htail.fixed
    obtain ⟨vs, ws, rfl, hvs, hws⟩ := hrest.of_append
    obtain ⟨c, rfl, hc⟩ := hws.last
    exact ⟨us, o, vs, c, rfl, spells_of_realizes hus hcallee, ho, spellsList_of_realizes hvs hargs, hc⟩
  | member _ target name, _, _, h, hl => by
    obtain ⟨hname, htarget⟩ := hl.root rfl
    obtain ⟨us, vs, rfl, hus, htail⟩ := h.of_append
    obtain ⟨d, vs, rfl, hd, htail⟩ := htail.fixed
    obtain ⟨t, ws, rfl, ht, htext, hws⟩ := htail.name hname
    obtain rfl : ws = [] := hws
    exact ⟨us, d, t, rfl, spells_of_realizes hus htarget, hd, ht, htext⟩
  | scope _ outer name, _, _, h, hl => by
    obtain ⟨hname, houter⟩ := hl.root rfl
    obtain ⟨us, vs, rfl, hus, htail⟩ := h.of_append
    obtain ⟨d, vs, rfl, hd, htail⟩ := htail.fixed
    obtain ⟨t, ws, rfl, ht, htext, hws⟩ := htail.name hname
    obtain rfl : ws = [] := hws
    exact ⟨us, d, t, rfl, spells_of_realizes hus houter, hd, ht, htext⟩

theorem spellsList_of_realizes : ∀ {es : List (Expr α)} {before : Option Token} {ts : List Token},
    Realizes before (marksList es) ts → AllLexical es → SpellsList es ts
  | [], _, _, h, _ => h
  | e :: es, _, _, h, hl => by
    obtain ⟨he, hes⟩ := allLexical_cons.1 hl
    obtain ⟨us, vs, rfl, hus, hvs⟩ := h.of_append
    exact ⟨us, vs, rfl, spells_of_realizes hus he, spellsTail_of_realizes hvs hes⟩

theorem spellsTail_of_realizes : ∀ {es : List (Expr α)} {before : Option Token} {ts : List Token},
    Realizes before (marksTail es) ts → AllLexical es → SpellsTail es ts
  | [], _, _, h, _ => h
  | e :: es, _, _, h, hl => by
    obtain ⟨he, hes⟩ := allLexical_cons.1 hl
    obtain ⟨m, us, rfl, hm, hrest⟩ := h.fixed
    obtain ⟨us, vs, rfl, hus, hvs⟩ := hrest.of_append
    exact ⟨m, us, vs, rfl, hm, spells_of_realizes hus he, spellsTail_of_realizes hvs hes⟩

end

end Expr

end SystemVerilog
