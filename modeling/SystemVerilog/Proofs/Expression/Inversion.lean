import SystemVerilog.Proofs.Expression.Spelling

/-!
# What the readers of operands and connectives have read

One relation for each reader, with one case for each way in which it succeeds: `Named` for the name of what may be
called, `Called` for the arguments behind it, `Primary` for an operand without prefix operators, and `Joined` for a
connective with what belongs to it. Every success of the reader is one of the cases, so what holds of all that is read
is proved by cases on the relation.
-/

namespace SystemVerilog

/-- The site of what is read from one cursor to another. -/
def Cursor.siteTo (c c' : Cursor) : Site := ⟨c.location, c'.rangeFrom c.position⟩

namespace Parser

variable {nested : Nested} {c c' : Cursor} {e : Expr Site} {es : List (Expr Site)} {token : Token} {rest : List Token}

/-! ### Lists -/

theorem listOf_inv (h : listOf nested c = .ok (es, c')) : (c.after = [] ∧ es = [] ∧ c' = c) ∨
    ∃ e es' c₁, nested 0 c = .ok (e, c₁) ∧ followers (comma "',' or end of list") (nested 0) c₁ = .ok (es', c') ∧
      es = e :: es' := by
  rw [listOf, atEnd_bind] at h
  split at h
  · rename_i hend
    obtain ⟨rfl, rfl⟩ := pure_eq_ok.1 h
    exact .inl ⟨Cursor.atEnd_eq_true_iff.1 hend, rfl, rfl⟩
  · obtain ⟨e, c₁, he, h⟩ := bind_eq_ok.1 h
    obtain ⟨es', c₂, hes, h⟩ := bind_eq_ok.1 h
    obtain ⟨rfl, rfl⟩ := pure_eq_ok.1 h
    exact .inr ⟨e, es', c₁, he, hes, rfl⟩

/-! ### Names and calls -/

/-- A name that starts with a token: a word, or a dollar sign and the word that touches it. -/
inductive Named (token : Token) (c : Cursor) : Expr Site → Cursor → Prop
  | identifier (name : token.kind.isName = true) :
    Named token c (.identifier (c.siteTo (c.skip 1)) token.text) (c.skip 1)
  | systemIdentifier {word : Token} {rest : List Token} (dollar : token.kind = .op .dollar)
    (ahead : c.after = token :: word :: rest) (isWord : word.kind.isWord = true) (touches : word.touches token = true) :
    Named token c (.systemIdentifier (c.siteTo (c.skip 2)) ("$" ++ word.text)) (c.skip 2)

/-- A name and perhaps the arguments behind it. -/
inductive Called (nested : Nested) (callee : Expr Site) (c : Cursor) : Expr Site → Cursor → Prop
  | bare (unopened : c.check (.op .lParen) = false) : Called nested callee c callee c
  | call {args : List (Expr Site)} {c' : Cursor}
    (read : enclosed (.op .lParen) (.op .rParen) (listOf nested) c = .ok (args, c')) :
    Called nested callee c
      (.call ⟨callee.tag.location, ⟨callee.tag.range.start, c'.position⟩⟩ callee (c.siteTo c') args) c'

theorem systemIdentifier_inv (hafter : c.after = token :: rest) (hk : token.kind = .op .dollar)
    (h : systemIdentifier c = .ok (e, c')) : Named token c e c' := by
  obtain ⟨node, hnode, rfl⟩ := tagged_eq_ok.1 h
  obtain ⟨dollar, c₁, hdollar, hnode⟩ := bind_eq_ok.1 hnode
  obtain ⟨rest', hafter', -, rfl⟩ := demandWith_eq_ok.1 hdollar
  obtain ⟨rfl, rfl⟩ := List.cons.inj (hafter.symm.trans hafter')
  rw [current?_bind, Cursor.current?, show (c.skip 1).after = rest by simp [hafter]] at hnode
  cases rest with
  | nil => exact absurd hnode fail_ne_ok
  | cons word rest =>
    dsimp only [List.head?_cons] at hnode
    split at hnode
    · rename_i hword
      obtain ⟨hword, htouches⟩ := (Bool.and_eq_true _ _).mp hword
      rw [advance?_bind, Cursor.skip_skip] at hnode
      obtain ⟨rfl, rfl⟩ := pure_eq_ok.1 hnode
      exact .systemIdentifier hk hafter hword htouches
    · exact absurd hnode fail_ne_ok

theorem callOf_inv {callee : Expr Site} (h : callOf nested callee c = .ok (e, c')) : Called nested callee c e c' := by
  rw [callOf, check_bind] at h
  split at h
  · obtain ⟨⟨parens, args⟩, c₁, hargs, h⟩ := bind_eq_ok.1 h
    obtain ⟨node, hnode, hpair⟩ := tagged_eq_ok.1 hargs
    obtain ⟨args', c₂, hread, hpure⟩ := bind_eq_ok.1 hnode
    obtain ⟨rfl, rfl⟩ := pure_eq_ok.1 hpure
    obtain ⟨rfl, rfl⟩ := Prod.mk.inj hpair
    dsimp only at h
    rw [since_bind] at h
    obtain ⟨rfl, rfl⟩ := pure_eq_ok.1 h
    exact .call hread
  · rename_i hcheck
    obtain ⟨rfl, rfl⟩ := pure_eq_ok.1 h
    exact .bare (Bool.eq_false_iff.2 hcheck)

/-! ### Operands -/

/-- An operand that starts with a token, which is no prefix operator. -/
inductive Primary (nested : Nested) (token : Token) (c : Cursor) : Expr Site → Cursor → Prop
  | parenthesis {inner : Expr Site} {c' : Cursor} (opens : token.kind = .op .lParen)
    (read : enclosed (.op .lParen) (.op .rParen) (filling "')'" (nested 0)) c = .ok (inner, c')) :
    Primary nested token c (.parenthesis (c.siteTo c') inner) c'
  | replication {first : Expr Site} {items : List (Expr Site)} {o cl : Token} {ts : List Token} {c₁ c₂ c' : Cursor}
    (opens : token.kind = .op .lBrace) (steps : c.Steps (o :: (ts ++ [cl])) c') (opener : o.kind = .op .lBrace)
    (closer : cl.kind = .op .rBrace) (read : nested 0 ((c.skip 1).ahead ts.length) = .ok (first, c₁))
    (inner : enclosed (.op .lBrace) (.op .rBrace) (listOf nested) c₁ = .ok (items, c₂)) (last : c₂.after = []) :
    Primary nested token c (.replication (c.siteTo c') first items) c'
  | concatenation {first : Expr Site} {others : List (Expr Site)} {o cl : Token} {ts : List Token}
    {c₁ c₂ c' : Cursor} (opens : token.kind = .op .lBrace) (steps : c.Steps (o :: (ts ++ [cl])) c')
    (opener : o.kind = .op .lBrace) (closer : cl.kind = .op .rBrace)
    (read : nested 0 ((c.skip 1).ahead ts.length) = .ok (first, c₁)) (unopened : c₁.check (.op .lBrace) = false)
    (more : followers (comma "',' or '\x7d'") (nested 0) c₁ = .ok (others, c₂)) :
    Primary nested token c (.concatenation (c.siteTo c') (first :: others)) c'
  | arrayPattern {items : List (Expr Site)} {c' : Cursor} (quote : token.kind = .op .singleQuote)
    (read : enclosed (.op .lBrace) (.op .rBrace) (listOf nested) (c.skip 1) = .ok (items, c')) :
    Primary nested token c (.arrayPattern (c.siteTo c') items) c'
  | literal {kind : LiteralKind} (copies : token.literalKind? = some kind) :
    Primary nested token c (.literal (c.siteTo (c.skip 1)) kind token.text) (c.skip 1)
  | named {callee e : Expr Site} {c₁ c' : Cursor} (name : Named token c callee c₁)
    (args : Called nested callee c₁ e c') : Primary nested token c e c'

theorem bracesOf_inv (hk : token.kind = .op .lBrace) (h : bracesOf nested c = .ok (e, c')) :
    Primary nested token c e c' := by
  obtain ⟨node, hnode, rfl⟩ := tagged_eq_ok.1 h
  obtain ⟨o, ts, cl, c₁, hsteps, ho, hcl, -, hinner⟩ := enclosed_eq_ok hnode
  obtain ⟨first, c₂, hfirst, hinner⟩ := bind_eq_ok.1 hinner
  rw [check_bind] at hinner
  split at hinner
  · obtain ⟨items, c₃, hitems, hinner⟩ := bind_eq_ok.1 hinner
    obtain ⟨_, c₄, hend, hpure⟩ := bind_eq_ok.1 hinner
    obtain ⟨hend, rfl⟩ := expectEnd_eq_ok.1 hend
    obtain ⟨rfl, rfl⟩ := pure_eq_ok.1 hpure
    exact .replication hk hsteps (eq_of_beq ho) (eq_of_beq hcl) hfirst hitems hend
  · rename_i hcheck
    obtain ⟨others, c₃, hothers, hpure⟩ := bind_eq_ok.1 hinner
    obtain ⟨rfl, rfl⟩ := pure_eq_ok.1 hpure
    exact .concatenation hk hsteps (eq_of_beq ho) (eq_of_beq hcl) hfirst (Bool.eq_false_iff.2 hcheck) hothers

theorem primaryOf_inv (hafter : c.after = token :: rest) (h : primaryOf nested token c = .ok (e, c')) :
    Primary nested token c e c' := by
  revert h
  fun_cases primaryOf nested token
  all_goals intro h
  case case1 hk =>
    obtain ⟨node, hnode, rfl⟩ := tagged_eq_ok.1 h
    obtain ⟨inner, c₁, hinner, hpure⟩ := bind_eq_ok.1 hnode
    obtain ⟨rfl, rfl⟩ := pure_eq_ok.1 hpure
    exact .parenthesis hk hinner
  case case2 hk => exact bracesOf_inv hk h
  case case3 hk =>
    rw [peekKind?_bind] at h
    split at h
    · obtain ⟨node, hnode, rfl⟩ := tagged_eq_ok.1 h
      rw [advance?_bind] at hnode
      obtain ⟨items, c₁, hitems, hpure⟩ := bind_eq_ok.1 hnode
      obtain ⟨rfl, rfl⟩ := pure_eq_ok.1 hpure
      exact .arrayPattern hk hitems
    · exact absurd h fail_ne_ok
  case case4 hk =>
    obtain ⟨node, hnode, rfl⟩ := tagged_eq_ok.1 h
    obtain ⟨rfl, rfl⟩ := pure_eq_ok.1 (advance?_bind ▸ hnode)
    exact .literal (Token.literalKind?_of_string hk)
  case case5 hk =>
    obtain ⟨node, hnode, rfl⟩ := tagged_eq_ok.1 h
    obtain ⟨rfl, rfl⟩ := pure_eq_ok.1 (advance?_bind ▸ hnode)
    exact .literal (Token.literalKind?_of_literal hk)
  case case6 hk =>
    obtain ⟨callee, c₁, hcallee, h⟩ := bind_eq_ok.1 h
    exact .named (systemIdentifier_inv hafter hk hcallee) (callOf_inv h)
  case case7 =>
    rename_i hname
    obtain ⟨callee, c₁, hcallee, h⟩ := bind_eq_ok.1 h
    obtain ⟨node, hnode, rfl⟩ := tagged_eq_ok.1 hcallee
    obtain ⟨rfl, rfl⟩ := pure_eq_ok.1 (advance?_bind ▸ hnode)
    exact .named (.identifier hname) (callOf_inv h)
  case case8 => exact absurd h fail_ne_ok

/-- A reader that starts with a token that is no prefix operator. -/
theorem operandOf_of_primary (h : c.after = token :: rest) (ht : UnaryOp.ofKind? token.kind = none) :
    operandOf nested c = primaryOf nested token c := by
  rw [operandOf, current?_bind, Cursor.current?, h]
  simp only [List.head?_cons, ht]

/-- An operand is an operator before another operand, or it starts with what is no operator. -/
theorem operandOf_inv (h : operandOf nested c = .ok (e, c')) : ∃ t rest, c.after = t :: rest ∧
    ((∃ op operand, UnaryOp.ofKind? t.kind = some op ∧ nested prefixPower (c.skip 1) = .ok (operand, c') ∧
      e = .unary (c.siteTo c') op operand) ∨
    UnaryOp.ofKind? t.kind = none ∧ primaryOf nested t c = .ok (e, c')) := by
  cases hafter : c.after with
  | nil =>
    rw [operandOf, current?_bind, Cursor.current?, hafter] at h
    exact absurd h unexpectedEnd_ne_ok
  | cons t rest =>
    refine ⟨t, rest, rfl, ?_⟩
    cases hop : UnaryOp.ofKind? t.kind with
    | none =>
      rw [operandOf_of_primary hafter hop] at h
      exact .inr ⟨rfl, h⟩
    | some op =>
      rw [operandOf, current?_bind, Cursor.current?, hafter] at h
      simp only [List.head?_cons, hop] at h
      obtain ⟨node, hnode, rfl⟩ := tagged_eq_ok.1 h
      rw [advance?_bind] at hnode
      obtain ⟨operand, c₁, hoperand, hpure⟩ := bind_eq_ok.1 hnode
      obtain ⟨rfl, rfl⟩ := pure_eq_ok.1 hpure
      exact .inl ⟨op, operand, rfl, hoperand, rfl⟩

/-! ### Connectives -/

/-- The interior of a select is one index, or two bounds and the separator between them. -/
theorem selectorOf_eq_ok {target : Expr Site} {node : Site → Expr Site} :
    selectorOf nested target c = .ok (node, c') ↔
      (∃ index, nested 0 c = .ok (index, c') ∧ c'.after = [] ∧ node = fun tag => .index tag target index) ∨
        ∃ kind left c₁ m rest right, nested 0 c = .ok (left, c₁) ∧ c₁.after = m :: rest ∧ m.kind = kind.separator ∧
          filling "']'" (nested 0) (c₁.skip 1) = .ok (right, c') ∧
            node = fun tag => .slice tag kind target left right := by
  unfold selectorOf
  constructor
  · intro hread
    obtain ⟨first, c₁, hfirst, hrest⟩ := bind_eq_ok.1 hread
    rw [current?_bind, Cursor.current?] at hrest
    cases hafter : c₁.after with
    | nil =>
      rw [hafter] at hrest
      obtain ⟨rfl, rfl⟩ := pure_eq_ok.1 hrest
      exact .inl ⟨first, hfirst, hafter, rfl⟩
    | cons m rest =>
      rw [hafter] at hrest
      dsimp only [List.head?_cons] at hrest
      cases hkind : sliceKind? m.kind with
      | none =>
        rw [hkind] at hrest
        exact absurd hrest unexpected_ne_ok
      | some kind =>
        rw [hkind] at hrest
        dsimp only at hrest
        rw [advance?_bind] at hrest
        obtain ⟨second, c₂, hsecond, hpure⟩ := bind_eq_ok.1 hrest
        obtain ⟨rfl, rfl⟩ := pure_eq_ok.1 hpure
        exact .inr ⟨kind, first, c₁, m, rest, second, hfirst, hafter, sliceKind?_eq_some_iff.1 hkind, hsecond, rfl⟩
  · rintro (⟨index, hindex, hend, rfl⟩ | ⟨kind, left, c₁, m, rest, right, hleft, hafter, hm, hright, rfl⟩)
    · rw [bind_of_ok hindex, current?_bind, Cursor.current?, hend]
      rfl
    · rw [bind_of_ok hleft, current?_bind, Cursor.current?, hafter]
      dsimp only [List.head?_cons]
      rw [sliceKind?_eq_some_iff.2 hm]
      dsimp only
      rw [advance?_bind]
      exact map_of_ok hright

/-- A connective at the cursor, and what belongs to it, make a node of the expression before it. -/
inductive Joined (nested : Nested) (lhs : Expr Site) (c : Cursor) : Connective → (Site → Expr Site) → Cursor → Prop
  | index {o cl : Token} {ts : List Token} {index : Expr Site} {c₁ c' : Cursor}
    (steps : c.Steps (o :: (ts ++ [cl])) c') (opener : o.kind = .op .lBracket) (closer : cl.kind = .op .rBracket)
    (read : nested 0 ((c.skip 1).ahead ts.length) = .ok (index, c₁)) (last : c₁.after = []) :
    Joined nested lhs c .select (fun tag => .index tag lhs index) c'
  | slice {o cl m : Token} {ts rest : List Token} {kind : SliceKind} {left right : Expr Site} {c₁ c₂ c' : Cursor}
    (steps : c.Steps (o :: (ts ++ [cl])) c') (opener : o.kind = .op .lBracket) (closer : cl.kind = .op .rBracket)
    (first : nested 0 ((c.skip 1).ahead ts.length) = .ok (left, c₁)) (ahead : c₁.after = m :: rest)
    (separator : m.kind = kind.separator) (second : nested 0 (c₁.skip 1) = .ok (right, c₂)) (last : c₂.after = []) :
    Joined nested lhs c .select (fun tag => .slice tag kind lhs left right) c'
  | scope {t : Token} {rest : List Token} (ahead : (c.skip 1).after = t :: rest) (name : t.kind.isName = true) :
    Joined nested lhs c .scope (fun tag => .scope tag lhs t.text) ((c.skip 1).skip 1)
  | member {t : Token} {rest : List Token} (ahead : (c.skip 1).after = t :: rest) (name : t.kind.isName = true) :
    Joined nested lhs c .member (fun tag => .member tag lhs t.text) ((c.skip 1).skip 1)
  | postfixOp {op : UnaryOp} : Joined nested lhs c (.postfixOp op) (fun tag => .unary tag op lhs) (c.skip 1)
  | conditional {thenExpr elseExpr : Expr Site} {m : Token} {rest : List Token} {c₁ c' : Cursor}
    (first : nested 0 (c.skip 1) = .ok (thenExpr, c₁)) (ahead : c₁.after = m :: rest) (colon : m.kind = .op .colon)
    (second : nested (conditionalPower - 1) (c₁.skip 1) = .ok (elseExpr, c')) :
    Joined nested lhs c .conditional (fun tag => .conditional tag lhs thenExpr elseExpr) c'
  | assignment {op : AssignOp} {value : Expr Site} {c' : Cursor} (unsharp : (c.skip 1).check (.op .sharp) = false)
    (read : nested (assignPower - 1) (c.skip 1) = .ok (value, c')) :
    Joined nested lhs c (.assignment op) (fun tag => .assignment tag op lhs value) c'
  | delayedAssignment {op : AssignOp} {delay : Delay Site} {value : Expr Site} {c₁ c' : Cursor}
    (sharp : (c.skip 1).check (.op .sharp) = true) (wait : delayOf nested (c.skip 1) = .ok (delay, c₁))
    (read : nested (assignPower - 1) c₁ = .ok (value, c')) :
    Joined nested lhs c (.assignment op)
      (fun tag => .delayedAssignment tag op lhs delay.tag delay.magnitude delay.unit value) c'
  | binary {op : BinaryOp} {rhs : Expr Site} {c' : Cursor} (read : nested op.power (c.skip 1) = .ok (rhs, c')) :
    Joined nested lhs c (.binary op) (fun tag => .binary tag op lhs rhs) c'

theorem connectiveOf_inv {lhs : Expr Site} {k : Connective} {node : Site → Expr Site}
    (h : connectiveOf nested k lhs c = .ok (node, c')) : Joined nested lhs c k node c' := by
  cases k with
  | select =>
    obtain ⟨o, ts, cl, c₁, hsteps, ho, hcl, -, hinner⟩ := enclosed_eq_ok h
    rcases selectorOf_eq_ok.1 hinner with
      ⟨index, hindex, hend, rfl⟩ | ⟨kind, left, c₂, m, rest, right, hleft, hafter, hm, hright, rfl⟩
    · exact .index hsteps (eq_of_beq ho) (eq_of_beq hcl) hindex hend
    · obtain ⟨hright, hend⟩ := filling_eq_ok.1 hright
      exact .slice hsteps (eq_of_beq ho) (eq_of_beq hcl) hleft hafter hm hright hend
  | scope =>
    rw [connectiveOf, advance?_bind] at h
    obtain ⟨text, c₁, hname, hpure⟩ := bind_eq_ok.1 h
    obtain ⟨rfl, rfl⟩ := pure_eq_ok.1 hpure
    obtain ⟨t, rest, ht, hkind, rfl, rfl⟩ := name_eq_ok.1 hname
    exact .scope ht hkind
  | member =>
    rw [connectiveOf, advance?_bind] at h
    obtain ⟨text, c₁, hname, hpure⟩ := bind_eq_ok.1 h
    obtain ⟨rfl, rfl⟩ := pure_eq_ok.1 hpure
    obtain ⟨t, rest, ht, hkind, rfl, rfl⟩ := name_eq_ok.1 hname
    exact .member ht hkind
  | postfixOp op =>
    rw [connectiveOf, advance?_bind] at h
    obtain ⟨rfl, rfl⟩ := pure_eq_ok.1 h
    exact .postfixOp
  | conditional =>
    rw [connectiveOf, advance?_bind] at h
    obtain ⟨thenExpr, c₁, hthen, h⟩ := bind_eq_ok.1 h
    obtain ⟨m, c₂, hcolon, h⟩ := bind_eq_ok.1 h
    obtain ⟨elseExpr, c₃, helse, hpure⟩ := bind_eq_ok.1 h
    obtain ⟨rfl, rfl⟩ := pure_eq_ok.1 hpure
    obtain ⟨rest, hafter, hm, rfl⟩ := expectAs_eq_ok.1 hcolon
    exact .conditional hthen hafter hm helse
  | assignment op =>
    rw [connectiveOf, advance?_bind, assignmentOf, check_bind] at h
    split at h
    · rename_i hsharp
      obtain ⟨delay, c₁, hdelay, h⟩ := bind_eq_ok.1 h
      obtain ⟨value, c₂, hvalue, hpure⟩ := bind_eq_ok.1 h
      obtain ⟨rfl, rfl⟩ := pure_eq_ok.1 hpure
      exact .delayedAssignment hsharp hdelay hvalue
    · rename_i hsharp
      obtain ⟨value, c₁, hvalue, hpure⟩ := bind_eq_ok.1 h
      obtain ⟨rfl, rfl⟩ := pure_eq_ok.1 hpure
      exact .assignment (Bool.eq_false_iff.2 hsharp) hvalue
  | binary op =>
    rw [connectiveOf, advance?_bind] at h
    obtain ⟨rhs, c₁, hrhs, hpure⟩ := bind_eq_ok.1 h
    obtain ⟨rfl, rfl⟩ := pure_eq_ok.1 hpure
    exact .binary hrhs

end Parser

end SystemVerilog
