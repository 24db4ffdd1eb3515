import SystemVerilog.Proofs.Expression.Complete
import SystemVerilog.Proofs.Expression.Sound
import SystemVerilog.Proofs.Ranges.Rows
import SystemVerilog.Proofs.Walks.Order

/-!
# What is read as an expression is laid out in segments

Between two cursors stands what some segments say (`Fills`), and what an expression reader has read is an expression
that covers its tokens and whose segments they are (`Expr.Fills`). The loop over the connectives keeps this: what a
connective adds are the segments behind the operand before it.
-/

namespace SystemVerilog

open SystemVerilog.Parser

/-! ### Tokens between cursors -/

theorem Cursor.Steps.position {c c' : Cursor} {ts : List Token} (h : c.Steps ts c') :
    c'.position = c.position + ts.length := by
  rw [h.eq_skip, position_skip, h.length]
  omega

/-- The tokens that were read from one cursor to another are laid out as the segments say. -/
def Fills (c : Cursor) (segs : List Segment) (c' : Cursor) : Prop :=
  ∃ ts, c.Steps ts c' ∧ Occupies c.position segs ts

/-- What was read from one cursor to another is the expression. -/
structure Expr.Fills (c : Cursor) (e : Expr Site) (c' : Cursor) : Prop where
  range : e.tag.range = ⟨c.position, c'.position⟩
  segments : SystemVerilog.Fills c e.segments c'

namespace Fills

variable {c c' c₁ : Cursor} {segs segs' : List Segment} {t : Token} {rest : List Token} {e : Expr Site}

theorem nil : Fills c [] c := ⟨[], .refl c, .nil⟩

theorem append (h : Fills c segs c₁) (h' : Fills c₁ segs' c') : Fills c (segs ++ segs') c' := by
  obtain ⟨ts, hts, hocc⟩ := h
  obtain ⟨us, hus, hocc'⟩ := h'
  exact ⟨ts ++ us, hts.trans hus, hocc.append (hts.position ▸ hocc')⟩

theorem token {seg : Segment} (h : c.after = t :: rest) (hfits : seg.Fits c.position t) : Fills c [seg] (c.skip 1) :=
  ⟨[t], .one h, .token hfits .nil⟩

theorem mark (h : c.after = t :: rest) (ht : t.kind.isNeutral = true) : Fills c [.mark] (c.skip 1) := token h ht

theorem qualified {word : Token} (h : c.after = t :: word :: rest) (ht : t.kind.isQualifier = true)
    (hword : word.kind.isQualifier = false) : Fills c [.qualified] (c.skip 2) :=
  have hsteps : c.Steps ([t] ++ [word]) (c.skip 2) := .of_after h
  ⟨_, hsteps, .qualified ht hword .nil⟩

theorem part (h : e.Fills c c') : Fills c [.part e] c' := by
  obtain ⟨ts, hts, hocc⟩ := h.segments
  refine ⟨ts ++ [], by rwa [List.append_nil], .part ?_ hocc .nil⟩
  rw [h.range, hts.position]

/-- What fills the interior of a pair of brackets. -/
theorem pair {o cl : Token} {ts : List Token} (hsteps : c.Steps (o :: (ts ++ [cl])) c')
    (ho : o.kind.isNeutral = true) (hcl : cl.kind.isNeutral = true)
    (h : Fills ((c.skip 1).ahead ts.length) segs c₁) (hend : c₁.after = []) :
    Fills c (.mark :: (segs ++ [.mark])) c' := by
  obtain ⟨us, hus, hocc⟩ := h
  obtain rfl := (interior_after hsteps).symm.trans (steps_to_end hus hend)
  have hone : c.Steps [o] (c.skip 1) := .one hsteps.of_cons.1
  rw [Cursor.position_ahead, hone.position] at hocc
  exact ⟨_, hsteps, .token ho (hocc.append (.token hcl .nil))⟩

end Fills

/-- Whatever a reader of nested expressions gives fills what it has read. -/
def NestedFills (nested : Nested) : Prop :=
  ∀ ⦃floor c e c'⦄, nested floor c = .ok (e, c') → e.Fills c c'

/-- What a reader behind an operand adds to it. -/
structure Continues (lhs : Expr Site) (c : Cursor) (node : Site → Expr Site) (c' : Cursor) : Prop where
  tag : ∀ site, (node site).tag = site
  segments : ∃ segs, Fills c segs c' ∧ ∀ site, (node site).segments = .part lhs :: segs

/-- An operand with what is added behind it fills both. -/
theorem Continues.grown {c₀ c c' : Cursor} {lhs : Expr Site} {node : Site → Expr Site}
    (h : Continues lhs c node c') (hlhs : lhs.Fills c₀ c) : (grown lhs node c').Fills c₀ c' := by
  obtain ⟨segs, hsegs, hnode⟩ := h.segments
  refine ⟨?_, ?_⟩
  · rw [Parser.grown, h.tag, hlhs.range]
  · rw [Parser.grown, hnode]
    exact (Fills.part hlhs).append hsegs

section Readers

variable {nested : Nested} {c c₀ c' : Cursor} {e lhs callee : Expr Site} {es : List (Expr Site)} {token : Token}
  {rest : List Token} {node : Site → Expr Site}

/-- What is read between brackets fills the pair, if it fills the interior up to its end. -/
theorem enclosed_fills {α : Type} {p : Parser α} {a : α} {opening closing : Operator}
    (h : (enclosed (.op opening) (.op closing) p : Parser α) c = .ok (a, c'))
    (ho : (TokenKind.op opening).isNeutral = true) (hcl : (TokenKind.op closing).isNeutral = true) :
    ∃ c₁ c₂, p c₁ = .ok (a, c₂) ∧ ∀ segs, Fills c₁ segs c₂ → c₂.after = [] →
      Fills c (.mark :: (segs ++ [.mark])) c' := by
  obtain ⟨o, ts, cl, c₁, hsteps, hopens, hcloses, -, hread⟩ := enclosed_eq_ok h
  refine ⟨_, c₁, hread, fun segs hsegs hend => .pair hsteps ?_ ?_ hsegs hend⟩
  · rwa [show o.kind = .op opening from eq_of_beq hopens]
  · rwa [show cl.kind = .op closing from eq_of_beq hcloses]

section Nested

variable (hn : NestedFills nested)

include hn

/-! ### Lists and delays -/

theorem followersUpTo_fills {n : Nat} {m : String} (h : followersUpTo (comma m) (nested 0) n c = .ok (es, c')) :
    Fills c (Segment.led es) c' ∧ c'.after = [] := by
  replace h := followersUpTo_eq_ok.1 h
  induction h with
  | done hend => exact ⟨.nil, hend⟩
  | more _ hcomma he _ ih =>
    obtain ⟨t, rest, hafter, ht, rfl⟩ := comma_eq_ok.1 hcomma
    have hmark := Fills.mark hafter (by rw [ht]; rfl)
    exact ⟨(hmark.append (.part (hn he))).append ih.1, ih.2⟩

theorem listOf_fills (h : listOf nested c = .ok (es, c')) : Fills c (Segment.listed es) c' ∧ c'.after = [] := by
  rcases listOf_inv h with ⟨hend, rfl, rfl⟩ | ⟨e, es', c₁, he, hes, rfl⟩
  · exact ⟨.nil, hend⟩
  · obtain ⟨htail, hend⟩ := followersUpTo_fills hn hes
    exact ⟨(Fills.part (hn he)).append htail, hend⟩

/-- A list of expressions between brackets. -/
theorem enclosed_listOf_fills {opening closing : Operator}
    (h : (enclosed (.op opening) (.op closing) (listOf nested) : Parser _) c = .ok (es, c'))
    (ho : (TokenKind.op opening).isNeutral = true) (hcl : (TokenKind.op closing).isNeutral = true) :
    Fills c (.mark :: (Segment.listed es ++ [.mark])) c' := by
  obtain ⟨c₁, c₂, hes, hpair⟩ := enclosed_fills h ho hcl
  obtain ⟨hfills, hend⟩ := listOf_fills hn hes
  exact hpair _ hfills hend

omit hn in
/-- The unit of a delay is the token before the cursor behind it. -/
theorem delayUnit_fills {unit : Option TimeUnit} {site : Site} (h : delayUnit c = .ok (unit, c'))
    (hsite : site.range.stop = c'.position) : Fills c (Segment.ofUnit site unit) c' := by
  unfold delayUnit at h
  split at h
  · rename_i last ts t us hbefore hafter
    split at h
    · rename_i unit' hunit
      split at h
      · obtain ⟨rfl, rfl⟩ := Prod.mk.inj (Except.ok.inj h)
        refine .token hafter ⟨?_, TokenKind.isName_of_unit hunit⟩
        rw [hsite, Cursor.Steps.position (.one hafter)]
        rfl
      · obtain ⟨rfl, rfl⟩ := Prod.mk.inj (Except.ok.inj h)
        exact .nil
    · obtain ⟨rfl, rfl⟩ := Prod.mk.inj (Except.ok.inj h)
      exact .nil
  · obtain ⟨rfl, rfl⟩ := Prod.mk.inj (Except.ok.inj h)
    exact .nil

theorem delayOf_fills {d : Delay Site} (h : delayOf nested c = .ok (d, c')) :
    Fills c ([.mark, .part d.magnitude] ++ Segment.ofUnit d.tag d.unit) c' := by
  obtain ⟨f, hf, rfl⟩ := tagged_eq_ok.1 h
  obtain ⟨sharp, c₁, hsharp, hf⟩ := bind_eq_ok.1 hf
  obtain ⟨magnitude, c₂, hmagnitude, hf⟩ := bind_eq_ok.1 hf
  obtain ⟨unit, c₃, hunit, hf⟩ := bind_eq_ok.1 hf
  obtain ⟨rfl, rfl⟩ := pure_eq_ok.1 hf
  obtain ⟨rest, hafter, hkind, rfl⟩ := expect_eq_ok.1 hsharp
  have hmark := Fills.mark hafter (by rw [hkind]; rfl)
  exact (hmark.append (.part (hn hmagnitude))).append (delayUnit_fills hunit rfl)

/-! ### Operands -/

omit hn in
theorem Parser.Named.fills (h : Named token c e c') (hafter : c.after = token :: rest) : e.Fills c c' := by
  cases h with
  | identifier hname =>
    have hfits : Segment.Fits c.position token (.name token.text) := ⟨hname, rfl⟩
    exact ⟨rfl, .token hafter hfits⟩
  | systemIdentifier hdollar hahead hword =>
    exact ⟨rfl, .qualified hahead (by rw [hdollar]; rfl) (TokenKind.isQualifier_of_isWord hword)⟩

theorem Parser.Called.fills (h : Called nested callee c e c') (hcallee : callee.Fills c₀ c) : e.Fills c₀ c' := by
  cases h with
  | bare => exact hcallee
  | call hread =>
    refine ⟨?_, (Fills.part hcallee).append (enclosed_listOf_fills hn hread rfl rfl)⟩
    rw [Expr.tag, hcallee.range]

theorem Parser.Primary.fills (h : Primary nested token c e c') (hafter : c.after = token :: rest) :
    e.Fills c c' := by
  cases h with
  | parenthesis _ hread =>
    obtain ⟨c₂, c₃, hread, hpair⟩ := enclosed_fills hread rfl rfl
    obtain ⟨hread, hend⟩ := filling_eq_ok.1 hread
    exact ⟨rfl, hpair _ (.part (hn hread)) hend⟩
  | replication _ hsteps ho hcl hread hinner hend =>
    have hparts := (Fills.part (hn hread)).append (enclosed_listOf_fills hn hinner rfl rfl)
    exact ⟨rfl, .pair hsteps (by rw [ho]; rfl) (by rw [hcl]; rfl) hparts hend⟩
  | concatenation _ hsteps ho hcl hread _ hmore =>
    obtain ⟨htail, hend⟩ := followersUpTo_fills hn hmore
    have hparts := (Fills.part (hn hread)).append htail
    exact ⟨rfl, .pair hsteps (by rw [ho]; rfl) (by rw [hcl]; rfl) hparts hend⟩
  | arrayPattern hquote hread =>
    have hmark := Fills.mark hafter (by rw [hquote]; rfl)
    exact ⟨rfl, hmark.append (enclosed_listOf_fills hn hread rfl rfl)⟩
  | literal hcopies => exact ⟨rfl, .mark hafter (TokenKind.isNeutral_of_literalKind? hcopies)⟩
  | named hnamed hcalled => exact hcalled.fills hn (hnamed.fills hafter)

theorem operandOf_fills (h : operandOf nested c = .ok (e, c')) : e.Fills c c' := by
  obtain ⟨token, rest, hafter, ⟨op, operand, hop, hoperand, rfl⟩ | ⟨-, hprimary⟩⟩ := operandOf_inv h
  · obtain ⟨hbefore, hkind⟩ := UnaryOp.ofKind?_eq_some_iff.1 hop
    refine ⟨rfl, ?_⟩
    rw [Expr.segments, if_neg (by rw [hbefore]; exact Bool.false_ne_true)]
    exact (Fills.mark hafter (TokenKind.isNeutral_unary hkind)).append (.part (hn hoperand))
  · exact (primaryOf_inv hafter hprimary).fills hn hafter

/-! ### Connectives -/

omit hn in
/-- A qualifier and the name behind it. -/
theorem Fills.qualifier {t : Token} {us : List Token} (hafter : c.after = token :: rest)
    (hqualifies : token.kind.isQualifier = true) (h : (c.skip 1).after = t :: us) (hname : t.kind.isName = true) :
    Fills c [.qualified] ((c.skip 1).skip 1) := by
  rw [Cursor.skip_skip]
  rw [Cursor.skip_after, hafter, List.drop_one, List.tail_cons] at h
  exact .qualified (h ▸ hafter) hqualifies (TokenKind.isQualifier_of_isName hname)

theorem Parser.Joined.continues {reading : LessEqualReading} {k : Connective} (h : Joined nested lhs c k node c')
    (hafter : c.after = token :: rest) (hk : Connective.ofKind? reading token.kind = some k) :
    Continues lhs c node c' := by
  have hmark := Connective.ofKind?_eq_some_iff.1 hk
  cases h with
  | index hsteps ho hcl hread hend =>
    exact ⟨fun _ => rfl, _, .pair hsteps (by rw [ho]; rfl) (by rw [hcl]; rfl) (.part (hn hread)) hend, fun _ => rfl⟩
  | slice hsteps ho hcl hleft hahead hm hright hend =>
    have hbetween := Fills.mark hahead (by rw [hm]; exact TokenKind.isNeutral_separator _)
    have hparts := ((Fills.part (hn hleft)).append hbetween).append (.part (hn hright))
    exact ⟨fun _ => rfl, _, .pair hsteps (by rw [ho]; rfl) (by rw [hcl]; rfl) hparts hend, fun _ => rfl⟩
  | scope hahead hname | member hahead hname =>
    have hqualifies : token.kind.isQualifier = true := by rw [show token.kind = _ from hmark]; rfl
    exact ⟨fun _ => rfl, _, Fills.qualifier hafter hqualifies hahead hname, fun _ => rfl⟩
  | postfixOp =>
    obtain ⟨hp, hkind⟩ := hmark
    refine ⟨fun _ => rfl, _, .mark hafter (TokenKind.isNeutral_unary hkind), fun _ => ?_⟩
    rw [Expr.segments, if_pos hp]
  | conditional hthen hahead hcolon helse =>
    have hquestion := Fills.mark hafter (by rw [show token.kind = _ from hmark]; rfl)
    have hbetween := Fills.mark hahead (by rw [hcolon]; rfl)
    have hfront := (hquestion.append (.part (hn hthen))).append hbetween
    exact ⟨fun _ => rfl, _, hfront.append (.part (hn helse)), fun _ => rfl⟩
  | assignment _ hvalue =>
    have hassign := Fills.mark hafter (by rw [hmark.1]; exact TokenKind.isNeutral_assign _)
    exact ⟨fun _ => rfl, _, hassign.append (.part (hn hvalue)), fun _ => rfl⟩
  | delayedAssignment _ hdelay hvalue =>
    have hassign := Fills.mark hafter (by rw [hmark.1]; exact TokenKind.isNeutral_assign _)
    refine ⟨fun _ => rfl, _, (hassign.append (delayOf_fills hn hdelay)).append (.part (hn hvalue)), fun site => ?_⟩
    simp [Expr.segments]
  | binary hrhs =>
    have hoperator := Fills.mark hafter (TokenKind.isNeutral_binary hmark.1)
    exact ⟨fun _ => rfl, _, hoperator.append (.part (hn hrhs)), fun _ => rfl⟩

/-! ### The loop -/

theorem climbUpTo_fills {reading : LessEqualReading} {floor n : Nat} (hlhs : lhs.Fills c₀ c)
    (h : climbUpTo nested reading floor n lhs c = .ok (e, c')) : e.Fills c₀ c' := by
  replace h := climbUpTo_eq_ok.1 h
  induction h with
  | stop => exact hlhs
  | turn hafter hk _ hnode _ ih => exact ih (((connectiveOf_inv hnode).continues hn hafter hk).grown hlhs)

end Nested

/-- An expression covers the tokens that it was read from, and they are laid out as its segments say. -/
theorem expressionWithin_fills {budget floor : Nat} {reading : LessEqualReading}
    (h : expressionWithin budget reading floor c = .ok (e, c')) : e.Fills c c' := by
  induction budget generalizing reading floor c e c' with
  | zero => exact absurd h bottomless_ne_ok
  | succ budget ih =>
    have hn : NestedFills (expressionWithin budget .compares) := fun _ _ _ _ h => ih h
    obtain ⟨lhs, c₁, hlhs, h⟩ := bind_eq_ok.1 h
    exact climbUpTo_fills hn (operandOf_fills hn hlhs) h

end Readers

end SystemVerilog
