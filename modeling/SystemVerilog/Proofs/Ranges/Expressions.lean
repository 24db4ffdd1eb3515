import SystemVerilog.Proofs.Expression.Climbing
import SystemVerilog.Proofs.Ranges.Combinators

/-!
# Expressions cover what they are read from

An expression is one node over the tokens that are read for it. A connective and its operands are laid
out behind the operand that stands before them (`Extends`), so the loop over the connectives keeps one
node that starts where the first operand does.
-/

namespace SystemVerilog

open SystemVerilog.Parser

variable {ts : List Token} {c₀ c c' : Cursor} {nested : Nested}

/-- Every nested expression is one node over what is read for it. -/
def NestedForms (ts : List Token) (nested : Nested) : Prop :=
  ∀ floor c, Forms ts c (nested floor) Expr.outline

/-- What is read behind a node that ends at the cursor makes a node that starts where that one does. -/
def Extends (ts : List Token) (c₀ c : Cursor) (o : Outline) (p : Parser (Expr Site)) : Prop :=
  c₀.Sees ts → Spans ts c₀ c o → ∀ ⦃e c'⦄, p c = .ok (e, c') → Spans ts c₀ c' e.outline

/-- A node starts at the place where its cursor stood. -/
theorem Spans.site_eq {o : Outline} (h : Spans ts c c' o) (hc : c.Sees ts) :
    o.site = ⟨c.location, c'.rangeFrom c.position⟩ := by
  have hlocated : ts[o.start]?.map (fun t => t.location) = some o.site.location := by
    cases h.exact
    assumption
  have hne : c.after ≠ [] := h.advance.after_ne_nil h.lt
  cases hafter : c.after with
  | nil => exact absurd hafter hne
  | cons t rest =>
    rw [h.start, hc.current hafter] at hlocated
    have hlocation : c.location = o.site.location := by
      rw [Cursor.location, hafter]
      exact Option.some.inj hlocated
    rw [hlocation, Cursor.rangeFrom, ← h.range]

/-- A node and what is read behind it are the children of a node over both. -/
theorem Spans.extend {e : Expr Site} {os : List Outline} {f : Site → Expr Site} (hc : c₀.Sees ts)
    (h : Spans ts c₀ c e.outline) (hos : Advance ts c c' os)
    (hf : ChildrenOf Expr.outline ([e.outline] ++ os) f) :
    Spans ts c₀ c' (f ⟨e.tag.location, ⟨e.tag.range.start, c'.position⟩⟩).outline := by
  obtain ⟨children, hperm, hout⟩ := hf
  have hall : Advance ts c₀ c' ([e.outline] ++ os) := h.advance.trans hos
  have hlt : c₀.position < c'.position := Nat.lt_of_lt_of_le h.lt hos.position_le
  have hsite : e.tag = ⟨c₀.location, c.rangeFrom c₀.position⟩ := by
    rw [← Expr.site_outline]
    exact h.site_eq hc
  rw [hout, hsite]
  exact ⟨hall.moved, rfl, hall.node hc hperm hlt⟩

/-- A node is read, and then what makes a larger node of it. -/
theorem Forms.extend {p : Parser (Expr Site)} {f : Expr Site → Parser (Expr Site)}
    (hp : Forms ts c p Expr.outline) (hf : ∀ e c₁, Extends ts c c₁ e.outline (f e)) :
    Forms ts c (p >>= f) Expr.outline := by
  intro hc e c' hread
  obtain ⟨lhs, c₁, hlhs, hrest⟩ := bind_eq_ok.1 hread
  exact hf lhs c₁ hc (hp hc hlhs) hrest

/-! ### Lists and delays -/

theorem Lays.listOf (hn : NestedForms ts nested) :
    Lays ts c (Parser.listOf nested) fun es => es.map Expr.outline :=
  .of_flatMap <| .silent .atEnd fun _ _ => by
    split
    · exact .pure rfl
    · exact Lays.listBy (fun _ => (Takes.comma _).lays) fun c => (hn 0 c).lays

theorem Lays.delayUnit : Lays ts c Parser.delayUnit fun _ => [] :=
  .of_skip fun a c' h => by
    unfold Parser.delayUnit at h
    split at h
    · split at h
      · split at h <;> cases h
        · exact ⟨1, rfl⟩
        · exact ⟨0, rfl⟩
      · cases h
        exact ⟨0, rfl⟩
    · cases h
      exact ⟨0, rfl⟩

theorem Forms.delayOf (hn : NestedForms ts nested) : Forms ts c (Parser.delayOf nested) Delay.outline :=
  .tagged <| .token (.expect _) fun _ c₁ => .node (hn _ c₁) fun _ _ =>
    .silent .delayUnit fun _ _ => .pure (.of_eq fun _ => rfl)

/-! ### Operands -/

/-- The arguments of a call with their parentheses are one node. -/
theorem Forms.arguments (hn : NestedForms ts nested) :
    Forms ts c (SystemVerilog.tagged do
      let args ← enclosed (.op .lParen) (.op .rParen) (Parser.listOf nested)
      return fun tag => (tag, args) : Parser (Site × List (Expr Site)))
      fun r => .node r.1 (r.2.map Expr.outline) :=
  .tagged <| .part (.enclosed fun _ => Lays.listOf hn) fun _ _ => .pure (.of_eq fun _ => rfl)

theorem Extends.callOf (hn : NestedForms ts nested) (callee : Expr Site) :
    Extends ts c₀ c callee.outline (Parser.callOf nested callee) := by
  intro hc hcallee e c' hread
  unfold Parser.callOf at hread
  rw [check_bind] at hread
  split at hread
  · obtain ⟨⟨parens, args⟩, c₁, hargs, hrest⟩ := bind_eq_ok.1 hread
    obtain ⟨rfl, rfl⟩ := Prod.mk.inj (Except.ok.inj hrest)
    have hspan := Forms.arguments hn (hcallee.advance.sees hc) hargs
    refine hcallee.extend (f := fun tag => .call tag callee parens args) hc hspan.advance (.of_eq fun _ => ?_)
    rw [Expr.outline, Expr.outlineAll_eq_map]
    rfl
  · obtain ⟨rfl, rfl⟩ := pure_eq_ok.1 hread
    exact hcallee

theorem Forms.bracesOf (hn : NestedForms ts nested) :
    Forms ts c (Parser.bracesOf nested) Expr.outline :=
  .tagged <| .enclosed fun c₁ => .node (hn 0 c₁) fun _ _ => .silent (.check _) fun _ _ => by
    split
    · refine .step (Builds.enclosed fun _ => Lays.listOf hn).gathers fun _ _ =>
        .silent (.expectEnd _) fun _ _ => .pure (.of_eq fun _ => ?_)
      rw [Expr.outline, Expr.outlineAll_eq_map]
      rfl
    · refine .step (Lays.of_flatMap (.followers (fun _ => (Takes.comma _).lays) fun c => (hn 0 c).lays))
        fun _ _ => .pure (.of_eq fun _ => ?_)
      rw [Expr.outline, Expr.outlineAll_eq_map]
      rfl

theorem Forms.systemIdentifier : Forms ts c Parser.systemIdentifier Expr.outline :=
  .tagged <| .token .consume fun _ _ => .silent .current? fun _ _ => by
    split
    · split
      · exact .silent .advance? fun _ _ => .pure (.of_eq fun _ => rfl)
      · exact .fail _ _
    · exact .fail _ _

theorem Forms.primaryOf (hn : NestedForms ts nested) {token : Token} (hc : c.after ≠ []) :
    Forms ts c (Parser.primaryOf nested token) Expr.outline := by
  unfold Parser.primaryOf
  split
  · exact .tagged <| .part (.enclosed fun _ => .filling _ (hn 0 _).lays) fun _ _ => .pure (.of_eq fun _ => rfl)
  · exact .bracesOf hn
  · refine .look rfl ?_
    split
    · refine .tagged <| .token (.advance? hc) fun _ _ =>
        .step (Builds.enclosed fun _ => Lays.listOf hn).gathers fun _ _ => .pure (.of_eq fun _ => ?_)
      rw [Expr.outline, Expr.outlineAll_eq_map]
      rfl
    · exact .of_error nofun
  · exact .tagged <| .token (.advance? hc) fun _ _ => .pure (.of_eq fun _ => rfl)
  · exact .tagged <| .token (.advance? hc) fun _ _ => .pure (.of_eq fun _ => rfl)
  · exact .extend .systemIdentifier fun _ _ => .callOf hn _
  · split
    · refine .extend (.tagged <| .token (.advance? hc) fun _ _ => .pure (.of_eq fun _ => ?_)) fun _ _ =>
        .callOf hn _
      rfl
    · exact .of_error nofun

theorem Forms.operandOf (hn : NestedForms ts nested) :
    Forms ts c (Parser.operandOf nested) Expr.outline := by
  refine .look (a := c.current?) rfl ?_
  cases hafter : c.after with
  | nil =>
    rw [Cursor.current?, hafter]
    exact .of_error fun _ _ => unexpectedEnd_ne_ok
  | cons token rest =>
    have hc : c.after ≠ [] := List.ne_nil_iff_exists_cons.2 ⟨token, rest, hafter⟩
    rw [Cursor.current?, hafter]
    dsimp only [List.head?]
    split
    · exact .tagged <| .token (.advance? hc) fun _ c₁ => .node (hn _ c₁) fun _ _ => .pure (.of_eq fun _ => rfl)
    · exact .primaryOf hn hc

/-! ### Connectives -/

theorem Gathers.selectorOf (hn : NestedForms ts nested) (target : Expr Site) :
    Gathers ts c [target.outline] (Parser.selectorOf nested target) (ChildrenOf Expr.outline) :=
  .node (hn 0 c) fun first c₁ => .silent .current? fun separator c₂ => by
    split
    · exact .pure (.of_eq fun _ => rfl)
    · split
      · exact .unexpected _ _
      · exact .silent .advance? fun _ c₃ => .node (.filling _ (hn 0 c₃)) fun _ _ => .pure (.of_eq fun _ => rfl)

theorem Gathers.assignmentOf (hn : NestedForms ts nested) (op : AssignOp) (target : Expr Site) :
    Gathers ts c [target.outline] (Parser.assignmentOf nested op target) (ChildrenOf Expr.outline) :=
  .silent (.check _) fun _ c₁ => by
    split
    · exact .node (.delayOf hn) fun _ c₂ => .node (hn _ c₂) fun _ _ => .pure (.of_eq fun _ => rfl)
    · exact .node (hn _ c₁) fun _ _ => .pure (.of_eq fun _ => rfl)

theorem Builds.connectiveOf (hn : NestedForms ts nested) (connective : Connective) (lhs : Expr Site)
    (hc : c.after ≠ []) :
    Builds ts c [lhs.outline] (Parser.connectiveOf nested connective lhs) (ChildrenOf Expr.outline) := by
  cases connective with
  | select => exact .enclosed fun _ => .selectorOf hn lhs
  | scope => exact .token (.advance? hc) fun _ _ => .silent Takes.name.lays fun _ _ => .pure (.of_eq fun _ => rfl)
  | member => exact .token (.advance? hc) fun _ _ => .silent Takes.name.lays fun _ _ => .pure (.of_eq fun _ => rfl)
  | postfixOp op => exact .token (.advance? hc) fun _ _ => .pure (.of_eq fun _ => rfl)
  | conditional =>
    exact .token (.advance? hc) fun _ c₁ => .node (hn 0 c₁) fun _ _ =>
      .silent (Takes.expectAs _ _).lays fun _ c₃ => .node (hn _ c₃) fun _ _ => .pure (.of_eq fun _ => rfl)
  | assignment op => exact .token (.advance? hc) fun _ _ => .assignmentOf hn op lhs
  | binary op =>
    exact .token (.advance? hc) fun _ c₁ => .node (hn _ c₁) fun _ _ => .pure (.of_eq fun _ => rfl)

/-- A connective that is read makes a larger node of the one before it. -/
theorem Spans.grown {k : Connective} {lhs : Expr Site} {node : Site → Expr Site} {t : Token} {rest : List Token}
    (hn : NestedForms ts nested) (hc₀ : c₀.Sees ts) (hlhs : Spans ts c₀ c lhs.outline) (hafter : c.after = t :: rest)
    (hnode : Parser.connectiveOf nested k lhs c = .ok (node, c')) :
    Spans ts c₀ c' (Parser.grown lhs node c').outline := by
  have hne : c.after ≠ [] := List.ne_nil_iff_exists_cons.2 ⟨t, rest, hafter⟩
  obtain ⟨os, hos, hchildren⟩ := (Builds.connectiveOf hn k lhs hne).gathers (hlhs.advance.sees hc₀) hnode
  exact hlhs.extend hc₀ hos hchildren

/-- The connectives behind an operand, one after the other: each makes a node that starts where the
operand does. -/
theorem Extends.climbUpTo (hn : NestedForms ts nested) (reading : LessEqualReading) (floor n : Nat)
    (lhs : Expr Site) : Extends ts c₀ c lhs.outline (Parser.climbUpTo nested reading floor n lhs) := by
  intro hc hlhs e c' hread
  replace hread := climbUpTo_eq_ok.1 hread
  induction hread with
  | stop => exact hlhs
  | turn hafter _ _ hnode _ ih => exact ih (hlhs.grown hn hc hafter hnode)

theorem Forms.expressionOf (hn : NestedForms ts nested) (reading : LessEqualReading) (floor : Nat) :
    Forms ts c (Parser.expressionOf nested reading floor) Expr.outline :=
  .extend (.operandOf hn) fun _ _ => .climbUpTo hn reading floor _ _

/-! ### Whole expressions -/

theorem Forms.expressionWithin (budget : Nat) (reading : LessEqualReading) (floor : Nat) :
    Forms ts c (Parser.expressionWithin budget reading floor) Expr.outline := by
  induction budget generalizing c reading floor with
  | zero => exact .of_error nofun
  | succ budget ih => exact .expressionOf (fun _ _ => ih _ _) reading floor

theorem nestedForms_expressionWithin (budget : Nat) (reading : LessEqualReading) :
    NestedForms ts (Parser.expressionWithin budget reading) :=
  fun floor _ => .expressionWithin budget reading floor

theorem Forms.expression : Forms ts c Parser.expression Expr.outline := by
  intro hc e c' hread
  have hwithin : Parser.expressionWithin (budget c) .compares 0 c = .ok (e, c') := hread
  exact Forms.expressionWithin (budget c) .compares 0 hc hwithin

theorem Forms.statementExpression : Forms ts c Parser.statementExpression Expr.outline := by
  intro hc e c' hread
  have hwithin : Parser.expressionWithin (budget c) .assigns 0 c = .ok (e, c') := hread
  exact Forms.expressionWithin (budget c) .assigns 0 hc hwithin

theorem Forms.operand : Forms ts c Parser.operand Expr.outline := by
  intro hc e c' hread
  have hwithin : Parser.expressionWithin (budget c) .compares prefixPower c = .ok (e, c') := hread
  exact Forms.expressionWithin (budget c) .compares prefixPower hc hwithin

theorem Lays.expressionList : Lays ts c Parser.expressionList fun es => es.map Expr.outline := by
  intro hc es c' hread
  have hlist : Parser.listOf (Parser.expressionWithin (budget c) .compares) c = .ok (es, c') := hread
  exact Lays.listOf (nestedForms_expressionWithin (budget c) .compares) hc hlist

theorem Forms.delay : Forms ts c Parser.delay Delay.outline := by
  intro hc d c' hread
  have hdelay : Parser.delayOf (Parser.expressionWithin (budget c) .compares) c = .ok (d, c') := hread
  exact Forms.delayOf (nestedForms_expressionWithin (budget c) .compares) hc hdelay

end SystemVerilog
