import SystemVerilog.Proofs.Layout.Independence
import SystemVerilog.Proofs.Narrowing.Statements
import SystemVerilog.Proofs.Statement.Complete
import SystemVerilog.Proofs.Walks.Layout

/-!
# What a delay takes from its statement

The magnitude of a delay is read as an operand, and goes on with whatever binds as tightly as a postfix operator.
Of the tokens that a statement can start with, only the signs of increment and decrement do. Behind a literal every
other statement is left as it is, and one that starts with such a sign loses it to the literal.
-/

namespace SystemVerilog

open SystemVerilog.Parser

/-! ### Tokens that bind tighter than a prefix operator -/

namespace TokenKind

/-- The signs that stand before an operand as well as behind one. -/
def isStep : TokenKind → Bool
  | op .selfIncrement | op .selfDecrement => true
  | _ => false

/-- Tokens that stand behind an operand only. -/
def isTail : TokenKind → Bool
  | op .lBracket | op .scopeResolution | op .dot => true
  | _ => false

variable {kind : TokenKind}

theorem isStep_or_isTail {k : Connective} (hk : Connective.ofKind? .compares kind = some k)
    (hpower : prefixPower < k.power) : kind.isStep = true ∨ kind.isTail = true := by
  have hmark := Connective.ofKind?_eq_some_iff.1 hk
  cases k with
  | select | scope | member =>
    rw [show kind = _ from hmark]
    exact .inr rfl
  | postfixOp op =>
    obtain ⟨hplace, hkind⟩ := hmark
    refine .inl ?_
    cases op with
    | postIncrement | postDecrement =>
      rw [List.mem_singleton.1 hkind]
      rfl
    | _ => cases hplace
  | conditional => exact absurd (show 150 < 30 from hpower) (by decide)
  | assignment op => exact absurd (show 150 < 10 from hpower) (by decide)
  | binary op => exact absurd (Nat.lt_of_lt_of_le hpower op.power_bounds.2.1) (by decide)

theorem power_of_isStep (h : kind.isStep = true) :
    ∃ k, Connective.ofKind? .compares kind = some k ∧ prefixPower < k.power := by
  unfold isStep at h
  split at h
  · exact ⟨_, rfl, by decide⟩
  · exact ⟨_, rfl, by decide⟩
  · cases h

end TokenKind

/-! ### The first token of a statement -/

section Starts

variable {c c' : Cursor} {t : Token} {us rest : List Token} {e : Expr Site} {s : Statement Site}

theorem operandOf_ne_of_isTail {nested : Nested} (hafter : c.after = t :: rest) (ht : t.kind.isTail = true) :
    operandOf nested c ≠ .ok (e, c') := by
  intro h
  obtain ⟨t', rest', hafter', hread⟩ := operandOf_inv h
  obtain ⟨rfl, rfl⟩ := List.cons.inj (hafter.symm.trans hafter')
  unfold TokenKind.isTail at ht
  unfold primaryOf at hread
  split at ht
  case h_4 => cases ht
  all_goals
    rename_i hkind
    rw [hkind] at hread
    rcases hread with ⟨_, _, hop, -⟩ | ⟨-, hprimary⟩
    · cases hop
    · have hfail : invalidInExpression t c = .ok (e, c') := hprimary
      exact absurd hfail fail_ne_ok

theorem expressionStatement_ne_of_isTail (hafter : c.after = t :: rest) (ht : t.kind.isTail = true) :
    expressionStatement c ≠ .ok (s, c') := by
  intro h
  obtain ⟨node, hnode, -⟩ := tagged_eq_ok.1 h
  obtain ⟨part, c₁, hpart, hrest⟩ := bind_eq_ok.1 hnode
  obtain ⟨n, hn, rfl, rfl⟩ := spanBefore_inv hpart
  obtain ⟨⟨c₂, hinner⟩, -⟩ := within_eq_ok.1 hrest
  obtain ⟨e, c₃, hread, -⟩ := bind_eq_ok.1 hinner
  obtain ⟨e', c₄, hoperand, -⟩ := bind_eq_ok.1 (filling_eq_ok.1 hread).1
  have hne : n ≠ 0 := by
    rintro rfl
    obtain ⟨_, _, hnil, -⟩ := operandOf_inv hoperand
    cases hnil
  obtain ⟨n, rfl⟩ := Nat.exists_eq_succ_of_ne_zero hne
  have hfirst : (c.ahead (n + 1)).after = t :: rest.take n := by rw [Cursor.ahead_after, hafter, List.take_succ_cons]
  exact operandOf_ne_of_isTail hfirst ht hoperand

/-- A statement starts with none of the tokens that stand behind an operand only. -/
theorem statement_not_isTail (h : statement c = .ok (s, c')) (hafter : c.after = t :: rest) :
    t.kind.isTail = false := by
  cases ht : t.kind.isTail with
  | false => rfl
  | true =>
    have hread : statementOf (statementWithin c.after.length) c = .ok (s, c') := h
    have hkind : c.currentKind? = some t.kind := Cursor.currentKind?_of_after hafter rfl
    rw [statementOf, currentKind?_bind, hkind] at hread
    have hwhole : expressionStatement c ≠ .ok (s, c') := expressionStatement_ne_of_isTail hafter ht
    unfold TokenKind.isTail at ht
    split at ht
    case h_4 => cases ht
    all_goals
      rename_i hkind'
      rw [hkind'] at hread
      exact absurd hread hwhole

/-- Behind an operand the tokens of a statement are left alone, unless they start with an increment or decrement. -/
theorem statement_quiet_iff (h : statement c = .ok (s, c')) :
    Quiet .compares prefixPower c.after ↔ ∀ t ∈ c.after.head?, t.kind.isStep = false := by
  constructor
  · intro hquiet t ht
    obtain ⟨rest, hafter⟩ := List.head?_eq_some_iff.1 ht
    cases hstep : t.kind.isStep with
    | false => rfl
    | true =>
      obtain ⟨k, hk, hpower⟩ := TokenKind.power_of_isStep hstep
      exact absurd (hquiet t rest k hafter hk) (Nat.not_le.2 hpower)
  · intro hstep t rest k hafter hk
    refine Nat.not_lt.1 fun hpower => ?_
    rcases TokenKind.isStep_or_isTail hk hpower with hfound | hfound
    · rw [hstep t (List.head?_eq_some_iff.2 ⟨rest, hafter⟩)] at hfound
      cases hfound
    · rw [statement_not_isTail h hafter] at hfound
      cases hfound

end Starts

/-! ### Delays of a literal -/

section Delays

variable {c c' : Cursor} {sharp n : Token} {us : List Token}

theorem delayedOf_eq_ok {p : Parser (Statement Site)} {s : Statement Site} : delayedOf p c = .ok (s, c') ↔
    ∃ d c₁ body, delay c = .ok (d, c₁) ∧ p c₁ = .ok (body, c') ∧
      s = .delayed ⟨c.location, ⟨c.position, c'.position⟩⟩ d body := by
  constructor
  · intro h
    obtain ⟨node, hnode, rfl⟩ := tagged_eq_ok.1 h
    obtain ⟨d, c₁, hdelay, hrest⟩ := bind_eq_ok.1 hnode
    obtain ⟨body, c₂, hbody, hpure⟩ := bind_eq_ok.1 hrest
    obtain ⟨rfl, rfl⟩ := pure_eq_ok.1 hpure
    exact ⟨d, c₁, body, hdelay, hbody, rfl⟩
  · rintro ⟨d, c₁, body, hdelay, hbody, rfl⟩
    refine tagged_eq_ok.2 ⟨fun tag => .delayed tag d body, ?_, rfl⟩
    rw [bind_of_ok hdelay]
    exact map_of_ok hbody

/-- A literal is a single token. -/
theorem Expr.Fills.literal {site : Site} {kind : LiteralKind} {text : String}
    (h : (Expr.literal site kind text).Fills c c') : c' = c.skip 1 := by
  obtain ⟨ts, hsteps, hocc⟩ := h.segments
  cases hocc with
  | token _ hrest =>
    cases hrest
    exact hsteps.eq_skip

variable (hafter : c.after = sharp :: n :: us)

include hafter

/-- Where the magnitude of a delay is a literal, nothing behind it binds as tightly as a postfix operator. -/
theorem quiet_of_delay {tag site : Site} {kind : LiteralKind} {text : String} {unit : Option TimeUnit}
    (h : delay c = .ok (⟨tag, .literal site kind text, unit⟩, c')) : Quiet .compares prefixPower us := by
  obtain ⟨node, hnode, heq⟩ := tagged_eq_ok.1 h
  obtain ⟨_, c₁, hsharp, hrest⟩ := bind_eq_ok.1 hnode
  obtain ⟨_, -, -, rfl⟩ := expect_eq_ok.1 hsharp
  obtain ⟨magnitude, c₂, hmagnitude, hrest⟩ := bind_eq_ok.1 hrest
  obtain ⟨unit', c₃, -, hpure⟩ := bind_eq_ok.1 hrest
  obtain ⟨rfl, rfl⟩ := pure_eq_ok.1 hpure
  obtain ⟨-, rfl, -⟩ := Delay.mk.inj heq
  have hquiet := expressionWithin_quiet hmagnitude
  rw [(expressionWithin_fills hmagnitude).literal, Cursor.skip_skip, Cursor.skip_after, hafter] at hquiet
  exact hquiet

/-- A literal in front of what does not bind as tightly as a postfix operator is all of the magnitude. -/
theorem delay_of_quiet (hsharp : sharp.kind = .op .sharp) (hn : n.literalKind? = some .integer)
    (hspaced : ∀ t ∈ us.head?, t.touches n = false) (hquiet : Quiet .compares prefixPower us) :
    ∃ tag site, delay c = .ok (⟨tag, .literal site .integer n.text, none⟩, c.skip 2) := by
  have hsteps : c.Steps ([sharp] ++ [n]) (c.skip 2) := .of_after hafter
  have hbehind : (c.skip 2).after = us := by rw [Cursor.skip_after, hafter]; rfl
  have hspell : (⟨(), .literal () .integer n.text, none⟩ : Delay Unit).Spells [sharp, n] (c.skip 2).after := by
    refine ⟨sharp, [], n, [], rfl, hsharp, ⟨n, rfl, hn, rfl⟩, rfl, nofun, fun t rest _ heq _ => hspaced t ?_⟩
    rw [← hbehind, heq]
    rfl
  have hcanonical : (⟨(), .literal () .integer n.text, none⟩ : Delay Unit).Canonical :=
    ⟨⟨trivial, nofun⟩, .inl ⟨(), n.text, rfl⟩⟩
  obtain ⟨⟨tag, magnitude, unit⟩, hread, hmap⟩ := delay_complete hsteps hspell hcanonical (hbehind ▸ hquiet)
  obtain ⟨-, hmagnitude, rfl⟩ := Delay.mk.inj hmap
  cases magnitude with
  | literal site kind text =>
    obtain ⟨-, rfl, rfl⟩ := Expr.literal.inj hmagnitude
    exact ⟨tag, site, hread⟩
  | _ => cases hmagnitude

/-- A statement behind a sign for delays is one with a delay. -/
theorem statement_of_sharp (hsharp : sharp.kind = .op .sharp) :
    statement c = delayedOf (statementWithin c.after.length) c := by
  have hkind : c.currentKind? = some (.op .sharp) := Cursor.currentKind?_of_after hafter hsharp
  rw [statement, budget, statementWithin, statementOf, currentKind?_bind, hkind]
  rfl

end Delays

/-- A statement that stands, with a blank in front of it, behind a delay of an integer literal is read as it is read
alone, as the body of a delayed statement, if and only if it does not start with an increment or decrement. -/
theorem Arena.statement_delayed_iff {source source' : Source} {arena arena' : Arena} {s : Statement Site}
    {sharp n : Token} {us : List Token} (h : ofSource source = .ok arena) (hs : arena.statement = .ok s)
    (h' : ofSource source' = .ok arena') (hcode : arena'.code = sharp :: n :: us) (hsharp : sharp.kind = .op .sharp)
    (hn : n.literalKind? = some .integer) (hspaced : ∀ t ∈ us.head?, t.touches n = false)
    (hwriting : SameWriting us arena.code) :
    (∃ tag delay site body,
        arena'.statement = .ok (.delayed tag ⟨delay, .literal site .integer n.text, none⟩ body) ∧
          body.map Site.range = s.map fun site => site.range.shifted 2) ↔
      ∀ t ∈ us.head?, t.kind.isStep = false := by
  obtain ⟨-, hordered, hroot⟩ := code_of_ofSource h
  obtain ⟨-, hordered', hroot'⟩ := code_of_ofSource h'
  have hafter := hroot'.trans hcode
  have hbehind : ((Cursor.root arena'.tokens).skip 2).after = us := by rw [Cursor.skip_after, hafter]; rfl
  have hposition : ((Cursor.root arena'.tokens).skip 2).position = (Cursor.root arena.tokens).position + 2 := by
    rw [Cursor.position_skip, hafter]
    rfl
  have hsublist : us.Sublist arena'.code := by
    rw [hcode]
    exact .cons _ (.cons _ (.refl us))
  obtain ⟨c₁, hread, hend⟩ := Arena.readWith_eq_ok.1 hs
  -- the body is read where the statement stands behind the delay
  obtain ⟨body, c', hbody, hsame, hstop⟩ : ∃ body c',
      Parser.statement ((Cursor.root arena'.tokens).skip 2) = .ok (body, c') ∧
        body.map Site.range = s.map (fun site => site.range.shifted 2) ∧ c'.after = [] := by
    cases Correspondence.Agrees.statement
      (Correspondence.alike_layout hwriting (hordered'.sublist hsublist) hordered hbehind hroot hposition) with
    | @read body s' c' c₂ hbody hs' hsame honward =>
      obtain ⟨rfl, rfl⟩ := Prod.mk.inj (Except.ok.inj (hread.symm.trans hs'))
      exact ⟨body, c', hbody, hsame.eq, List.length_eq_zero_iff.1 (honward.length_eq.trans (congrArg List.length hend))⟩
    | stop _ hfails _ => cases hread.symm.trans hfails
  rw [← hbehind, ← statement_quiet_iff hbody, hbehind]
  constructor
  · rintro ⟨tag, delay, site, body', hdelayed, -⟩
    obtain ⟨c₂, hwhole, -⟩ := Arena.readWith_eq_ok.1 hdelayed
    obtain ⟨delay', c₃, _, hdelay, -, heq⟩ := delayedOf_eq_ok.1 ((statement_of_sharp hafter hsharp).symm.trans hwhole)
    obtain ⟨-, rfl, -⟩ := Statement.delayed.inj heq
    exact quiet_of_delay hafter hdelay
  · intro hquiet
    obtain ⟨delay, site, hdelay⟩ := delay_of_quiet hafter hsharp hn hspaced hquiet
    have hbudget : ((Cursor.root arena'.tokens).skip 2).after.length ≤ (Cursor.root arena'.tokens).after.length := by
      rw [Cursor.skip_after, List.length_drop]
      omega
    have hinner := statementWithin_of_budget hbody hbudget
    have hdelayed := delayedOf_eq_ok.2 ⟨_, _, _, hdelay, hinner, rfl⟩
    exact ⟨_, delay, site, body,
      Arena.readWith_eq_ok.2 ⟨c', (statement_of_sharp hafter hsharp).trans hdelayed, hstop⟩, hsame⟩

/-- The increment of `i` becomes one of the magnitude. -/
example : ((Arena.ofSource (({} : ReadOptions).source "#5 ++i;")).toOption.bind fun arena =>
    arena.statement.toOption.map fun s => match s with
      | .delayed _ ⟨_, .unary _ .postIncrement (.literal _ .integer text), none⟩ (.expression _ (.identifier _ name)) =>
        (text, name)
      | _ => ("", "")) = some ("5", "i") := by decide +kernel

end SystemVerilog
