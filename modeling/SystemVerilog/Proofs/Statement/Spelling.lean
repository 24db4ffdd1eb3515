import SystemVerilog.Proofs.Statement.Canonical

/-!
# Spellings of statements

`s.Spells ts` says that the tokens `ts` write the statement `s` down by the grammar. Where the grammar
leaves a choice (the colon of a default item, the label at the end of a block, the form of a star, the
separator of events) every choice is a spelling. The default item of a case statement stands last.
-/

namespace SystemVerilog

variable {α β : Type}

/-! ### Parts of statements -/

/-- Things, one after the other. -/
def SpellsEach (spells : β → List Token → Prop) : List β → List Token → Prop
  | [], ts => ts = []
  | b :: bs, ts => ∃ us vs, ts = us ++ vs ∧ spells b us ∧ SpellsEach spells bs vs

/-- One token with a meaning, or nothing. -/
def SpellsMark (meaning : TokenKind → Option β) : Option β → List Token → Prop
  | none, ts => ts = []
  | some b, ts => ∃ t, ts = [t] ∧ meaning t.kind = some b

/-- A colon and a label, or nothing. -/
def SpellsLabel : Option String → List Token → Prop
  | none, ts => ts = []
  | some label, ts => ∃ m t, ts = [m, t] ∧ m.kind = .op .colon ∧ t.kind.isName = true ∧ t.text = label

def Bounds.Spells (b : Bounds α) (ts : List Token) : Prop := ∃ o us m vs c,
  ts = o :: (us ++ m :: (vs ++ [c])) ∧ o.kind = .op .lBracket ∧ b.left.Spells us ∧
    m.kind = .op .colon ∧ b.right.Spells vs ∧ c.kind = .op .rBracket

/-- Packed dimensions, one after the other. -/
def SpellsPacked : List (Bounds α) → List Token → Prop
  | [], ts => ts = []
  | b :: bs, ts => ∃ us vs, ts = us ++ vs ∧ b.Spells us ∧ SpellsPacked bs vs

theorem spellsPacked_iff {bs : List (Bounds α)} {ts : List Token} :
    SpellsPacked bs ts ↔ SpellsEach Bounds.Spells bs ts := by
  induction bs generalizing ts with
  | nil => exact Iff.rfl
  | cons b bs ih => simp only [SpellsPacked, SpellsEach, ih]

def DataType.Spells (type : DataType α) (ts : List Token) : Prop := ∃ us vs ws,
  ts = us ++ (vs ++ ws) ∧ SpellsMark (TokenKind.keywordIn? Keyword.namesDataType) type.keyword us ∧
    SpellsMark Signing.ofKind? type.signing vs ∧ SpellsPacked type.packed ws

/-- A delay in front of `next`: its unit, if it has one, touches the magnitude, and a unit that is not
there is not found in what follows. -/
def Delay.Spells (delay : Delay α) (ts next : List Token) : Prop := ∃ h us m vs,
  ts = h :: (us ++ m :: vs) ∧ h.kind = .op .sharp ∧ delay.magnitude.Spells (us ++ [m]) ∧
    SpellsMark TimeUnit.ofKind? delay.unit vs ∧ (∀ t ∈ vs, t.touches m = true) ∧
    ∀ t rest, delay.unit = none → next = t :: rest → TimeUnit.ofKind? t.kind ≠ none →
      t.touches m = false

def Event.Spells (event : Event α) (ts : List Token) : Prop := ∃ us vs,
  ts = us ++ vs ∧ SpellsMark Edge.ofKind? event.edge us ∧ event.expr.Spells vs

/-- Events, each led by a comma or `or`. -/
def SpellsEvents : List (Event α) → List Token → Prop
  | [], ts => ts = []
  | event :: events, ts => ∃ m us vs, ts = m :: (us ++ vs) ∧
      (m.kind = .word .kwOr ∨ m.kind = .op .comma) ∧ event.Spells us ∧ SpellsEvents events vs

/-- What stands behind the sign of an event control. -/
def Sensitivity.SpellsRest (sensitivity : Sensitivity α) (ts : List Token) : Prop :=
  match sensitivity.events with
  | [] => (∃ m, ts = [m] ∧ m.kind = .op .mul) ∨
      ∃ o m c, ts = [o, m, c] ∧ o.kind = .op .lParen ∧ m.kind = .op .mul ∧ c.kind = .op .rParen
  | event :: events => ∃ o us vs c, ts = o :: ((us ++ vs) ++ [c]) ∧ o.kind = .op .lParen ∧
      event.Spells us ∧ SpellsEvents events vs ∧ c.kind = .op .rParen

def Sensitivity.Spells (sensitivity : Sensitivity α) (ts : List Token) : Prop := ∃ h us,
  ts = h :: us ∧ h.kind = .op .atSign ∧ sensitivity.SpellsRest us

/-- A part that may be missing. -/
def SpellsOption (spells : β → List Token → Prop) : Option β → List Token → Prop
  | none, ts => ts = []
  | some b, ts => spells b ts

def LoopInit.Spells (init : LoopInit α) (ts : List Token) : Prop := ∃ us vs ws,
  ts = us ++ (vs ++ ws) ∧
    (if init.genvar then ∃ t, us = [t] ∧ t.kind = .word .kwGenvar else us = []) ∧
    SpellsOption DataType.Spells init.type vs ∧ init.assignment.Spells ws

def LoopHeader.Spells (header : LoopHeader α) (ts : List Token) : Prop := ∃ o us m vs n ws c,
  ts = o :: ((us ++ m :: (vs ++ n :: ws)) ++ [c]) ∧ o.kind = .op .lParen ∧
    SpellsOption LoopInit.Spells header.init us ∧ m.kind = .op .semicolon ∧
    SpellsOption Expr.Spells header.condition vs ∧ n.kind = .op .semicolon ∧
    SpellsOption Expr.Spells header.step ws ∧ c.kind = .op .rParen

/-- An expression between parentheses. -/
def SpellsCondition (e : Expr α) (ts : List Token) : Prop := ∃ o us c,
  ts = o :: (us ++ [c]) ∧ o.kind = .op .lParen ∧ e.Spells us ∧ c.kind = .op .rParen

/-- Labels, a colon, and what `spells` admits for the body. -/
def CaseItem.SpellsWith (spells : β → List Token → Prop) (item : CaseItem α β) (ts : List Token) : Prop :=
  ∃ us m vs, ts = us ++ m :: vs ∧ Expr.SpellsList item.labels us ∧ m.kind = .op .colon ∧ spells item.body vs

theorem CaseItem.spellsEach_cons {spells : β → List Token → Prop} {item : CaseItem α β}
    {items : List (CaseItem α β)} {ts : List Token} : SpellsEach (SpellsWith spells) (item :: items) ts ↔
      ∃ us m vs ws, ts = us ++ m :: (vs ++ ws) ∧ Expr.SpellsList item.labels us ∧ m.kind = .op .colon ∧
        spells item.body vs ∧ SpellsEach (SpellsWith spells) items ws := by
  constructor
  · rintro ⟨_, ws, rfl, ⟨us, m, vs, rfl, hus, hm, hvs⟩, hws⟩
    exact ⟨us, m, vs, ws, by simp, hus, hm, hvs, hws⟩
  · rintro ⟨us, m, vs, ws, rfl, hus, hm, hvs, hws⟩
    exact ⟨us ++ m :: vs, ws, by simp, ⟨us, m, vs, rfl, hus, hm, hvs⟩, hws⟩

/-- The word for the default item, perhaps a colon, and what `spells` admits for the body. -/
def SpellsFallback (spells : β → List Token → Prop) (b : β) (ts : List Token) : Prop := ∃ d us vs,
  ts = d :: (us ++ vs) ∧ d.kind = .word .kwDefault ∧ (us = [] ∨ ∃ m, us = [m] ∧ m.kind = .op .colon) ∧
    spells b vs

/-! ### Statements -/

namespace Statement

mutual

/-- The tokens write the statement down. -/
def Spells : Statement α → List Token → Prop
  | block _ label statements, ts => ∃ b ls us e ms, ts = (b :: ((ls ++ us) ++ [e])) ++ ms ∧
      b.kind = .word .kwBegin ∧ SpellsLabel label ls ∧ SpellsAll statements us ∧
      e.kind = .word .kwEnd ∧ (ms = [] ∨ label ≠ none ∧ SpellsLabel label ms)
  | ifElse _ condition thenBranch elseBranch, ts => ∃ i us vs ws, ts = i :: (us ++ (vs ++ ws)) ∧
      i.kind = .word .kwIf ∧ SpellsCondition condition us ∧ thenBranch.Spells vs ∧
      SpellsElse elseBranch ws
  | caseOf _ kind selector items default, ts => ∃ k us vs ws e,
      ts = k :: ((us ++ (vs ++ ws)) ++ [e]) ∧ CaseKind.ofKind? k.kind = some kind ∧
      SpellsCondition selector us ∧ SpellsItems items vs ∧ SpellsDefault default ws ∧
      e.kind = .word .kwEndCase
  | loop _ header body, ts => ∃ f us vs, ts = f :: (us ++ vs) ∧ f.kind = .word .kwFor ∧
      header.Spells us ∧ body.Spells vs
  | delayed _ delay body, ts => ∃ us vs, ts = us ++ vs ∧ delay.Spells us vs ∧ body.Spells vs
  | event _ sensitivity body, ts => ∃ us vs, ts = us ++ vs ∧ sensitivity.Spells us ∧ body.Spells vs
  | expression _ e, ts => ∃ us m, ts = us ++ [m] ∧ e.Spells us ∧ m.kind = .op .semicolon
  | empty _, ts => ∃ m, ts = [m] ∧ m.kind = .op .semicolon

/-- Statements, one after the other. -/
def SpellsAll : List (Statement α) → List Token → Prop
  | [], ts => ts = []
  | s :: ss, ts => ∃ us vs, ts = us ++ vs ∧ s.Spells us ∧ SpellsAll ss vs

/-- The branch behind an `else`, if there is one. -/
def SpellsElse : Option (Statement α) → List Token → Prop
  | none, ts => ts = []
  | some s, ts => ∃ e us, ts = e :: us ∧ e.kind = .word .kwElse ∧ s.Spells us

/-- The default item, if there is one. -/
def SpellsDefault : Option (Statement α) → List Token → Prop
  | none, ts => ts = []
  | some s, ts => ∃ d us vs, ts = d :: (us ++ vs) ∧ d.kind = .word .kwDefault ∧
      (us = [] ∨ ∃ m, us = [m] ∧ m.kind = .op .colon) ∧ s.Spells vs

/-- Case items, one after the other. -/
def SpellsItems : List (CaseItem α (Statement α)) → List Token → Prop
  | [], ts => ts = []
  | ⟨_, labels, body⟩ :: items, ts => ∃ us m vs ws, ts = us ++ m :: (vs ++ ws) ∧
      Expr.SpellsList labels us ∧ m.kind = .op .colon ∧ body.Spells vs ∧ SpellsItems items ws

end

variable {ts : List Token}

theorem spellsAll_iff {ss : List (Statement α)} : SpellsAll ss ts ↔ SpellsEach Spells ss ts := by
  induction ss generalizing ts with
  | nil => exact Iff.rfl
  | cons s ss ih => simp only [SpellsAll, SpellsEach, ih]

theorem spellsDefault_iff {o : Option (Statement α)} :
    SpellsDefault o ts ↔ SpellsOption (SpellsFallback Spells) o ts := by
  cases o <;> exact Iff.rfl

theorem spellsItems_iff {items : List (CaseItem α (Statement α))} :
    SpellsItems items ts ↔ SpellsEach (CaseItem.SpellsWith Spells) items ts := by
  induction items generalizing ts with
  | nil => exact Iff.rfl
  | cons item items ih => simp only [SpellsItems, CaseItem.spellsEach_cons, ih]

end Statement

/-! ### The first token -/

/-- Kinds of tokens that open a statement which is no expression. -/
def TokenKind.opensStatement : TokenKind → Bool
  | .word .kwBegin | .word .kwIf | .word .kwFor | .word .kwCase | .word .kwCasez | .word .kwCasex => true
  | .op .sharp | .op .atSign | .op .semicolon => true
  | _ => false

theorem CaseKind.opensStatement {kind : TokenKind} {k : CaseKind} (h : ofKind? kind = some k) :
    kind.opensStatement = true := by
  unfold ofKind? at h
  split at h <;> first | rfl | cases h

/-- The first token that spells a statement opens it, or starts an expression. -/
theorem Statement.Spells.starts {s : Statement α} {ts : List Token} (h : s.Spells ts) :
    ∃ t us, ts = t :: us ∧ (t.kind.opensStatement = true ∨
      t.kind.startsExpression = true ∧ ∃ tag e, s = .expression tag e) := by
  cases s with
  | block tag label statements =>
    obtain ⟨b, ls, us, e, ms, rfl, hb, -⟩ := h
    exact ⟨b, _, rfl, .inl (by rw [hb]; rfl)⟩
  | ifElse tag condition thenBranch elseBranch =>
    obtain ⟨i, us, vs, ws, rfl, hi, -⟩ := h
    exact ⟨i, _, rfl, .inl (by rw [hi]; rfl)⟩
  | caseOf tag kind selector items default =>
    obtain ⟨k, us, vs, ws, e, rfl, hk, -⟩ := h
    exact ⟨k, _, rfl, .inl (CaseKind.opensStatement hk)⟩
  | loop tag header body =>
    obtain ⟨f, us, vs, rfl, hf, -⟩ := h
    exact ⟨f, _, rfl, .inl (by rw [hf]; rfl)⟩
  | delayed tag delay body =>
    obtain ⟨us, vs, rfl, ⟨h, us', m, vs', rfl, hh, -⟩, -⟩ := h
    exact ⟨h, _, rfl, .inl (by rw [hh]; rfl)⟩
  | event tag sensitivity body =>
    obtain ⟨us, vs, rfl, ⟨h, us', rfl, hh, -⟩, -⟩ := h
    exact ⟨h, _, rfl, .inl (by rw [hh]; rfl)⟩
  | expression tag e =>
    obtain ⟨us, m, rfl, hus, -⟩ := h
    obtain ⟨t, vs, rfl, ht⟩ := hus.starts
    exact ⟨t, _, rfl, .inr ⟨ht, tag, e, rfl⟩⟩
  | empty tag =>
    obtain ⟨m, rfl, hm⟩ := h
    exact ⟨m, _, rfl, .inl (by rw [hm]; rfl)⟩

end SystemVerilog
