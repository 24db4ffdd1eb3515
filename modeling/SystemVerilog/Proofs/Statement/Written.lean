import SystemVerilog.Proofs.Expression.Written
import SystemVerilog.Proofs.Statement.Spelling

/-!
# Statements written down

`s.marks style` are the lexemes that write the statement `s` down by the grammar; where the grammar
leaves a choice the style decides. A unit of time is joined to its magnitude. The text of the marks of a
canonical statement is cut into them again, and the tokens spell the statement.
-/

namespace SystemVerilog

variable {α β : Type}

/-! ### Words with a meaning -/

def TimeUnit.keyword : TimeUnit → Keyword
  | s => .kwSecond
  | ms => .kwMilliSecond
  | us => .kwMicroSecond
  | ns => .kwNanoSecond
  | ps => .kwPicoSecond
  | fs => .kwFemtoSecond

def Signing.keyword : Signing → Keyword
  | signed => .kwSigned
  | unsigned => .kwUnsigned

def Edge.keyword : Edge → Keyword
  | posedge => .kwPosedge
  | negedge => .kwNegedge
  | any => .kwEdge

def CaseKind.keyword : CaseKind → Keyword
  | case => .kwCase
  | casez => .kwCasez
  | casex => .kwCasex

theorem TimeUnit.ofKind?_keyword (u : TimeUnit) : ofKind? (.word u.keyword) = some u := by
  cases u <;> rfl

theorem Signing.ofKind?_keyword (s : Signing) : ofKind? (.word s.keyword) = some s := by
  cases s <;> rfl

theorem Edge.ofKind?_keyword (e : Edge) : ofKind? (.word e.keyword) = some e := by
  cases e <;> rfl

theorem CaseKind.ofKind?_keyword (k : CaseKind) : ofKind? (.word k.keyword) = some k := by
  cases k <;> rfl

/-! ### Marks of the parts of statements -/

/-- What the grammar leaves to the writer of a statement. -/
structure Style where
  /-- The label of a block is repeated behind its end. -/
  closingLabels : Bool
  /-- A colon stands behind `default`. -/
  defaultColons : Bool
  /-- The star of an event control stands in parentheses. -/
  enclosedStars : Bool
  /-- Events are separated by commas and not by `or`. -/
  eventCommas : Bool
  deriving DecidableEq, Repr

/-- The marks of something, if it is there. -/
def optionMarks (marks : β → List Mark) : Option β → List Mark
  | none => []
  | some b => marks b

/-- The mark of a word that has a meaning, if it is there. -/
def wordMarks (keyword : β → Keyword) : Option β → List Mark :=
  optionMarks fun b => [.fixed (.word (keyword b))]

def labelMarks : Option String → List Mark :=
  optionMarks fun label => [.fixed (.op .colon), .word label]

def Bounds.marks (b : Bounds α) : List Mark := .fixed (.op .lBracket) ::
  (b.left.marks ++ .fixed (.op .colon) :: (b.right.marks ++ [.fixed (.op .rBracket)]))

/-- The marks of packed dimensions, one after the other. -/
def packedMarks : List (Bounds α) → List Mark
  | [] => []
  | b :: bs => b.marks ++ packedMarks bs

def DataType.marks (type : DataType α) : List Mark :=
  wordMarks id type.keyword ++ (wordMarks Signing.keyword type.signing ++ packedMarks type.packed)

def Delay.unitMarks : Option TimeUnit → List Mark :=
  optionMarks fun u => [(Mark.word u.keyword.spelling).join]

def Delay.marks (delay : Delay α) : List Mark :=
  .fixed (.op .sharp) :: (delay.magnitude.marks ++ Delay.unitMarks delay.unit)

def Event.marks (event : Event α) : List Mark :=
  wordMarks Edge.keyword event.edge ++ event.expr.marks

def Style.eventSeparator (style : Style) : TokenKind :=
  if style.eventCommas then .op .comma else .word .kwOr

/-- The marks of events, each behind a separator. -/
def eventsMarks (style : Style) : List (Event α) → List Mark
  | [] => []
  | event :: events => .fixed style.eventSeparator :: (event.marks ++ eventsMarks style events)

def Style.starMarks (style : Style) : List Mark :=
  if style.enclosedStars then [.fixed (.op .lParen), .fixed (.op .mul), .fixed (.op .rParen)]
  else [.fixed (.op .mul)]

def Sensitivity.restMarks (style : Style) (sensitivity : Sensitivity α) : List Mark :=
  match sensitivity.events with
  | [] => style.starMarks
  | event :: events => .fixed (.op .lParen) ::
      ((event.marks ++ eventsMarks style events) ++ [.fixed (.op .rParen)])

def Sensitivity.marks (style : Style) (sensitivity : Sensitivity α) : List Mark :=
  .fixed (.op .atSign) :: sensitivity.restMarks style

def genvarMarks (genvar : Bool) : List Mark := if genvar then [.fixed (.word .kwGenvar)] else []

def LoopInit.marks (init : LoopInit α) : List Mark :=
  genvarMarks init.genvar ++ (optionMarks DataType.marks init.type ++ init.assignment.marks)

def LoopHeader.marks (header : LoopHeader α) : List Mark := .fixed (.op .lParen) ::
  ((optionMarks LoopInit.marks header.init ++ .fixed (.op .semicolon) ::
    (optionMarks Expr.marks header.condition ++ .fixed (.op .semicolon) ::
      optionMarks Expr.marks header.step)) ++ [.fixed (.op .rParen)])

def conditionMarks (e : Expr α) : List Mark :=
  .fixed (.op .lParen) :: (e.marks ++ [.fixed (.op .rParen)])

/-! ### Marks of statements -/

namespace Statement

mutual

/-- The lexemes that write a statement down in a style. -/
def marks (style : Style) : Statement α → List Mark
  | block _ label statements =>
    (.fixed (.word .kwBegin) :: ((labelMarks label ++ marksAll style statements) ++
      [.fixed (.word .kwEnd)])) ++ (if style.closingLabels then labelMarks label else [])
  | ifElse _ condition thenBranch elseBranch => .fixed (.word .kwIf) ::
      (conditionMarks condition ++ (thenBranch.marks style ++ marksElse style elseBranch))
  | caseOf _ kind selector items default => .fixed (.word kind.keyword) ::
      ((conditionMarks selector ++ (marksItems style items ++ marksDefault style default)) ++
        [.fixed (.word .kwEndCase)])
  | loop _ header body => .fixed (.word .kwFor) :: (header.marks ++ body.marks style)
  | delayed _ delay body => delay.marks ++ body.marks style
  | event _ sensitivity body => sensitivity.marks style ++ body.marks style
  | expression _ e => e.marks ++ [.fixed (.op .semicolon)]
  | empty _ => [.fixed (.op .semicolon)]

/-- The lexemes of statements, one after the other. -/
def marksAll (style : Style) : List (Statement α) → List Mark
  | [] => []
  | s :: ss => s.marks style ++ marksAll style ss

/-- The lexemes of the branch behind an `else`. -/
def marksElse (style : Style) : Option (Statement α) → List Mark
  | none => []
  | some s => .fixed (.word .kwElse) :: s.marks style

/-- The lexemes of the default item. -/
def marksDefault (style : Style) : Option (Statement α) → List Mark
  | none => []
  | some s => .fixed (.word .kwDefault) ::
      ((if style.defaultColons then [.fixed (.op .colon)] else []) ++ s.marks style)

/-- The lexemes of case items, one after the other. -/
def marksItems (style : Style) : List (CaseItem α (Statement α)) → List Mark
  | [] => []
  | ⟨_, labels, body⟩ :: items => Expr.marksList labels ++ .fixed (.op .colon) ::
      (body.marks style ++ marksItems style items)

end

end Statement

/-! ### Lexemes in statements -/

def Bounds.Lexical (b : Bounds α) : Prop := b.left.Lexical ∧ b.right.Lexical

def DataType.Lexical (type : DataType α) : Prop := ∀ b ∈ type.packed, b.Lexical

def LoopInit.Lexical (init : LoopInit α) : Prop :=
  (∀ type, init.type = some type → type.Lexical) ∧ init.assignment.Lexical

structure LoopHeader.Lexical (header : LoopHeader α) : Prop where
  init : ∀ init, header.init = some init → init.Lexical
  condition : ∀ e, header.condition = some e → e.Lexical
  step : ∀ e, header.step = some e → e.Lexical

namespace Statement

mutual

/-- The names, labels and literals of the statement are lexemes. -/
def Lexical : Statement α → Prop
  | block _ label statements =>
    (∀ name, label = some name → isNameText name = true) ∧ LexicalAll statements
  | ifElse _ condition thenBranch elseBranch =>
    condition.Lexical ∧ thenBranch.Lexical ∧ LexicalOption elseBranch
  | caseOf _ _ selector items default =>
    selector.Lexical ∧ LexicalItems items ∧ LexicalOption default
  | loop _ header body => header.Lexical ∧ body.Lexical
  | delayed _ delay body => delay.magnitude.Lexical ∧ body.Lexical
  | event _ sensitivity body => (∀ event ∈ sensitivity.events, event.expr.Lexical) ∧ body.Lexical
  | expression _ e => e.Lexical
  | empty _ => True

def LexicalAll : List (Statement α) → Prop
  | [] => True
  | s :: ss => s.Lexical ∧ LexicalAll ss

def LexicalOption : Option (Statement α) → Prop
  | none => True
  | some s => s.Lexical

def LexicalItems : List (CaseItem α (Statement α)) → Prop
  | [] => True
  | ⟨_, labels, body⟩ :: items => (∀ e ∈ labels, e.Lexical) ∧ body.Lexical ∧ LexicalItems items

end

end Statement

/-! ### The text of a statement is cut into its lexemes -/

theorem Keyword.mem_statementWords {k : Keyword} (h : k.namesDataType = true) : k ∈ statementWords := by
  unfold namesDataType at h
  rw [Bool.or_eq_true, Bool.or_eq_true] at h
  rcases h with (h | h) | h
  · unfold isIntegerVectorType at h
    split at h <;> first | decide | cases h
  · unfold isIntegerAtomType at h
    split at h <;> first | decide | cases h
  · unfold isNonIntegerType at h
    split at h <;> first | decide | cases h

theorem lexable_optionMarks {marks : β → List Mark} {o : Option β}
    (h : ∀ b, o = some b → Lexable (marks b)) : Lexable (optionMarks marks o) := by
  cases o with
  | none => exact .nil
  | some b => exact h b rfl

theorem lexable_wordMarks {keyword : β → Keyword} {o : Option β}
    (h : ∀ b, o = some b → keyword b ∈ statementWords) : Lexable (wordMarks keyword o) :=
  lexable_optionMarks fun b hb => .keyword (h b hb)

theorem lexable_labelMarks {label : Option String}
    (h : ∀ name, label = some name → isNameText name = true) : Lexable (labelMarks label) :=
  lexable_optionMarks fun name hname => .cons (.op _) (.word (isWord_of_isNameText (h name hname)))

theorem Bounds.lexable_marks {b : Bounds α} (h : b.Lexical) : Lexable b.marks := by
  have hright := (Expr.lexable_marks h.2).append (.op .rBracket)
  exact .cons (.op _) ((Expr.lexable_marks h.1).append (.cons (.op _) hright))

theorem lexable_packedMarks {bs : List (Bounds α)} (h : ∀ b ∈ bs, b.Lexical) :
    Lexable (packedMarks bs) := by
  induction bs with
  | nil => exact .nil
  | cons b bs ih =>
    exact (Bounds.lexable_marks (h b (by simp))).append (ih fun b hb => h b (by simp [hb]))

theorem DataType.lexable_marks {type : DataType α} (h : type.Lexical) (hc : type.Canonical) :
    Lexable type.marks := by
  have hkeyword : Lexable (wordMarks id type.keyword) :=
    lexable_wordMarks fun k hk => Keyword.mem_statementWords (hc.keyword k hk)
  have hsigning : Lexable (wordMarks Signing.keyword type.signing) :=
    lexable_wordMarks fun s _ => by cases s <;> decide
  exact hkeyword.append (hsigning.append (lexable_packedMarks h))

/-- No unit looks like an exponent to the digits that it touches. -/
theorem TimeUnit.spelling_leads (u : TimeUnit) : ∃ c cs, u.keyword.spelling.toList = c :: cs ∧
    isWordStart c = true ∧ c ≠ 'e' ∧ c ≠ 'E' ∧ c ≠ '_' := by
  cases u <;> exact ⟨_, _, rfl, by decide, by decide, by decide, by decide⟩

theorem TimeUnit.isWord_spelling (u : TimeUnit) : isWord u.keyword.spelling = true := by
  cases u <;> decide

theorem Delay.lexable_marks {delay : Delay α} (h : delay.magnitude.Lexical) (hc : delay.Canonical) :
    Lexable delay.marks := by
  refine .cons (.op _) ?_
  cases hunit : delay.unit with
  | none => exact (Expr.lexable_marks h).append .nil
  | some u =>
    show Lexable (delay.magnitude.marks ++ [(Mark.word u.keyword.spelling).join])
    rcases hc.2 with ⟨tag, text, hmagnitude⟩ | ⟨tag, inner, hmagnitude⟩
    · rw [hmagnitude] at h ⊢
      obtain ⟨c, cs, hspelling, hc, hne⟩ := u.spelling_leads
      refine .touched (fun r => ?_) rfl rfl u.isWord_spelling
      rw [hspelling]
      exact (h.root rfl).1.leads hc hne
    · rw [hmagnitude] at h ⊢
      have hinner : Lexable inner.marks := Expr.lexable_marks (h.root rfl).2
      have hclose : Lexable [.fixed (.op .rParen), (Mark.word u.keyword.spelling).join] :=
        .touched (fun r => leads_rParen _) rfl rfl u.isWord_spelling
      have hall := Lexable.cons (.op .lParen) (hinner.append hclose)
      rwa [← List.singleton_append (l := [_]), ← List.append_assoc, ← List.cons_append] at hall

theorem Event.lexable_marks {event : Event α} (h : event.expr.Lexical) : Lexable event.marks := by
  have hedge : Lexable (wordMarks Edge.keyword event.edge) :=
    lexable_wordMarks fun e _ => by cases e <;> decide
  exact hedge.append (Expr.lexable_marks h)

theorem Style.lexable_eventSeparator (style : Style) : Lexable [.fixed style.eventSeparator] := by
  unfold eventSeparator
  split
  · exact .op _
  · exact .keyword (by decide)

theorem lexable_eventsMarks (style : Style) {events : List (Event α)}
    (h : ∀ event ∈ events, event.expr.Lexical) : Lexable (eventsMarks style events) := by
  induction events with
  | nil => exact .nil
  | cons event events ih =>
    have hevent := Event.lexable_marks (h event (by simp))
    exact .cons style.lexable_eventSeparator (hevent.append (ih fun e he => h e (by simp [he])))

theorem Style.lexable_starMarks (style : Style) : Lexable style.starMarks := by
  unfold starMarks
  split
  · exact .cons (.op _) (.cons (.op _) (.op _))
  · exact .op _

theorem Sensitivity.lexable_marks (style : Style) {sensitivity : Sensitivity α}
    (h : ∀ event ∈ sensitivity.events, event.expr.Lexical) : Lexable (sensitivity.marks style) := by
  refine .cons (.op _) ?_
  unfold restMarks
  split
  · exact style.lexable_starMarks
  · rename_i event events hevents
    rw [hevents] at h
    have hevent := Event.lexable_marks (h event (by simp))
    have hmore : Lexable (eventsMarks style events) :=
      lexable_eventsMarks style fun e he => h e (by simp [he])
    exact .cons (.op _) ((hevent.append hmore).append (.op _))

theorem lexable_genvarMarks (genvar : Bool) : Lexable (genvarMarks genvar) := by
  unfold genvarMarks
  split
  · exact .keyword (by decide)
  · exact .nil

theorem LoopInit.lexable_marks {init : LoopInit α} (h : init.Lexical) (hc : init.Canonical) :
    Lexable init.marks := by
  have htype : Lexable (optionMarks DataType.marks init.type) :=
    lexable_optionMarks fun type ht => DataType.lexable_marks (h.1 type ht) (hc.1 type ht)
  exact (lexable_genvarMarks init.genvar).append (htype.append (Expr.lexable_marks h.2))

theorem LoopHeader.lexable_marks {header : LoopHeader α} (h : header.Lexical) (hc : header.Canonical) :
    Lexable header.marks := by
  have hinit : Lexable (optionMarks LoopInit.marks header.init) :=
    lexable_optionMarks fun init hi => LoopInit.lexable_marks (h.init init hi) (hc.init init hi)
  have hcondition : Lexable (optionMarks Expr.marks header.condition) :=
    lexable_optionMarks fun e he => Expr.lexable_marks (h.condition e he)
  have hstep : Lexable (optionMarks Expr.marks header.step) :=
    lexable_optionMarks fun e he => Expr.lexable_marks (h.step e he)
  have hclauses := hinit.append (.cons (.op .semicolon) (hcondition.append (.cons (.op .semicolon) hstep)))
  exact .cons (.op _) (hclauses.append (.op _))

theorem lexable_conditionMarks {e : Expr α} (h : e.Lexical) : Lexable (conditionMarks e) :=
  .cons (.op _) ((Expr.lexable_marks h).append (.op _))

namespace Statement

mutual

/-- The marks of a canonical statement are cut into their lexemes again. -/
theorem lexable_marks (style : Style) : ∀ {s : Statement α}, s.Lexical → s.Canonical →
    Lexable (s.marks style)
  | block _ label statements, h, hc => by
    have hlabel := lexable_labelMarks h.1
    have hbody := hlabel.append (lexable_marksAll style h.2 hc)
    have hclose : Lexable (if style.closingLabels then labelMarks label else []) := by
      split
      · exact hlabel
      · exact .nil
    exact (Lexable.cons (.keyword (by decide)) (hbody.append (.keyword (by decide)))).append hclose
  | ifElse _ condition thenBranch elseBranch, h, hc => by
    have hthen := lexable_marks style h.2.1 hc.2.1
    have helse := lexable_marksElse style h.2.2 hc.2.2.1
    exact .cons (.keyword (by decide)) ((lexable_conditionMarks h.1).append (hthen.append helse))
  | caseOf _ kind selector items default, h, hc => by
    have hitems := lexable_marksItems style h.2.1 hc.2.1
    have hdefault := lexable_marksDefault style h.2.2 hc.2.2
    have hkind : kind.keyword ∈ statementWords := by cases kind <;> decide
    have hbody := (lexable_conditionMarks h.1).append (hitems.append hdefault)
    exact .cons (.keyword hkind) (hbody.append (.keyword (by decide)))
  | loop _ header body, h, hc =>
    .cons (.keyword (by decide))
      ((LoopHeader.lexable_marks h.1 hc.1).append (lexable_marks style h.2 hc.2))
  | delayed _ delay body, h, hc =>
    (Delay.lexable_marks h.1 hc.1).append (lexable_marks style h.2 hc.2.1)
  | event _ sensitivity body, h, hc =>
    (Sensitivity.lexable_marks style h.1).append (lexable_marks style h.2 hc.2)
  | expression _ e, h, _ => (Expr.lexable_marks h).append (.op _)
  | empty _, _, _ => .op _

theorem lexable_marksAll (style : Style) : ∀ {ss : List (Statement α)}, LexicalAll ss →
    CanonicalAll ss → Lexable (marksAll style ss)
  | [], _, _ => .nil
  | _ :: _, h, hc => (lexable_marks style h.1 hc.1).append (lexable_marksAll style h.2 hc.2)

theorem lexable_marksElse (style : Style) : ∀ {o : Option (Statement α)}, LexicalOption o →
    CanonicalOption o → Lexable (marksElse style o)
  | none, _, _ => .nil
  | some _, h, hc => .cons (.keyword (by decide)) (lexable_marks style h hc)

theorem lexable_marksDefault (style : Style) : ∀ {o : Option (Statement α)}, LexicalOption o →
    CanonicalOption o → Lexable (marksDefault style o)
  | none, _, _ => .nil
  | some _, h, hc => by
    have hcolon : Lexable (if style.defaultColons then [.fixed (.op .colon)] else []) := by
      split
      · exact .op _
      · exact .nil
    exact .cons (.keyword (by decide)) (hcolon.append (lexable_marks style h hc))

theorem lexable_marksItems (style : Style) : ∀ {items : List (CaseItem α (Statement α))},
    LexicalItems items → CanonicalItems items → Lexable (marksItems style items)
  | [], _, _ => .nil
  | ⟨_, labels, body⟩ :: items, h, hc => by
    have hlabels := Expr.lexable_marksList (Expr.allLexical_of_forall h.1)
    have hbody := lexable_marks style h.2.1 hc.2.2.1
    have hitems := lexable_marksItems style h.2.2 hc.2.2.2
    exact hlabels.append (.cons (.op _) (hbody.append hitems))

end

end Statement

/-! ### The tokens of a statement spell it -/

section Spelled

variable {before : Option Token} {ts us vs : List Token}

theorem spellsOption_of_realizes {marks : β → List Mark} {spells : β → List Token → Prop} {o : Option β}
    (hr : Realizes before (optionMarks marks o) ts)
    (h : ∀ b, o = some b → ∀ {before ts}, Realizes before (marks b) ts → spells b ts) :
    SpellsOption spells o ts := by
  cases o with
  | none => exact hr
  | some b => exact h b rfl hr

theorem spellsMark_of_realizes {keyword : β → Keyword} {meaning : TokenKind → Option β} {o : Option β}
    (hr : Realizes before (wordMarks keyword o) ts)
    (h : ∀ b, o = some b → meaning (.word (keyword b)) = some b) : SpellsMark meaning o ts := by
  cases o with
  | none => exact hr
  | some b =>
    obtain ⟨t, rfl, ht⟩ := hr.last
    exact ⟨t, rfl, by rw [ht, h b rfl]⟩

theorem spellsLabel_of_realizes {label : Option String} (hr : Realizes before (labelMarks label) ts)
    (h : ∀ name, label = some name → isNameText name = true) : SpellsLabel label ts := by
  cases label with
  | none => exact hr
  | some name =>
    obtain ⟨m, us, rfl, hm, hrest⟩ := hr.fixed
    obtain ⟨t, us, rfl, ht, htext, hus⟩ := hrest.name (h name rfl)
    obtain rfl : us = [] := hus
    exact ⟨m, t, rfl, hm, ht, htext⟩

theorem Bounds.spells_of_realizes {b : Bounds α} (hr : Realizes before b.marks ts) (h : b.Lexical) :
    b.Spells ts := by
  obtain ⟨o, us, rfl, ho, hrest⟩ := hr.fixed
  obtain ⟨us, vs, rfl, hus, htail⟩ := hrest.of_append
  obtain ⟨m, vs, rfl, hm, hrest⟩ := htail.fixed
  obtain ⟨vs, ws, rfl, hvs, hws⟩ := hrest.of_append
  obtain ⟨c, rfl, hc⟩ := hws.last
  exact ⟨o, us, m, vs, c, rfl, ho, Expr.spells_of_realizes hus h.1, hm, Expr.spells_of_realizes hvs h.2, hc⟩

theorem spellsPacked_of_realizes {bs : List (Bounds α)} (hr : Realizes before (packedMarks bs) ts)
    (h : ∀ b ∈ bs, b.Lexical) : SpellsPacked bs ts := by
  induction bs generalizing before ts with
  | nil => exact hr
  | cons b bs ih =>
    obtain ⟨us, vs, rfl, hus, hvs⟩ := hr.of_append
    exact ⟨us, vs, rfl, Bounds.spells_of_realizes hus (h b (by simp)), ih hvs fun b hb => h b (by simp [hb])⟩

theorem DataType.spells_of_realizes {type : DataType α} (hr : Realizes before type.marks ts)
    (h : type.Lexical) (hc : type.Canonical) : type.Spells ts := by
  obtain ⟨us, vs, rfl, hus, hrest⟩ := hr.of_append
  obtain ⟨vs, ws, rfl, hvs, hws⟩ := hrest.of_append
  refine ⟨us, vs, ws, rfl, spellsMark_of_realizes hus fun k hk => ?_,
    spellsMark_of_realizes hvs fun s _ => s.ofKind?_keyword, spellsPacked_of_realizes hws h⟩
  show (if k.namesDataType then some k else none) = some k
  rw [if_pos (hc.keyword k hk)]

/-- The unit of a delay touches its magnitude; a word behind the blank that follows a delay does not. -/
theorem Delay.spells_of_realizes {delay : Delay α} {ms : List Mark} (hr : Realizes before delay.marks us)
    (hnext : Realizes (us.getLast?.or before) ms vs) (hu : Unjoined ms) (h : delay.magnitude.Lexical) :
    delay.Spells us vs := by
  obtain ⟨s, us, rfl, hs, hrest⟩ := hr.fixed
  obtain ⟨us, ws, rfl, hus, hws⟩ := hrest.of_append
  have hspells := Expr.spells_of_realizes hus h
  obtain ⟨us, m, rfl⟩ : ∃ us' m, us = us' ++ [m] := by
    obtain ⟨t, us', rfl, -⟩ := hspells.starts
    exact ⟨_, _, (List.dropLast_concat_getLast (List.cons_ne_nil t us')).symm⟩
  rw [List.getLast?_concat, Option.some_or] at hws
  refine ⟨s, us, m, ws, by simp, hs, hspells, ?_⟩
  cases hunit : delay.unit with
  | none =>
    rw [hunit] at hws
    obtain rfl : ws = [] := hws
    refine ⟨rfl, by simp, fun t rest _ hvs _ => ?_⟩
    have hlast : (s :: ((us ++ [m]) ++ [])).getLast? = some m := by
      rw [List.append_nil, ← List.cons_append, List.getLast?_concat]
    rw [hlast] at hnext
    cases ms with
    | nil =>
      obtain rfl : vs = [] := hnext
      cases hvs
    | cons n ms =>
      obtain ⟨t', rest', heq, -, htouch, -⟩ := hnext
      obtain ⟨rfl, -⟩ := List.cons.inj (hvs.symm.trans heq)
      rw [htouch m rfl, hu n ms rfl]
  | some u =>
    rw [hunit] at hws
    obtain ⟨t, rest, rfl, hlexeme, htouch, hrest⟩ := hws
    obtain rfl : rest = [] := hrest
    have hkind : t.kind = .word u.keyword := by
      rw [congrArg Lexeme.kind hlexeme]
      cases u <;> decide
    refine ⟨⟨t, rfl, by rw [hkind, u.ofKind?_keyword]⟩, fun t' ht' => ?_, fun _ _ hnone => by cases hnone⟩
    obtain rfl := List.mem_singleton.1 ht'
    exact htouch m rfl

theorem Event.spells_of_realizes {event : Event α} (hr : Realizes before event.marks ts)
    (h : event.expr.Lexical) : event.Spells ts := by
  obtain ⟨us, vs, rfl, hus, hvs⟩ := hr.of_append
  exact ⟨us, vs, rfl, spellsMark_of_realizes hus fun e _ => e.ofKind?_keyword,
    Expr.spells_of_realizes hvs h⟩

theorem spellsEvents_of_realizes {style : Style} {events : List (Event α)}
    (hr : Realizes before (eventsMarks style events) ts) (h : ∀ event ∈ events, event.expr.Lexical) :
    SpellsEvents events ts := by
  induction events generalizing before ts with
  | nil => exact hr
  | cons event events ih =>
    obtain ⟨m, us, rfl, hm, hrest⟩ := hr.fixed
    obtain ⟨us, vs, rfl, hus, hvs⟩ := hrest.of_append
    have hseparator : m.kind = .word .kwOr ∨ m.kind = .op .comma := by
      rw [hm, Style.eventSeparator]
      split <;> simp
    exact ⟨m, us, vs, rfl, hseparator, Event.spells_of_realizes hus (h event (by simp)),
      ih hvs fun e he => h e (by simp [he])⟩

theorem Sensitivity.spells_of_realizes {style : Style} {sensitivity : Sensitivity α}
    (hr : Realizes before (sensitivity.marks style) ts)
    (h : ∀ event ∈ sensitivity.events, event.expr.Lexical) : sensitivity.Spells ts := by
  obtain ⟨s, us, rfl, hs, hrest⟩ := hr.fixed
  refine ⟨s, us, rfl, hs, ?_⟩
  unfold restMarks at hrest
  unfold SpellsRest
  cases hevents : sensitivity.events with
  | nil =>
    simp only [hevents] at hrest ⊢
    unfold Style.starMarks at hrest
    split at hrest
    · obtain ⟨o, us, rfl, ho, hrest⟩ := hrest.fixed
      obtain ⟨m, us, rfl, hm, hrest⟩ := hrest.fixed
      obtain ⟨c, rfl, hc⟩ := hrest.last
      exact .inr ⟨o, m, c, rfl, ho, hm, hc⟩
    · exact .inl hrest.last
  | cons event events =>
    simp only [hevents] at hrest ⊢
    rw [hevents] at h
    obtain ⟨o, us, rfl, ho, hrest⟩ := hrest.fixed
    obtain ⟨us, ws, rfl, hlist, hws⟩ := hrest.of_append
    obtain ⟨us, vs, rfl, hus, hvs⟩ := hlist.of_append
    obtain ⟨c, rfl, hc⟩ := hws.last
    exact ⟨o, us, vs, c, rfl, ho, Event.spells_of_realizes hus (h event (by simp)),
      spellsEvents_of_realizes hvs fun e he => h e (by simp [he]), hc⟩

theorem LoopInit.spells_of_realizes {init : LoopInit α} (hr : Realizes before init.marks ts)
    (h : init.Lexical) (hc : init.Canonical) : init.Spells ts := by
  obtain ⟨us, vs, rfl, hus, hrest⟩ := hr.of_append
  obtain ⟨vs, ws, rfl, hvs, hws⟩ := hrest.of_append
  refine ⟨us, vs, ws, rfl, ?_, spellsOption_of_realizes hvs fun type ht _ _ hr =>
    DataType.spells_of_realizes hr (h.1 type ht) (hc.1 type ht), Expr.spells_of_realizes hws h.2⟩
  unfold genvarMarks at hus
  split <;> rename_i hgenvar
  · rw [if_pos hgenvar] at hus
    exact hus.last
  · rw [if_neg hgenvar] at hus
    exact hus

theorem LoopHeader.spells_of_realizes {header : LoopHeader α} (hr : Realizes before header.marks ts)
    (h : header.Lexical) (hc : header.Canonical) : header.Spells ts := by
  obtain ⟨o, us, rfl, ho, hrest⟩ := hr.fixed
  obtain ⟨us, xs, rfl, hclauses, hxs⟩ := hrest.of_append
  obtain ⟨c, rfl, hcl⟩ := hxs.last
  obtain ⟨us, vs, rfl, hus, htail⟩ := hclauses.of_append
  obtain ⟨m, vs, rfl, hm, hrest⟩ := htail.fixed
  obtain ⟨vs, ws, rfl, hvs, htail⟩ := hrest.of_append
  obtain ⟨n, ws, rfl, hn, hws⟩ := htail.fixed
  refine ⟨o, us, m, vs, n, ws, c, rfl, ho, ?_, hm, ?_, hn, ?_, hcl⟩
  · exact spellsOption_of_realizes hus fun init hi _ _ hr =>
      LoopInit.spells_of_realizes hr (h.init init hi) (hc.init init hi)
  · exact spellsOption_of_realizes hvs fun e he _ _ hr => Expr.spells_of_realizes hr (h.condition e he)
  · exact spellsOption_of_realizes hws fun e he _ _ hr => Expr.spells_of_realizes hr (h.step e he)

theorem spellsCondition_of_realizes {e : Expr α} (hr : Realizes before (conditionMarks e) ts)
    (h : e.Lexical) : SpellsCondition e ts := by
  obtain ⟨o, us, rfl, ho, hrest⟩ := hr.fixed
  obtain ⟨us, vs, rfl, hus, hvs⟩ := hrest.of_append
  obtain ⟨c, rfl, hc⟩ := hvs.last
  exact ⟨o, us, c, rfl, ho, Expr.spells_of_realizes hus h, hc⟩

end Spelled

namespace Statement

mutual

/-- The tokens that the marks of a canonical statement become spell it. -/
theorem spells_of_realizes {style : Style} : ∀ {s : Statement α} {before : Option Token}
    {ts : List Token}, Realizes before (s.marks style) ts → s.Lexical → s.Canonical → s.Spells ts
  | block _ label statements, _, _, hr, h, hc => by
    obtain ⟨us, ms, rfl, hrest, hms⟩ := hr.of_append
    obtain ⟨b, us, rfl, hb, hrest⟩ := hrest.fixed
    obtain ⟨us, vs, rfl, hbody, hvs⟩ := hrest.of_append
    obtain ⟨ls, us, rfl, hls, hus⟩ := hbody.of_append
    obtain ⟨e, rfl, he⟩ := hvs.last
    refine ⟨b, ls, us, e, ms, rfl, hb, spellsLabel_of_realizes hls h.1,
      spellsAll_of_realizes hus h.2 hc, he, ?_⟩
    split at hms
    · have hlabel := spellsLabel_of_realizes hms h.1
      cases label with
      | none => exact .inl hlabel
      | some name => exact .inr ⟨Option.some_ne_none name, hlabel⟩
    · exact .inl hms
  | ifElse _ condition thenBranch elseBranch, _, _, hr, h, hc => by
    obtain ⟨i, us, rfl, hi, hrest⟩ := hr.fixed
    obtain ⟨us, vs, rfl, hus, hrest⟩ := hrest.of_append
    obtain ⟨vs, ws, rfl, hvs, hws⟩ := hrest.of_append
    exact ⟨i, us, vs, ws, rfl, hi, spellsCondition_of_realizes hus h.1,
      spells_of_realizes hvs h.2.1 hc.2.1, spellsElse_of_realizes hws h.2.2 hc.2.2.1⟩
  | caseOf _ kind selector items default, _, _, hr, h, hc => by
    obtain ⟨k, us, rfl, hk, hrest⟩ := hr.fixed
    obtain ⟨us, xs, rfl, hbody, hxs⟩ := hrest.of_append
    obtain ⟨us, vs, rfl, hus, hrest⟩ := hbody.of_append
    obtain ⟨vs, ws, rfl, hvs, hws⟩ := hrest.of_append
    obtain ⟨e, rfl, he⟩ := hxs.last
    exact ⟨k, us, vs, ws, e, rfl, by rw [hk, kind.ofKind?_keyword],
      spellsCondition_of_realizes hus h.1, spellsItems_of_realizes hvs h.2.1 hc.2.1,
      spellsDefault_of_realizes hws h.2.2 hc.2.2, he⟩
  | loop _ header body, _, _, hr, h, hc => by
    obtain ⟨f, us, rfl, hf, hrest⟩ := hr.fixed
    obtain ⟨us, vs, rfl, hus, hvs⟩ := hrest.of_append
    exact ⟨f, us, vs, rfl, hf, LoopHeader.spells_of_realizes hus h.1 hc.1,
      spells_of_realizes hvs h.2 hc.2⟩
  | delayed _ delay body, _, _, hr, h, hc => by
    obtain ⟨us, vs, rfl, hus, hvs⟩ := hr.of_append
    have hunjoined := (lexable_marks style h.2 hc.2.1).unjoined
    exact ⟨us, vs, rfl, Delay.spells_of_realizes hus hvs hunjoined h.1,
      spells_of_realizes hvs h.2 hc.2.1⟩
  | event _ sensitivity body, _, _, hr, h, hc => by
    obtain ⟨us, vs, rfl, hus, hvs⟩ := hr.of_append
    exact ⟨us, vs, rfl, Sensitivity.spells_of_realizes hus h.1, spells_of_realizes hvs h.2 hc.2⟩
  | expression _ e, _, _, hr, h, _ => by
    obtain ⟨us, vs, rfl, hus, hvs⟩ := hr.of_append
    obtain ⟨m, rfl, hm⟩ := hvs.last
    exact ⟨us, m, rfl, Expr.spells_of_realizes hus h, hm⟩
  | empty _, _, _, hr, _, _ => hr.last

theorem spellsAll_of_realizes {style : Style} : ∀ {ss : List (Statement α)} {before : Option Token}
    {ts : List Token}, Realizes before (marksAll style ss) ts → LexicalAll ss → CanonicalAll ss →
    SpellsAll ss ts
  | [], _, _, hr, _, _ => hr
  | _ :: _, _, _, hr, h, hc => by
    obtain ⟨us, vs, rfl, hus, hvs⟩ := hr.of_append
    exact ⟨us, vs, rfl, spells_of_realizes hus h.1 hc.1, spellsAll_of_realizes hvs h.2 hc.2⟩

theorem spellsElse_of_realizes {style : Style} : ∀ {o : Option (Statement α)} {before : Option Token}
    {ts : List Token}, Realizes before (marksElse style o) ts → LexicalOption o → CanonicalOption o →
    SpellsElse o ts
  | none, _, _, hr, _, _ => hr
  | some _, _, _, hr, h, hc => by
    obtain ⟨e, us, rfl, he, hus⟩ := hr.fixed
    exact ⟨e, us, rfl, he, spells_of_realizes hus h hc⟩

theorem spellsDefault_of_realizes {style : Style} : ∀ {o : Option (Statement α)}
    {before : Option Token} {ts : List Token}, Realizes before (marksDefault style o) ts →
    LexicalOption o → CanonicalOption o → SpellsDefault o ts
  | none, _, _, hr, _, _ => hr
  | some _, _, _, hr, h, hc => by
    obtain ⟨d, us, rfl, hd, hrest⟩ := hr.fixed
    obtain ⟨us, vs, rfl, hus, hvs⟩ := hrest.of_append
    refine ⟨d, us, vs, rfl, hd, ?_, spells_of_realizes hvs h hc⟩
    split at hus
    · exact .inr hus.last
    · exact .inl hus

theorem spellsItems_of_realizes {style : Style} : ∀ {items : List (CaseItem α (Statement α))}
    {before : Option Token} {ts : List Token}, Realizes before (marksItems style items) ts →
    LexicalItems items → CanonicalItems items → SpellsItems items ts
  | [], _, _, hr, _, _ => hr
  | ⟨_, labels, body⟩ :: items, _, _, hr, h, hc => by
    obtain ⟨us, vs, rfl, hus, htail⟩ := hr.of_append
    obtain ⟨m, vs, rfl, hm, hrest⟩ := htail.fixed
    obtain ⟨vs, ws, rfl, hvs, hws⟩ := hrest.of_append
    exact ⟨us, m, vs, ws, rfl,
      Expr.spellsList_of_realizes hus (Expr.allLexical_of_forall h.1), hm,
      spells_of_realizes hvs h.2.1 hc.2.2.1, spellsItems_of_realizes hws h.2.2 hc.2.2.2⟩

end

end Statement

end SystemVerilog
