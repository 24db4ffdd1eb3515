import SystemVerilog.Proofs.Lexing.Written

/-!
# The texts of lexemes

What the leaves of a tree must be for their texts to be lexemes again: names are words, literals are
recognised as literals of their kind. A dollar sign leads any text, a closing parenthesis too, and a
plain integer leads a word that does not look like an exponent. Marks of such texts are `Lexable`: they
are cut into their lexemes again, whatever of the kind stands around them.
-/

namespace SystemVerilog

/-! ### Words -/

theorem isDigit_of_isWordStart {c : Char} (h : isWordStart c = true) : c.isDigit = false := by
  simp only [isWordStart, Bool.or_eq_true, beq_iff_eq] at h
  rcases h with h | rfl
  · delta Char.isAlpha Char.isUpper Char.isLower at h
    simp only [Bool.or_eq_true, Bool.and_eq_true, decide_eq_true_eq, ge_iff_le,
      UInt32.le_iff_toNat_le] at h
    simp only [Char.isDigit, Bool.and_eq_false_iff, decide_eq_false_iff_not, ge_iff_le, UInt32.le_iff_toNat_le]
    simp at h ⊢
    omega
  · decide

theorem scanWord_eq_ok {c : Char} {cs r : List Char} (hc : isWordStart c = true)
    (hcs : ∀ d ∈ cs, isWordPart d = true) (hr : startsWith isWordPart r = false) :
    scanWord (c :: (cs ++ r)) = .ok (some (.ofWord (String.ofList (c :: cs)), cs.length + 1)) := by
  have hrun : (cs ++ r).takeWhile isWordPart = cs := by
    rw [List.takeWhile_append_of_pos hcs]
    cases r with
    | nil => simp
    | cons d r => rw [List.takeWhile_cons_of_neg (by simpa [startsWith] using hr), List.append_nil]
  rw [scanWord, if_pos hc, hrun]
  rfl

theorem Operator.isWordStart_of_spelling (o : Operator) :
    ∀ c cs, o.spelling.toList = c :: cs → isWordStart c = false := by
  cases o <;> (rintro c cs h; cases h; decide)

/-- A word is recognised as a whole. -/
theorem scanLexeme_of_word {c : Char} {cs r : List Char} (hc : isWordStart c = true)
    (hcs : ∀ d ∈ cs, isWordPart d = true) (hr : startsWith isWordPart r = false) :
    scanLexeme c (cs ++ r) = .ok (.ofWord (String.ofList (c :: cs)), cs.length + 1) := by
  have hne {d : Char} (hd : isWordStart d = false) : c ≠ d := by
    rintro rfl
    rw [hc] at hd
    cases hd
  have hcomment : scanComment (c :: (cs ++ r)) = .ok none := by
    unfold scanComment
    split
    · rename_i heq
      exact absurd (List.cons.inj heq).1 (hne rfl)
    · rename_i heq
      exact absurd (List.cons.inj heq).1 (hne rfl)
    · rfl
  have hstring : scanString (c :: (cs ++ r)) = .ok none := by
    unfold scanString
    split
    · rename_i heq
      exact absurd (List.cons.inj heq).1 (hne rfl)
    · rfl
  have hdigit : c.isDigit = false := isDigit_of_isWordStart hc
  have hnumber : scanNumber (c :: (cs ++ r)) = .ok none := by
    refine scanNumber_eq_none.2 ⟨?_, hdigit, ?_⟩
    · have hsize : sizeLength (c :: (cs ++ r)) = 0 := by rw [sizeLength, if_neg (by simp [startsWith, hdigit])]
      unfold basedShape?
      rw [hsize, List.drop_zero]
      split
      · rename_i heq
        exact absurd (List.cons.inj heq).1 (hne rfl)
      · rfl
    · unfold startsFill
      split
      · rename_i heq
        exact absurd (List.cons.inj heq).1 (hne rfl)
      · rfl
  have hdirective : scanDirective (c :: (cs ++ r)) = .ok none := by
    unfold scanDirective
    split
    · rename_i heq
      exact absurd (List.cons.inj heq).1 (hne rfl)
    · rfl
  have hoperator : scanOperator (c :: (cs ++ r)) = .ok none := by
    have hnone : Operator.spellings.find? (fun e => e.1.isPrefixOf (c :: (cs ++ r))) = none := by
      rw [List.find?_eq_none]
      rintro e he hlead
      obtain ⟨o, -, rfl⟩ := List.mem_map.1 he
      rw [List.isPrefixOf_iff_prefix] at hlead
      cases hspelling : o.spelling.toList with
      | nil => exact o.spelling_ne_nil hspelling
      | cons d ds =>
        simp only [hspelling] at hlead
        exact hne (o.isWordStart_of_spelling d ds hspelling) (List.cons_prefix_cons.1 hlead).1.symm
    rw [scanOperator, Operator.leading?, hnone]
    rfl
  rw [scanLexeme_eq_ok, scanText, hcomment, hstring, hnumber, hdirective, hoperator]
  exact scanWord_eq_ok hc hcs hr
/-- Whether a text starts like an identifier and goes on like one. -/
def isWord (text : String) : Bool :=
  match text.toList with
  | [] => false
  | c :: cs => isWordStart c && cs.all isWordPart

theorem isWord_eq_true {text : String} (h : isWord text = true) : ∃ c cs, text.toList = c :: cs ∧
    isWordStart c = true ∧ ∀ d ∈ cs, isWordPart d = true := by
  unfold isWord at h
  split at h
  · cases h
  · rename_i c cs htext
    rw [Bool.and_eq_true, List.all_eq_true] at h
    exact ⟨c, cs, htext, h⟩

/-- The lexeme that a word is. -/
def Lexeme.ofWord (text : String) : Lexeme := ⟨.ofWord text, text⟩

theorem isBlank_of_isWordStart {c : Char} (h : isWordStart c = true) : isBlank c = false :=
  isBlank_eq_false (by decide) h

theorem Lexeme.scans_ofWord {text : String} (h : isWord text = true) : (ofWord text).Scans := by
  obtain ⟨c, cs, htext, hc, hcs⟩ := isWord_eq_true h
  refine ⟨c, cs, htext, isBlank_of_isWordStart hc, ?_⟩
  rw [scanLexeme_of_word hc hcs rfl, ← htext, String.ofList_toList]
  rfl

/-- Whether a text is a name: a word that is not reserved, or the suffix of a time literal. -/
def isNameText (text : String) : Bool := isWord text && (TokenKind.ofWord text).isName

theorem isWord_of_isNameText {name : String} (h : isNameText name = true) : isWord name = true :=
  (Bool.and_eq_true_iff.1 h).1

/-! ### Operators and reserved words -/

theorem Operator.scans (o : Operator) : (Lexeme.mk (.op o) o.spelling).Scans := by
  cases o <;> exact ⟨_, _, rfl, rfl, rfl⟩

/-- The reserved words that statements are written with. -/
def statementWords : List Keyword :=
  [.kwBegin, .kwEnd, .kwIf, .kwElse, .kwCase, .kwCasez, .kwCasex, .kwEndCase, .kwDefault, .kwFor,
    .kwGenvar, .kwLogic, .kwBit, .kwReg, .kwInt, .kwInteger, .kwByte, .kwShortint, .kwLongint, .kwTime,
    .kwReal, .kwShortreal, .kwRealtime, .kwString, .kwSigned, .kwUnsigned, .kwPosedge, .kwNegedge,
    .kwEdge, .kwOr, .kwInside, .kwSecond, .kwMilliSecond, .kwMicroSecond, .kwNanoSecond,
    .kwPicoSecond, .kwFemtoSecond]

theorem Keyword.isWord_spelling : ∀ k ∈ statementWords, isWord k.spelling = true ∧
    TokenKind.ofWord k.spelling = .word k := by
  decide +kernel

theorem Keyword.scans {k : Keyword} (h : isWord k.spelling = true ∧ TokenKind.ofWord k.spelling = .word k) :
    (Lexeme.mk (.word k) k.spelling).Scans := by
  obtain ⟨hword, hkind⟩ := h
  have hscans := Lexeme.scans_ofWord hword
  rwa [Lexeme.ofWord, hkind] at hscans

/-- A dollar sign is recognised in front of whatever it touches. -/
theorem leads_dollar (r : List Char) : (Lexeme.mk (.op .dollar) "$").Leads r := ⟨'$', [], rfl, rfl, rfl⟩

theorem leads_rParen (r : List Char) : (Lexeme.mk (.op .rParen) ")").Leads r := ⟨')', [], rfl, rfl, rfl⟩

/-! ### What the classes find -/

section Classes

variable {cs : List Char} {kind : TokenKind} {n : Nat}

theorem scanComment_kind (h : scanComment cs = .ok (some (kind, n))) : kind.isComment = true := by
  unfold scanComment at h
  split at h
  · cases h
    rfl
  · split at h <;> cases h
    rfl
  · cases h

theorem scanString_kind (h : scanString cs = .ok (some (kind, n))) : kind = .stringLiteral := by
  unfold scanString at h
  split at h
  · split at h <;> cases h
    rfl
  · cases h

theorem scanNumber_kind (h : scanNumber cs = .ok (some (kind, n))) : kind = .literal := by
  unfold scanNumber at h
  split at h
  · split at h <;> cases h
    rfl
  · split at h
    · split at h <;> cases h
      rfl
    · split at h
      · split at h <;> cases h
        rfl
      · cases h

theorem scanDirective_kind (h : scanDirective cs = .ok (some (kind, n))) : kind = .directive := by
  unfold scanDirective at h
  split at h
  · split at h <;> cases h
    rfl
  · cases h

theorem scanOperator_kind (h : scanOperator cs = .ok (some (kind, n))) : kind.isOperator = true := by
  obtain ⟨⟨o, m⟩, -, heq⟩ := Option.map_eq_some_iff.1 (Except.ok.inj h)
  obtain ⟨rfl, -⟩ := Prod.mk.inj heq
  rfl

/-- The kind of a word is that of its text. -/
theorem scanWord_kind (h : scanWord cs = .ok (some (kind, n))) :
    kind = .ofWord (String.ofList (cs.take n)) := by
  unfold scanWord at h
  split at h
  · cases h
  · rename_i c cs
    split at h
    · obtain ⟨hkind, hlen⟩ := Prod.mk.inj (Option.some.inj (Except.ok.inj h))
      have htake : (c :: cs).take n = c :: cs.takeWhile isWordPart := by
        rw [← hlen, List.length_cons, List.take_succ_cons,
          ← List.prefix_iff_eq_take.1 (List.takeWhile_prefix isWordPart)]
      rw [htake, hkind]
    · cases h

/-- What the classes find in a text one of them finds. -/
theorem scanText_eq_some {found : TokenKind × Nat} (h : scanText cs = .ok (some found)) :
    scanComment cs = .ok (some found) ∨ scanString cs = .ok (some found) ∨
      scanNumber cs = .ok (some found) ∨ scanDirective cs = .ok (some found) ∨
      scanOperator cs = .ok (some found) ∨ scanWord cs = .ok (some found) := by
  unfold scanText at h
  simp only [Recognition.orElse_eq_ok, Option.isSome_some, and_true] at h
  rcases h with h | ⟨-, h | ⟨-, h | ⟨-, h | ⟨-, h | ⟨-, h⟩⟩⟩⟩⟩ <;> simp only [h, true_or, or_true]

/-- A lexeme that is a reserved word has its spelling. -/
theorem scanText_word {k : Keyword} (h : scanText cs = .ok (some (.word k, n))) :
    String.ofList (cs.take n) = k.spelling := by
  rcases scanText_eq_some h with h | h | h | h | h | h
  · have hkind := scanComment_kind h
    cases hkind
  · have hkind := scanString_kind h
    cases hkind
  · have hkind := scanNumber_kind h
    cases hkind
  · have hkind := scanDirective_kind h
    cases hkind
  · have hkind := scanOperator_kind h
    cases hkind
  · have hkind := scanWord_kind h
    rw [TokenKind.ofWord, Keyword.ofWord?] at hkind
    split at hkind
    · rename_i k' hfind
      cases hkind
      have hspelling := List.find?_some hfind
      exact (beq_iff_eq.1 hspelling).symm
    · cases hkind

end Classes

/-! ### Literals -/

/-- The kind of token that a literal is. -/
def LiteralKind.tokenKind : LiteralKind → TokenKind
  | string => .stringLiteral
  | based | unbased | integer | real => .literal

/-- A text that is recognised as a literal of a kind. -/
structure IsLiteral (kind : LiteralKind) (text : String) : Prop where
  scans : (Lexeme.mk kind.tokenKind text).Scans
  shape : kind ≠ .string → .ofNumber text.toList = kind

/-- Only the class of numbers finds number literals. -/
theorem scanNumber_of_scanText {cs : List Char} {n : Nat} (h : scanText cs = .ok (some (.literal, n))) :
    scanNumber cs = .ok (some (.literal, n)) := by
  rcases scanText_eq_some h with h | h | h | h | h | h
  · have hkind := scanComment_kind h
    cases hkind
  · have hkind := scanString_kind h
    cases hkind
  · exact h
  · have hkind := scanDirective_kind h
    cases hkind
  · have hkind := scanOperator_kind h
    cases hkind
  · have hkind := scanWord_kind h
    rw [TokenKind.ofWord] at hkind
    split at hkind <;> cases hkind

theorem forall_of_runLength {p : Char → Bool} {cs : List Char} (h : runLength p cs = cs.length) :
    ∀ c ∈ cs, p c = true := by
  have hall : cs.takeWhile p = cs := (List.takeWhile_prefix p).eq_of_length h
  have htrue : (cs.takeWhile p).all p = true := List.all_takeWhile
  rw [hall] at htrue
  exact List.all_eq_true.1 htrue

theorem LiteralKind.ofNumber_eq_integer {text : List Char} (h : ofNumber text = integer) :
    '\'' ∉ text ∧ ∀ c ∈ text, c ≠ '.' ∧ c ≠ 'e' ∧ c ≠ 'E' := by
  unfold ofNumber at h
  split at h
  · cases h
  · split at h
    · cases h
    · rename_i hbase
      split at h
      · cases h
      · rename_i hreal
        refine ⟨by simpa using hbase, fun c hc => ?_⟩
        have hany : ¬(c == '.' || c == 'e' || c == 'E') = true := fun h =>
          hreal (List.any_eq_true.2 ⟨c, hc, h⟩)
        simpa [not_or, and_assoc] using hany

theorem startsWith_eq_false {p : Char → Bool} {cs : List Char} (h : ∀ c ∈ cs, p c = false) :
    startsWith p cs = false := by
  cases cs with
  | nil => rfl
  | cons c cs => exact h c (by simp)

/-- The characters of a plain integer are digits and separators. -/
theorem IsLiteral.digits {text : String} (h : IsLiteral .integer text) :
    ∃ c cs, text.toList = c :: cs ∧ c.isDigit = true ∧ ∀ d ∈ c :: cs, isDigitPart d = true := by
  obtain ⟨⟨c, cs, htext, -, hscan⟩, hshape⟩ := h
  have hshape := hshape (by decide)
  rw [List.append_nil, scanLexeme_eq_ok] at hscan
  have hnumber := scanNumber_of_scanText hscan
  rw [htext] at hshape
  obtain ⟨hapostrophe, hreal⟩ := LiteralKind.ofNumber_eq_integer hshape
  refine ⟨c, cs, htext, ?_⟩
  unfold scanNumber at hnumber
  split at hnumber
  · rename_i shape hbased
    obtain ⟨rest, hdrop, -⟩ := basedShape?_eq_some.1 hbased
    have hmem : '\'' ∈ (c :: cs).drop (sizeLength (c :: cs)) := by simp [hdrop]
    exact absurd (List.mem_of_mem_drop hmem) hapostrophe
  · split at hnumber
    · rename_i hdigit
      refine ⟨hdigit, ?_⟩
      split at hnumber
      · cases hnumber
      · have hlen : decimalLength (c :: cs) = cs.length + 1 := by
          simpa using hnumber
        have hfraction (k : Nat) : fractionLength ((c :: cs).drop k) = 0 :=
          fractionLength_of_startsWith (startsWith_eq_false fun d hd => by
            simpa using (hreal d (List.mem_of_mem_drop hd)).1)
        have hexponent (k : Nat) : exponentLength ((c :: cs).drop k) = 0 :=
          exponentLength_of_startsWith (startsWith_eq_false fun d hd => by
            simpa using (hreal d (List.mem_of_mem_drop hd)).2)
        unfold decimalLength at hlen
        simp only [hfraction, hexponent, Nat.add_zero] at hlen
        exact forall_of_runLength hlen
    · split at hnumber
      · rename_i hfill
        unfold startsFill at hfill
        split at hfill
        · rename_i heq
          exact absurd (by simp [heq]) hapostrophe
        · cases hfill
      · cases hnumber

/-- A plain integer is recognised in front of a word that does not look like an exponent. -/
theorem IsLiteral.leads {text : String} (h : IsLiteral .integer text) {c : Char} {r : List Char}
    (hc : isWordStart c = true) (he : c ≠ 'e' ∧ c ≠ 'E' ∧ c ≠ '_') :
    (Lexeme.mk .literal text).Leads (c :: r) := by
  obtain ⟨d, ds, htext, hd, hds⟩ := h.digits
  have hpart : isDigitPart c = false := by
    simp [isDigitPart, isDigit_of_isWordStart hc, he.2.2]
  have hne {b : Char} (hb : isWordStart b = false) : c ≠ b := by
    rintro rfl
    rw [hc] at hb
    cases hb
  have hrun : runLength isDigitPart (d :: ds ++ c :: r) = (d :: ds).length := by
    rw [runLength, List.takeWhile_append_of_pos hds, List.takeWhile_cons_of_neg (by simp [hpart]),
      List.append_nil]
  have hdrop : (d :: ds ++ c :: r).drop (d :: ds).length = c :: r := List.drop_left
  have hdigit : startsWith Char.isDigit (d :: ds ++ c :: r) = true := hd
  have hsize : sizeLength (d :: ds ++ c :: r) = (d :: ds).length := by
    rw [sizeLength, if_pos hdigit, hrun]
  have hbased : basedShape? (d :: ds ++ c :: r) = none := by
    unfold basedShape?
    rw [hsize, hdrop]
    split
    · rename_i heq
      exact absurd (List.cons.inj heq).1 (hne rfl)
    · rfl
  have hlength : decimalLength (d :: ds ++ c :: r) = (d :: ds).length := by
    have hfraction : fractionLength (c :: r) = 0 :=
      fractionLength_of_startsWith (by simpa [startsWith] using hne rfl)
    have hexponent : exponentLength (c :: r) = 0 :=
      exponentLength_of_startsWith (by simpa [startsWith] using And.intro he.1 he.2.1)
    unfold decimalLength
    simp only [hrun, hdrop, hfraction, hexponent, Nat.add_zero]
  have hnumber : scanNumber (d :: ds ++ c :: r) = .ok (some (.literal, (d :: ds).length)) := by
    have hquote : startsWith (· == '\'') (c :: r) = false := by simpa [startsWith] using hne rfl
    rw [scanNumber, hbased]
    simp only [if_pos hdigit, hrun, hdrop, hquote, hlength, Bool.false_eq_true, if_false]
  have hneDigit {b : Char} (hb : b.isDigit = false) : d ≠ b := by
    rintro rfl
    rw [hd] at hb
    cases hb
  have hcomment : scanComment (d :: ds ++ c :: r) = .ok none := by
    unfold scanComment
    split
    · rename_i heq
      exact absurd (List.cons.inj heq).1 (hneDigit rfl)
    · rename_i heq
      exact absurd (List.cons.inj heq).1 (hneDigit rfl)
    · rfl
  have hstring : scanString (d :: ds ++ c :: r) = .ok none := by
    unfold scanString
    split
    · rename_i heq
      exact absurd (List.cons.inj heq).1 (hneDigit rfl)
    · rfl
  refine ⟨d, ds, htext, isBlank_eq_false (by decide) hd, ?_⟩
  rw [scanLexeme_eq_ok]
  show scanText (d :: ds ++ c :: r) = _
  rw [scanText, hcomment, hstring, hnumber]
  rfl

/-! ### Marks of lexemes -/

namespace Mark

/-- An operator or a reserved word behind a space. -/
def fixed (kind : TokenKind) : Mark := ⟨⟨kind, kind.fixedText?.getD ""⟩, false⟩

/-- A word behind a space. -/
def word (text : String) : Mark := ⟨.ofWord text, false⟩

/-- The same mark without the space. -/
def join (m : Mark) : Mark := { m with joined := true }

end Mark

/-- Marks that may stand before and behind others: together with what follows they are cut into their
lexemes again, none of which is a comment. -/
structure Lexable (ms : List Mark) : Prop where
  stands : ∀ ns, Lexes ns → Unjoined ns → Lexes (ms ++ ns) ∧ Unjoined (ms ++ ns)
  uncommented : ∀ m ∈ ms, m.kind.isComment = false

namespace Lexable

variable {m : Mark} {ms ns : List Mark}

theorem lexes (h : Lexable ms) : Lexes ms := by
  have hlexes := (h.stands [] trivial .nil).1
  rwa [List.append_nil] at hlexes

theorem unjoined (h : Lexable ms) : Unjoined ms := by
  have hunjoined := (h.stands [] trivial .nil).2
  rwa [List.append_nil] at hunjoined

theorem nil : Lexable [] := ⟨fun _ hns hu => ⟨hns, hu⟩, by simp⟩

theorem append (h : Lexable ms) (h' : Lexable ns) : Lexable (ms ++ ns) := by
  refine ⟨fun rest hrest hu => ?_, List.forall_mem_append.2 ⟨h.uncommented, h'.uncommented⟩⟩
  rw [List.append_assoc]
  obtain ⟨hlexes, hunjoined⟩ := h'.stands rest hrest hu
  exact h.stands _ hlexes hunjoined

theorem cons (h : Lexable [m]) (h' : Lexable ms) : Lexable (m :: ms) := h.append h'

theorem of_scans (hm : m.Scans) (hj : m.joined = false) (hk : m.kind.isComment = false) :
    Lexable [m] := by
  refine ⟨fun ns hns hu => ⟨hns.cons hm ?_ hu, .of_cons hj⟩, List.forall_mem_singleton.2 hk⟩
  intro hline
  rw [hline] at hk
  cases hk

theorem op (o : Operator) : Lexable [.fixed (.op o)] := .of_scans o.scans rfl rfl

theorem word {text : String} (ht : isWord text = true) : Lexable [.word text] := by
  refine .of_scans (Lexeme.scans_ofWord ht) rfl ?_
  show (TokenKind.ofWord text).isComment = false
  unfold TokenKind.ofWord
  split <;> rfl

/-- A lexeme that leads a word, and the word touching it. -/
theorem touched {text : String} (hm : ∀ r, m.Leads (text.toList ++ r)) (hj : m.joined = false)
    (hk : m.kind.isComment = false) (ht : isWord text = true) :
    Lexable [m, (Mark.word text).join] := by
  have hword := word ht
  have hplain : (Mark.word text).join.kind.isComment = false :=
    hword.uncommented (.word text) List.mem_cons_self
  refine ⟨fun ns hns hu => ?_, List.forall_mem_cons.2 ⟨hk, List.forall_mem_singleton.2 hplain⟩⟩
  exact ⟨⟨hm _, (hword.stands ns hns hu).1⟩, .of_cons hj⟩

theorem reserved {k : Keyword} (hk : isWord k.spelling = true ∧ TokenKind.ofWord k.spelling = .word k) :
    Lexable [.fixed (.word k)] := .of_scans (Keyword.scans hk) rfl rfl

theorem keyword {k : Keyword} (hk : k ∈ statementWords) : Lexable [.fixed (.word k)] :=
  .reserved (Keyword.isWord_spelling k hk)

theorem literal {kind : LiteralKind} {text : String} (ht : IsLiteral kind text) :
    Lexable [⟨⟨kind.tokenKind, text⟩, false⟩] :=
  .of_scans ht.scans rfl (by cases kind <;> rfl)

end Lexable

namespace Realizes

variable {before : Option Token} {ms : List Mark} {ts : List Token}

theorem fixed {kind : TokenKind} (h : Realizes before (.fixed kind :: ms) ts) :
    ∃ t us, ts = t :: us ∧ t.kind = kind ∧ Realizes (some t) ms us := by
  obtain ⟨t, us, hts, hkind, -, hus⟩ := h.of_cons
  exact ⟨t, us, hts, hkind, hus⟩

/-- Nothing follows the last mark. -/
theorem last {kind : TokenKind} (h : Realizes before [.fixed kind] ts) :
    ∃ t, ts = [t] ∧ t.kind = kind := by
  obtain ⟨t, us, rfl, hkind, hus⟩ := h.fixed
  obtain rfl : us = [] := hus
  exact ⟨t, rfl, hkind⟩

theorem name {text : String} (h : Realizes before (.word text :: ms) ts)
    (ht : isNameText text = true) :
    ∃ t us, ts = t :: us ∧ t.kind.isName = true ∧ t.text = text ∧ Realizes (some t) ms us := by
  obtain ⟨t, us, hts, hkind, htext, hus⟩ := h.of_cons
  have hname : (TokenKind.ofWord text).isName = true := (Bool.and_eq_true_iff.1 ht).2
  exact ⟨t, us, hts, by rw [hkind]; exact hname, htext, hus⟩

end Realizes

end SystemVerilog
