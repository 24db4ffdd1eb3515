import SystemVerilog.Proofs.Expression.Complete
import SystemVerilog.Proofs.Lexing.Reprinting
import SystemVerilog.Proofs.Lexing.Spelled
import SystemVerilog.Proofs.Literal.Values

/-!
# Integer literals as they are written

An integer literal is a digit string, plain or behind a base: perhaps a decimal size, an apostrophe, perhaps a
mark that it is signed, and the letter of a radix. Whatever follows that cannot go on with it, the literal is
recognised as a whole, and its value is that of the digits by their positions. The other way round, every lexeme
that is an integer literal is written so, with digits of which some may be unknown.
-/

namespace SystemVerilog

open SystemVerilog.Parser

/-! ### Forms -/

/-- What stands before the digits of an integer literal. -/
inductive NumeralHead where
  | plain
  | based (size sign : List Char) (letter : Char)

namespace NumeralHead

def chars : NumeralHead → List Char
  | plain => []
  | based size sign letter => size ++ '\'' :: (sign ++ [letter])

/-- The kind of the literal. -/
def kind : NumeralHead → LiteralKind
  | plain => .integer
  | based _ _ _ => .based

end NumeralHead

/-- The size before an apostrophe: none, or digits and separators behind a first digit. -/
def IsSize (size : List Char) : Prop :=
  size = [] ∨ startsWith Char.isDigit size = true ∧ ∀ c ∈ size, isDigitPart c = true

/-- The mark of signed literals, or none. -/
def IsSign (sign : List Char) : Prop := sign = [] ∨ ∃ mark, sign = [mark] ∧ isSignMark mark = true

/-- The head announces digits of a radix. -/
def NumeralHead.Announces (radix : Radix) : NumeralHead → Prop
  | plain => radix = .decimal
  | based size sign letter => IsSize size ∧ IsSign sign ∧ Radix.ofLetter? letter = some radix

/-- Digits of a radix, with separators anywhere behind the first one. -/
def Radix.IsNumeral (radix : Radix) (digits : List Char) : Prop :=
  startsWith radix.isDigit digits = true ∧ ∀ c ∈ digits, radix.isDigit c = true ∨ c = '_'

/-- Whether a character goes on with a literal that it stands behind. -/
def goesOn (c : Char) : Bool := isWordPart c || c == '?' || c == '\'' || c == '.'

/-! ### Characters of literals -/

section Characters

variable {radix : Radix} {c letter : Char} {cs digits rest : List Char} {p q : Char → Bool} {n : Nat}

theorem takeWhile_append_of_stop (h : ∀ c ∈ digits, p c = true) (hrest : startsWith p rest = false) :
    (digits ++ rest).takeWhile p = digits := by
  rw [List.takeWhile_append_of_pos h]
  cases rest with
  | nil => rw [List.takeWhile_nil, List.append_nil]
  | cons c rest =>
    have hc : ¬p c = true := Bool.eq_false_iff.1 hrest
    rw [List.takeWhile_cons_of_neg hc, List.append_nil]

theorem take_runLength (p : Char → Bool) (cs : List Char) : cs.take (runLength p cs) = cs.takeWhile p :=
  (List.prefix_iff_eq_take.1 (List.takeWhile_prefix p)).symm

theorem startsWith_eq_false_of_imp (h : ∀ c, p c = true → q c = true) (hq : startsWith q rest = false) :
    startsWith p rest = false := by
  cases rest with
  | nil => rfl
  | cons c rest => exact Bool.eq_false_iff.2 fun hc => Bool.eq_false_iff.1 hq (h c hc)

theorem startsWith_append (h : startsWith p digits = true) : startsWith p (digits ++ rest) = true := by
  obtain ⟨c, cs, rfl, hc⟩ := startsWith_eq_true h
  exact hc

theorem isDigit_iff : c.isDigit = true ↔ '0' ≤ c ∧ c ≤ '9' := by
  simp only [Char.isDigit, Bool.and_eq_true, decide_eq_true_eq, ge_iff_le, Char.le_def]

/-- The digits of the decimal radix are the decimal digits. -/
theorem Radix.isDigit_decimal (c : Char) : Radix.decimal.isDigit c = c.isDigit := by
  rw [Bool.eq_iff_iff, isDigit_iff, Radix.isDigit, Radix.digit?, digitValue?]
  by_cases hdigit : '0' ≤ c ∧ c ≤ '9'
  · have hle : c.toNat ≤ 57 := UInt32.le_iff_toNat_le.1 (Char.le_def.1 hdigit.2)
    have hlt : c.toNat - '0'.toNat < Radix.decimal.base := show c.toNat - 48 < 10 by omega
    rw [if_pos hdigit, Option.filter_some, if_pos (decide_eq_true hlt)]
    exact iff_of_true rfl hdigit
  · rw [if_neg hdigit]
    refine iff_of_false ?_ hdigit
    split
    · simp [Radix.base]
    · split <;> simp [Radix.base]

theorem isAlphanum_of_digitValue? (h : digitValue? c = some n) : c.isAlphanum = true := by
  unfold digitValue? at h
  simp only [Char.le_def, UInt32.le_iff_toNat_le] at h
  delta Char.isAlphanum Char.isAlpha Char.isUpper Char.isLower Char.isDigit
  simp only [Bool.or_eq_true, Bool.and_eq_true, decide_eq_true_eq, ge_iff_le, UInt32.le_iff_toNat_le]
  simp at h ⊢
  split at h
  · omega
  · split at h
    · omega
    · split at h
      · omega
      · cases h

theorem Radix.digitValue?_of_isDigit (h : radix.isDigit c = true) : ∃ n, digitValue? c = some n := by
  obtain ⟨n, hn⟩ := Option.isSome_iff_exists.1 h
  exact ⟨n, (Option.filter_eq_some_iff.1 hn).1⟩

theorem Radix.isBasedDigit_of_isDigit (h : radix.isDigit c = true) : isBasedDigit c = true := by
  obtain ⟨n, hn⟩ := Radix.digitValue?_of_isDigit h
  rw [isBasedDigit, hn]
  rfl

/-- Digits that may be unknown are no digits of any radix. -/
theorem Radix.isDigit_of_isUnknownDigit (h : isUnknownDigit c = true) : radix.isDigit c = false := by
  simp only [isUnknownDigit, Bool.or_eq_true, beq_iff_eq, or_assoc] at h
  rcases h with rfl | rfl | rfl | rfl | rfl <;> rfl

theorem isWordPart_of_isDigitPart (h : isDigitPart c = true) : isWordPart c = true := by
  rcases Bool.or_eq_true_iff.1 h with h | h
  · simp [isWordPart, Char.isAlphanum, h]
  · simp [isWordPart, h]

theorem goesOn_of_isWordPart (h : isWordPart c = true) : goesOn c = true := by simp [goesOn, h]

theorem goesOn_of_isBasedDigit (h : isBasedDigit c = true) : goesOn c = true := by
  simp only [isBasedDigit, Bool.or_eq_true] at h
  rcases h with (h | h) | h
  · obtain ⟨n, hn⟩ := Option.isSome_iff_exists.1 h
    simp [goesOn, isWordPart, isAlphanum_of_digitValue? hn]
  · simp only [isUnknownDigit, Bool.or_eq_true, beq_iff_eq, or_assoc] at h
    rcases h with rfl | rfl | rfl | rfl | rfl <;> decide
  · simp [goesOn, isWordPart, h]

theorem isSignMark_of_ofLetter? (h : Radix.ofLetter? letter = some radix) : isSignMark letter = false := by
  unfold Radix.ofLetter? at h
  split at h
  all_goals first | rfl | cases h

theorem IsSize.notMem_apostrophe {size : List Char} (h : IsSize size) : '\'' ∉ size := by
  rcases h with rfl | ⟨-, h⟩
  · exact List.not_mem_nil
  · intro hmem
    exact absurd (h _ hmem) (by decide)

end Characters

/-! ### The shape behind a base -/

section Shapes

variable {head : NumeralHead} {radix : Radix} {letter : Char} {cs size digits rest : List Char} {shape : BasedShape}

theorem sizeLength_append (h : IsSize size) : sizeLength (size ++ '\'' :: rest) = size.length := by
  rcases h with rfl | ⟨hdigit, hpart⟩
  · rfl
  · have hrun : (size ++ '\'' :: rest).takeWhile isDigitPart = size := takeWhile_append_of_stop hpart rfl
    rw [sizeLength, if_pos (startsWith_append hdigit), runLength, hrun]

theorem basedTail?_append (hletter : Radix.ofLetter? letter = some radix) (hne : digits ≠ [])
    (hdigits : ∀ c ∈ digits, isBasedDigit c = true) (hrest : startsWith isBasedDigit rest = false) (before : Nat) :
    basedTail? before (letter :: (digits ++ rest)) = some ⟨before + 1 + digits.length, radix, digits⟩ := by
  obtain ⟨d, ds, rfl⟩ := List.exists_cons_of_ne_nil hne
  rw [basedTail?, hletter, takeWhile_append_of_stop hdigits hrest]
  rfl

/-- A base with digits behind it is found as it is written. -/
theorem basedShape?_append (hkind : head.kind = .based) (h : head.Announces radix) (hne : digits ≠ [])
    (hdigits : ∀ c ∈ digits, isBasedDigit c = true) (hrest : startsWith isBasedDigit rest = false) :
    basedShape? (head.chars ++ digits ++ rest) = some ⟨(head.chars ++ digits).length, radix, digits⟩ := by
  cases head with
  | plain => cases hkind
  | based size sign letter =>
    obtain ⟨hsize, hsign, hletter⟩ := h
    have htext : (NumeralHead.based size sign letter).chars ++ digits ++ rest =
        size ++ '\'' :: (sign ++ letter :: (digits ++ rest)) := by simp [NumeralHead.chars]
    have hlength : ((NumeralHead.based size sign letter).chars ++ digits).length =
        size.length + 1 + sign.length + 1 + digits.length := by
      simp [NumeralHead.chars]
      omega
    rw [htext, hlength]
    refine basedShape?_eq_some.2 ⟨sign ++ letter :: (digits ++ rest), ?_, ?_⟩
    · rw [sizeLength_append hsize, List.drop_left]
    · rw [sizeLength_append hsize]
      rcases hsign with rfl | ⟨mark, rfl, hmark⟩
      · exact .inr ⟨isSignMark_of_ofLetter? hletter, basedTail?_append hletter hne hdigits hrest _⟩
      · exact .inl ⟨hmark, basedTail?_append hletter hne hdigits hrest _⟩

theorem basedTail?_inv {before : Nat} (h : basedTail? before cs = some shape) : ∃ letter rest,
    cs = letter :: (shape.digits ++ rest) ∧ Radix.ofLetter? letter = some shape.radix ∧ shape.digits ≠ [] ∧
      (∀ c ∈ shape.digits, isBasedDigit c = true) ∧ shape.length = before + 1 + shape.digits.length := by
  unfold basedTail? at h
  split at h
  · cases h
  · rename_i letter cs
    split at h
    · rename_i radix d ds hletter hrun
      obtain rfl := Option.some.inj h
      refine ⟨letter, cs.dropWhile isBasedDigit, ?_, hletter, List.cons_ne_nil _ _, fun c hc => ?_, rfl⟩
      · rw [← hrun, List.takeWhile_append_dropWhile]
      · rw [← hrun] at hc
        exact List.all_eq_true.1 List.all_takeWhile c hc
    · cases h

/-- What is found is a base with digits behind it. -/
theorem basedShape?_inv (h : basedShape? cs = some shape) : ∃ head rest, NumeralHead.kind head = .based ∧
    head.Announces shape.radix ∧ cs = head.chars ++ shape.digits ++ rest ∧
    shape.length = (head.chars ++ shape.digits).length ∧ shape.digits ≠ [] ∧
    ∀ c ∈ shape.digits, isBasedDigit c = true := by
  obtain ⟨tail, hdrop, htail⟩ := basedShape?_eq_some.1 h
  have hsplit : cs = cs.take (sizeLength cs) ++ '\'' :: tail := by rw [← hdrop, List.take_append_drop]
  have hlength : (cs.take (sizeLength cs)).length = sizeLength cs :=
    List.length_take_of_le (sizeLength_le cs)
  have hsize : IsSize (cs.take (sizeLength cs)) := by
    by_cases hdigit : startsWith Char.isDigit cs = true
    · right
      rw [sizeLength, if_pos hdigit, take_runLength]
      obtain ⟨c, cs, rfl, hc⟩ := startsWith_eq_true hdigit
      refine ⟨?_, fun c hc => List.all_eq_true.1 List.all_takeWhile c hc⟩
      rw [List.takeWhile_cons_of_pos (isDigitPart_of_isDigit hc)]
      exact hc
    · left
      rw [sizeLength, if_neg hdigit, List.take_zero]
  rcases htail with ⟨hmark, htail⟩ | ⟨-, htail⟩
  · obtain ⟨mark, tail, rfl, hmark⟩ := startsWith_eq_true hmark
    obtain ⟨letter, rest, hrest, hletter, hne, hdigits, hlen⟩ := basedTail?_inv htail
    refine ⟨.based (cs.take (sizeLength cs)) [mark] letter, rest, rfl, ⟨hsize, .inr ⟨mark, rfl, hmark⟩, hletter⟩,
      ?_, ?_, hne, hdigits⟩
    · rw [List.drop_one, List.tail_cons] at hrest
      rw [hrest] at hsplit
      simpa [NumeralHead.chars] using hsplit
    · simp [NumeralHead.chars, hlen, hlength]
      omega
  · obtain ⟨letter, rest, hrest, hletter, hne, hdigits, hlen⟩ := basedTail?_inv htail
    refine ⟨.based (cs.take (sizeLength cs)) [] letter, rest, rfl, ⟨hsize, .inl rfl, hletter⟩, ?_, ?_, hne, hdigits⟩
    · rw [hrest] at hsplit
      simpa [NumeralHead.chars] using hsplit
    · simp [NumeralHead.chars, hlen, hlength]
      omega

end Shapes

/-! ### Recognition -/

section Recognition

variable {head : NumeralHead} {radix : Radix} {c : Char} {cs digits rest : List Char} {n : Nat}

theorem Radix.IsNumeral.ne_nil (h : radix.IsNumeral digits) : digits ≠ [] := by
  obtain ⟨c, cs, rfl, -⟩ := startsWith_eq_true h.1
  exact List.cons_ne_nil c cs

theorem Radix.IsNumeral.isDigitPart (h : Radix.decimal.IsNumeral digits) : ∀ c ∈ digits, isDigitPart c = true := by
  intro c hc
  rcases h.2 c hc with h | rfl
  · rw [Radix.isDigit_decimal] at h
    exact isDigitPart_of_isDigit h
  · rfl

theorem scanNumber_of_based (hkind : head.kind = .based) (h : head.Announces radix) (hdigits : radix.IsNumeral digits)
    (hrest : startsWith goesOn rest = false) :
    scanNumber (head.chars ++ digits ++ rest) = .ok (some (.literal, (head.chars ++ digits).length)) := by
  have hbased : ∀ c ∈ digits, isBasedDigit c = true := by
    intro c hc
    rcases hdigits.2 c hc with h | rfl
    · exact Radix.isBasedDigit_of_isDigit h
    · rfl
  have hshape := basedShape?_append hkind h hdigits.ne_nil hbased
    (startsWith_eq_false_of_imp (fun _ => goesOn_of_isBasedDigit) hrest)
  have hword := startsWith_eq_false_of_imp (fun _ => goesOn_of_isWordPart) hrest
  have hvalid : BasedShape.valid ⟨(head.chars ++ digits).length, radix, digits⟩ = true := by
    refine List.all_eq_true.2 fun c hc => ?_
    rcases hdigits.2 c hc with h | rfl
    · rw [Radix.isDigit] at h
      simp [h]
    · simp
  rw [scanNumber, hshape]
  dsimp only
  rw [List.drop_left, hword, hvalid]
  rfl

theorem scanNumber_of_plain (hdigits : Radix.decimal.IsNumeral digits) (hrest : startsWith goesOn rest = false) :
    scanNumber (digits ++ rest) = .ok (some (.literal, digits.length)) := by
  have hparts := hdigits.isDigitPart
  have hdigit : startsWith Char.isDigit digits = true := by
    obtain ⟨c, cs, rfl, hc⟩ := startsWith_eq_true hdigits.1
    exact (Radix.isDigit_decimal c).symm.trans hc
  have hword := startsWith_eq_false_of_imp (fun _ => goesOn_of_isWordPart) hrest
  have hrun : runLength isDigitPart (digits ++ rest) = digits.length := by
    have hstop := startsWith_eq_false_of_imp (fun _ => isWordPart_of_isDigitPart) hword
    rw [runLength, takeWhile_append_of_stop hparts hstop]
  have hapostrophe : startsWith (· == '\'') rest = false :=
    startsWith_eq_false_of_imp (fun c hc => by simp [goesOn, hc]) hrest
  have hpoint : startsWith (· == '.') rest = false :=
    startsWith_eq_false_of_imp (fun c hc => by simp [goesOn, hc]) hrest
  have hexponent : startsWith (fun c => c == 'e' || c == 'E') rest = false := by
    refine startsWith_eq_false_of_imp (fun c hc => ?_) hword
    rcases Bool.or_eq_true_iff.1 hc with h | h <;> rw [beq_iff_eq.1 h] <;> rfl
  have hsize : sizeLength (digits ++ rest) = digits.length := by
    rw [sizeLength, if_pos (startsWith_append hdigit), hrun]
  have hshape : basedShape? (digits ++ rest) = none := by
    unfold basedShape?
    rw [hsize, List.drop_left]
    split
    · cases hapostrophe
    · rfl
  have hlength : decimalLength (digits ++ rest) = digits.length := by
    unfold decimalLength
    simp only [hrun, List.drop_left, fractionLength_of_startsWith hpoint, exponentLength_of_startsWith hexponent,
      Nat.add_zero]
  rw [scanNumber, hshape]
  dsimp only
  rw [if_pos (startsWith_append hdigit), hrun, List.drop_left, hapostrophe, hlength]
  rfl

/-- What the class of numbers finds behind a digit or an apostrophe is found. -/
theorem scanLexeme_of_scanNumber (hc : c ≠ '/' ∧ c ≠ '"') (h : scanNumber (c :: cs) = .ok (some (.literal, n))) :
    scanLexeme c cs = .ok (.literal, n) := by
  have hcomment : scanComment (c :: cs) = .ok none := by
    unfold scanComment
    split
    · rename_i heq
      exact absurd (List.cons.inj heq).1 hc.1
    · rename_i heq
      exact absurd (List.cons.inj heq).1 hc.1
    · rfl
  have hstring : scanString (c :: cs) = .ok none := by
    unfold scanString
    split
    · rename_i heq
      exact absurd (List.cons.inj heq).1 hc.2
    · rfl
  rw [scanLexeme_eq_ok, scanText, hcomment, hstring, h]
  rfl

theorem NumeralHead.Announces.startsWith (h : head.Announces radix) (hdigits : radix.IsNumeral digits) :
    startsWith (fun c => c.isDigit || c == '\'') (head.chars ++ digits ++ rest) = true := by
  cases head with
  | plain =>
    obtain rfl : radix = .decimal := h
    obtain ⟨c, cs, rfl, hc⟩ := startsWith_eq_true hdigits.1
    rw [Radix.isDigit_decimal] at hc
    exact Bool.or_eq_true_iff.2 (.inl hc)
  | based size sign letter =>
    rcases h.1 with rfl | ⟨hsize, -⟩
    · rfl
    · obtain ⟨c, cs, rfl, hc⟩ := startsWith_eq_true hsize
      exact Bool.or_eq_true_iff.2 (.inl hc)

/-- An integer literal is recognised as a whole in front of what cannot go on with it. -/
theorem scanLexeme_of_written (h : head.Announces radix) (hdigits : radix.IsNumeral digits)
    (hrest : startsWith goesOn rest = false) (htext : head.chars ++ digits ++ rest = c :: cs) :
    scanLexeme c cs = .ok (.literal, (head.chars ++ digits).length) := by
  have hfirst : (c.isDigit || c == '\'') = true := by
    have hstarts : startsWith (fun c => c.isDigit || c == '\'') (head.chars ++ digits ++ rest) = true :=
      h.startsWith hdigits
    rwa [htext] at hstarts
  refine scanLexeme_of_scanNumber ⟨?_, ?_⟩ ?_
  · rintro rfl
    cases hfirst
  · rintro rfl
    cases hfirst
  · rw [← htext]
    cases hkind : head with
    | plain =>
      subst hkind
      obtain rfl : radix = .decimal := h
      exact scanNumber_of_plain hdigits hrest
    | based size sign letter =>
      subst hkind
      exact scanNumber_of_based rfl h hdigits hrest

/-- The kind of an integer literal is that of its head. -/
theorem ofNumber_of_written (h : head.Announces radix) (hdigits : radix.IsNumeral digits) :
    LiteralKind.ofNumber (head.chars ++ digits) = head.kind := by
  cases head with
  | plain =>
    obtain rfl : radix = .decimal := h
    have hparts := hdigits.isDigitPart
    have hnone {c : Char} (hc : isDigitPart c = false) : c ∉ digits := fun hmem =>
      Bool.eq_false_iff.1 hc (hparts c hmem)
    have hreal : digits.any (fun c => c == '.' || c == 'e' || c == 'E') = false := by
      refine List.any_eq_false.2 fun c hc hreal => ?_
      simp only [Bool.or_eq_true, beq_iff_eq, or_assoc] at hreal
      rcases hreal with rfl | rfl | rfl <;> exact hnone (by decide) hc
    have happ : digits.contains '\'' = false :=
      Bool.eq_false_iff.2 fun hmem => hnone (by decide) (List.contains_iff_mem.1 hmem)
    show LiteralKind.ofNumber digits = _
    unfold LiteralKind.ofNumber
    split
    · exact absurd (List.mem_cons_self ..) (hnone (c := '\'') (by decide))
    · rw [happ, hreal]
      rfl
  | based size sign letter =>
    have hne := hdigits.ne_nil
    unfold LiteralKind.ofNumber
    split
    · rename_i heq
      have hlength := congrArg List.length heq
      have hpos := List.length_pos_iff.2 hne
      simp [NumeralHead.chars] at hlength
      omega
    · rw [if_pos (List.contains_iff_mem.2 (by simp [NumeralHead.chars]))]
      rfl

end Recognition

end SystemVerilog
