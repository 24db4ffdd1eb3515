import SystemVerilog.Proofs.Literal.Written

/-!
# What integer literals denote

An integer literal denotes the value of its digits, if this stays below the bound on values, and no number
otherwise. A lexeme that is an integer literal denotes no number in three cases: some digit is unknown, there
are only separators, or the value of the digits reaches the bound.
-/

namespace SystemVerilog

open SystemVerilog.Parser

/-! ### Values -/

section Values

variable {head : NumeralHead} {radix : Radix} {digits : List Char} {n : Nat}

/-- The digits of a literal are what is written behind its head, without separators. -/
theorem integerDigits?_written (h : head.Announces radix) :
    integerDigits? head.kind (head.chars ++ digits) = some (radix, digits.filter (· != '_')) := by
  cases head with
  | plain =>
    obtain rfl : radix = .decimal := h
    rfl
  | based size sign letter =>
    obtain ⟨hsize, hsign, hletter⟩ := h
    have htext : (NumeralHead.based size sign letter).chars ++ digits = size ++ '\'' :: (sign ++ letter :: digits) := by
      simp [NumeralHead.chars]
    have hapostrophe : (size ++ '\'' :: (sign ++ letter :: digits)).dropWhile (· != '\'') =
        '\'' :: (sign ++ letter :: digits) := by
      have hne : ∀ c ∈ size, (c != '\'') = true := fun c hc =>
        bne_iff_ne.2 (ne_of_mem_of_not_mem hc hsize.notMem_apostrophe)
      rw [List.dropWhile_append_of_pos hne]
      exact List.dropWhile_cons_of_neg (by simp)
    have hspec : (sign ++ letter :: digits).dropWhile isSignMark = letter :: digits := by
      have hstop : (letter :: digits).dropWhile isSignMark = letter :: digits :=
        List.dropWhile_cons_of_neg (Bool.eq_false_iff.1 (isSignMark_of_ofLetter? hletter))
      rcases hsign with rfl | ⟨mark, rfl, hmark⟩
      · exact hstop
      · rw [List.singleton_append, List.dropWhile_cons_of_pos hmark, hstop]
    rw [htext]
    show basedDigits? _ = _
    rw [basedDigits?, hapostrophe]
    dsimp only
    rw [hspec]
    dsimp only
    rw [hletter]
    rfl

/-- A literal without a plus sign denotes a number if there are digits, all of them are valid, and their value is
below the bound. -/
theorem integerValue?_written (h : head.Announces radix) (hplus : '+' ∉ digits) :
    integerValue? head.kind (head.chars ++ digits) = some n ↔
      (∃ c ∈ digits, c ≠ '_') ∧ (∀ c ∈ digits, c = '_' ∨ radix.isDigit c = true) ∧ radix.value digits = n ∧
        n < valueBound := by
  have hunsigned : Unsigned (digits.filter (· != '_')) := by
    intro rest heq
    have hmem : '+' ∈ digits.filter (· != '_') := heq ▸ List.mem_cons_self ..
    exact hplus (List.mem_of_mem_filter hmem)
  have hne : digits.filter (· != '_') ≠ [] ↔ ∃ c ∈ digits, c ≠ '_' := by
    simp [List.filter_eq_nil_iff]
  have hvalid : (∀ c ∈ digits.filter (· != '_'), radix.isDigit c = true) ↔
      ∀ c ∈ digits, c = '_' ∨ radix.isDigit c = true := by
    refine forall_congr' fun c => ?_
    rw [List.mem_filter, bne_iff_ne, and_imp]
    exact imp_congr_right fun _ => or_iff_not_imp_left.symm
  have hread : integerValue? head.kind (head.chars ++ digits) = some n ↔
      readDigits radix (digits.filter (· != '_')) = .ok n := by
    rw [integerValue?, integerDigits?_written h]
    dsimp only [Option.bind_some]
    cases readDigits radix (digits.filter (· != '_')) with
    | ok value => exact ⟨fun h => congrArg Except.ok (Option.some.inj h), fun h => congrArg some (Except.ok.inj h)⟩
    | error fault => exact ⟨nofun, nofun⟩
  rw [hread, readDigits_eq_ok hunsigned, hne, hvalid, Radix.value_filter]

theorem Radix.IsNumeral.plus_notMem (h : radix.IsNumeral digits) : '+' ∉ digits := by
  intro hmem
  rcases h.2 _ hmem with hplus | hplus
  · exact absurd (Radix.isBasedDigit_of_isDigit hplus) (by decide)
  · cases hplus

/-- A literal of valid digits denotes their value, or no number if it reaches the bound. -/
theorem integerValue?_of_isNumeral (h : head.Announces radix) (hdigits : radix.IsNumeral digits) :
    integerValue? head.kind (head.chars ++ digits) =
      if radix.value digits < 2 ^ 128 then some (radix.value digits) else none := by
  have hsome (n : Nat) := integerValue?_written (n := n) h hdigits.plus_notMem
  have hfirst : ∃ c ∈ digits, c ≠ '_' := by
    obtain ⟨c, cs, rfl, hc⟩ := startsWith_eq_true hdigits.1
    refine ⟨c, List.mem_cons_self .., ?_⟩
    rintro rfl
    cases hc
  by_cases hlt : radix.value digits < 2 ^ 128
  · rw [if_pos hlt]
    exact (hsome _).2 ⟨hfirst, fun c hc => (hdigits.2 c hc).symm, rfl, hlt⟩
  · rw [if_neg hlt]
    refine Option.eq_none_iff_forall_ne_some.2 fun n hn => ?_
    obtain ⟨-, -, rfl, hbelow⟩ := (hsome n).1 hn
    exact hlt hbelow

end Values

/-! ### Lexemes that are integer literals -/

/-- A text is a head with digits behind it, of which some may be unknown. -/
structure IsIntegerText (kind : LiteralKind) (text : List Char) (head : NumeralHead) (radix : Radix)
    (digits : List Char) : Prop where
  text_eq : text = head.chars ++ digits
  kind_eq : head.kind = kind
  announces : head.Announces radix
  ne_nil : digits ≠ []
  digit : ∀ c ∈ digits, radix.isDigit c = true ∨ isUnknownDigit c = true ∨ c = '_'

section Lexemes

variable {kind : LiteralKind} {text : String} {cs digits : List Char} {head : NumeralHead} {radix : Radix}

/-- No character of a decimal number is an apostrophe. -/
theorem apostrophe_notMem_decimal (cs : List Char) : '\'' ∉ cs.take (decimalLength cs) := by
  have hrun {p : Char → Bool} (hp : p '\'' = false) (ds : List Char) : '\'' ∉ ds.take (runLength p ds) := by
    rw [take_runLength]
    intro hmem
    exact Bool.eq_false_iff.1 hp (List.all_eq_true.1 List.all_takeWhile _ hmem)
  have hfraction (ds : List Char) : '\'' ∉ ds.take (fractionLength ds) := by
    unfold fractionLength
    split
    · rename_i ds
      split
      · rw [Nat.add_comm, List.take_succ_cons]
        exact List.not_mem_cons_of_ne_of_not_mem (by decide) (hrun (by decide) ds)
      · exact List.not_mem_nil
    · exact List.not_mem_nil
  have hexponent (ds : List Char) : '\'' ∉ ds.take (exponentLength ds) := by
    unfold exponentLength
    split
    · exact List.not_mem_nil
    · rename_i e ds
      have hsign : '\'' ∉ ds.take (if startsWith (fun c => c == '+' || c == '-') ds then 1 else 0) := by
        split
        · rename_i hsign
          obtain ⟨sign, ds, rfl, hs⟩ := startsWith_eq_true hsign
          refine List.not_mem_cons_of_ne_of_not_mem ?_ List.not_mem_nil
          rintro rfl
          cases hs
        · exact List.not_mem_nil
      dsimp only
      generalize (if startsWith (fun c => c == '+' || c == '-') ds then 1 else 0) = k at hsign ⊢
      split
      · rename_i he
        split
        · have hletter : '\'' ≠ e := by
            rintro rfl
            cases he
          rw [Nat.add_assoc, Nat.add_comm, List.take_succ_cons, List.take_add, List.mem_cons, List.mem_append, not_or,
            not_or]
          exact ⟨hletter, hsign, hrun (by decide) _⟩
        · exact List.not_mem_nil
      · exact List.not_mem_nil
  unfold decimalLength
  dsimp only
  rw [List.take_add, List.take_add, List.mem_append, List.mem_append, not_or, not_or]
  exact ⟨⟨hrun (by decide) cs, hfraction _⟩, hexponent _⟩

/-- A lexeme that is a based literal is a base with digits behind it. -/
theorem IsLiteral.based_numeral (h : IsLiteral .based text) :
    ∃ head radix digits, IsIntegerText .based text.toList head radix digits := by
  obtain ⟨⟨c, cs, htext, -, hscan⟩, hshape⟩ := h
  have hshape := hshape (by decide)
  rw [List.append_nil, scanLexeme_eq_ok] at hscan
  have hnumber := scanNumber_of_scanText hscan
  rw [htext] at hshape ⊢
  unfold scanNumber at hnumber
  split at hnumber
  · rename_i shape hbased
    obtain ⟨head, rest, hkind, hannounces, hcs, hlength, hne, -⟩ := basedShape?_inv hbased
    split at hnumber
    · cases hnumber
    · rename_i hvalid
      have hwhole : shape.length = (c :: cs).length := congrArg Prod.snd (Option.some.inj (Except.ok.inj hnumber))
      have hrest : rest = [] := by
        rw [hcs, List.length_append, ← hlength] at hwhole
        exact List.length_eq_zero_iff.1 (by omega)
      rw [hrest, List.append_nil] at hcs
      refine ⟨head, shape.radix, shape.digits, hcs, hkind, hannounces, hne, fun c hc => ?_⟩
      have hall : shape.valid = true := by simpa using (not_or.1 (Bool.or_eq_true_iff.not.1 hvalid)).2
      have hdigit := List.all_eq_true.1 hall c hc
      simpa [Radix.isDigit, or_assoc] using hdigit
  · split at hnumber
    · split at hnumber
      · cases hnumber
      · have hwhole : decimalLength (c :: cs) = (c :: cs).length :=
          congrArg Prod.snd (Option.some.inj (Except.ok.inj hnumber))
        have hnone := apostrophe_notMem_decimal (c :: cs)
        rw [hwhole, List.take_length] at hnone
        unfold LiteralKind.ofNumber at hshape
        split at hshape
        · cases hshape
        · rw [if_neg fun h => hnone (List.contains_iff_mem.1 h)] at hshape
          split at hshape <;> cases hshape
    · split at hnumber
      · rename_i hfill
        split at hnumber
        · cases hnumber
        · have hwhole : 2 = (c :: cs).length := congrArg Prod.snd (Option.some.inj (Except.ok.inj hnumber))
          unfold startsFill at hfill
          split at hfill
          · rename_i d ds heq
            rw [heq] at hwhole hshape
            obtain rfl : ds = [] := List.length_eq_zero_iff.1 (by simpa using hwhole.symm)
            cases hshape
          · cases hfill
      · cases hnumber

/-- A lexeme that is a plain integer is a digit string. -/
theorem IsLiteral.plain_numeral (h : IsLiteral .integer text) :
    IsIntegerText .integer text.toList .plain .decimal text.toList := by
  obtain ⟨c, cs, htext, -, hdigits⟩ := h.digits
  refine ⟨rfl, rfl, rfl, by simp [htext], fun d hd => ?_⟩
  rw [htext] at hd
  rcases Bool.or_eq_true_iff.1 (hdigits d hd) with h | h
  · exact .inl (by rw [Radix.isDigit_decimal, h])
  · exact .inr (.inr (beq_iff_eq.1 h))

/-- A lexeme that is an integer literal is a head with digits behind it. -/
theorem IsLiteral.numeral (h : IsLiteral kind text) (hkind : kind = .based ∨ kind = .integer) :
    ∃ head radix digits, IsIntegerText kind text.toList head radix digits := by
  rcases hkind with rfl | rfl
  · exact h.based_numeral
  · exact ⟨.plain, .decimal, text.toList, h.plain_numeral⟩

theorem IsIntegerText.plus_notMem (h : IsIntegerText kind cs head radix digits) : '+' ∉ digits := by
  intro hmem
  rcases h.digit _ hmem with hplus | hplus | hplus
  · exact absurd (Radix.isBasedDigit_of_isDigit hplus) (by decide)
  · cases hplus
  · cases hplus

/-- An integer literal denotes no number if a digit is unknown, if there are only separators, or if the value
reaches the bound. -/
theorem IsIntegerText.integerValue?_eq_none (h : IsIntegerText kind cs head radix digits) :
    integerValue? kind cs = none ↔ (∃ c ∈ digits, isUnknownDigit c = true) ∨ (∀ c ∈ digits, c = '_') ∨
      2 ^ 128 ≤ radix.value digits := by
  have hsome (n : Nat) := integerValue?_written (n := n) h.announces h.plus_notMem
  rw [← h.text_eq, h.kind_eq] at hsome
  constructor
  · intro hnone
    by_contra hcon
    obtain ⟨hknown, hseparators, hbelow⟩ : (∀ c ∈ digits, ¬isUnknownDigit c = true) ∧ (∃ c ∈ digits, c ≠ '_') ∧
        radix.value digits < 2 ^ 128 := by simpa [not_or, Nat.not_le] using hcon
    have hvalid : ∀ c ∈ digits, c = '_' ∨ radix.isDigit c = true := by
      intro c hc
      rcases h.digit c hc with hdigit | hunknown | hseparator
      · exact .inr hdigit
      · exact absurd hunknown (hknown c hc)
      · exact .inl hseparator
    rw [(hsome _).2 ⟨hseparators, hvalid, rfl, hbelow⟩] at hnone
    cases hnone
  · intro hbad
    refine Option.eq_none_iff_forall_ne_some.2 fun n hn => ?_
    obtain ⟨⟨c, hc, hne⟩, hvalid, rfl, hbelow⟩ := (hsome n).1 hn
    rcases hbad with ⟨d, hd, hunknown⟩ | hseparators | hreached
    · rcases hvalid d hd with rfl | hdigit
      · cases hunknown
      · rw [Radix.isDigit_of_isUnknownDigit hunknown] at hdigit
        cases hdigit
    · exact hne (hseparators c hc)
    · exact absurd hbelow (Nat.not_lt.2 hreached)

/-- A number among the tokens of a source is recognised as what it is. -/
theorem Source.isLiteral_of_mem_tokens {source : Source} {ts : List Token} {t : Token}
    (h : source.tokens = .ok ts) (ht : t ∈ ts) (hliteral : t.kind = .literal)
    (hkind : LiteralKind.ofNumber t.text.toList = .based ∨ LiteralKind.ofNumber t.text.toList = .integer) :
    IsLiteral (.ofNumber t.text.toList) t.text := by
  obtain ⟨front, rfl, -⟩ := tokens_eq_ok h
  obtain ⟨-, hscans⟩ := Source.scans_of_mem_tokens h
  rcases List.mem_append.1 ht with ht | ht
  · have htoken : (LiteralKind.ofNumber t.text.toList).tokenKind = t.kind := by
      rcases hkind with hkind | hkind <;> rw [hkind, hliteral] <;> rfl
    refine ⟨?_, fun _ => rfl⟩
    rw [htoken]
    exact hscans t ht
  · rw [List.mem_singleton.1 ht] at hliteral
    cases hliteral

end Lexemes

/-! ### Writing and decoding -/

/-- A literal token is read as a literal of the kind that its text shows. -/
theorem operandOf_of_literal {nested : Nested} {c : Cursor} {t : Token} {ts : List Token} (hafter : c.after = t :: ts)
    (hkind : t.kind = .literal) :
    ∃ site, operandOf nested c = .ok (.literal site (.ofNumber t.text.toList) t.text, c.skip 1) := by
  rw [operandOf_of_primary hafter (by rw [hkind]; rfl)]
  simp only [primaryOf, hkind]
  exact ⟨_, tagged_of_ok (map_of_ok rfl)⟩

/-- An integer literal is recognised as a whole in front of what cannot go on with it, it is read as a literal of its
kind, and it denotes the value of its digits unless this reaches the bound. The other way round, every token that is
an integer literal is written so, and it denotes no number if and only if some digit is unknown, there are only
separators, or the value of the digits reaches the bound. -/
theorem integerLiteral_decoded :
    (∀ head radix digits, NumeralHead.Announces radix head → radix.IsNumeral digits →
      (∀ rest c cs, startsWith goesOn rest = false → head.chars ++ digits ++ rest = c :: cs →
        scanLexeme c cs = .ok (.literal, (head.chars ++ digits).length)) ∧
      (∀ (nested : Nested) (c : Cursor) (t : Token) ts, c.after = t :: ts → t.kind = .literal →
        t.text.toList = head.chars ++ digits →
        ∃ site, operandOf nested c = .ok (.literal site head.kind t.text, c.skip 1)) ∧
      integerValue? head.kind (head.chars ++ digits) =
        if radix.value digits < 2 ^ 128 then some (radix.value digits) else none) ∧
    ∀ (source : Source) ts, source.tokens = .ok ts → ∀ t ∈ ts, t.kind = .literal →
      ∀ kind, LiteralKind.ofNumber t.text.toList = kind → kind = .based ∨ kind = .integer →
        ∃ head radix digits, IsIntegerText kind t.text.toList head radix digits ∧
          (integerValue? kind t.text.toList = none ↔ (∃ c ∈ digits, isUnknownDigit c = true) ∨
            (∀ c ∈ digits, c = '_') ∨ 2 ^ 128 ≤ radix.value digits) := by
  constructor
  · intro head radix digits h hdigits
    refine ⟨fun rest c cs hrest htext => scanLexeme_of_written h hdigits hrest htext, ?_,
      integerValue?_of_isNumeral h hdigits⟩
    intro nested c t ts hafter hkind htext
    rw [← ofNumber_of_written h hdigits, ← htext]
    exact operandOf_of_literal hafter hkind
  · rintro source ts hts t ht hliteral kind rfl hkind
    obtain ⟨head, radix, digits, hnumeral⟩ := (Source.isLiteral_of_mem_tokens hts ht hliteral hkind).numeral hkind
    exact ⟨head, radix, digits, hnumeral, hnumeral.integerValue?_eq_none⟩

/-- `12'Shf_F0` in front of a closing bracket denotes 4080, and `4'b1x` denotes no number. -/
theorem integerLiteral_decoded_signed :
    (scanLexeme '1' ['2', '\'', 'S', 'h', 'f', '_', 'F', '0', ']'] = .ok (.literal, 9) ∧
      integerValue? .based ['1', '2', '\'', 'S', 'h', 'f', '_', 'F', '0'] = some 4080) ∧
    ∃ head radix digits, IsIntegerText .based ['4', '\'', 'b', '1', 'x'] head radix digits ∧
      (integerValue? .based ['4', '\'', 'b', '1', 'x'] = none ↔ (∃ c ∈ digits, isUnknownDigit c = true) ∨
        (∀ c ∈ digits, c = '_') ∨ 2 ^ 128 ≤ radix.value digits) := by
  obtain ⟨hwritten, hlexeme⟩ := integerLiteral_decoded
  have hnumeral : Radix.hexadecimal.IsNumeral ['f', '_', 'F', '0'] :=
    ⟨rfl, List.forall_mem_cons.2 ⟨.inl rfl, List.forall_mem_cons.2 ⟨.inr rfl, List.forall_mem_cons.2 ⟨.inl rfl,
      List.forall_mem_singleton.2 (.inl rfl)⟩⟩⟩⟩
  obtain ⟨hscan, -, hvalue⟩ := hwritten (.based ['1', '2'] ['S'] 'h') .hexadecimal ['f', '_', 'F', '0']
    ⟨.inr ⟨rfl, List.all_eq_true.1 rfl⟩, .inr ⟨'S', rfl, rfl⟩, rfl⟩ hnumeral
  have hfits : Radix.hexadecimal.value ['f', '_', 'F', '0'] = 4080 := by decide
  rw [hfits] at hvalue
  refine ⟨⟨hscan [']'] '1' _ rfl rfl, hvalue⟩, ?_⟩
  let source : Source := { path := "a.sv", text := "4'b1x", ending := .lf }
  let t : Token := ⟨⟨.literal, "4'b1x"⟩, 0, ⟨1, 1⟩, ⟨1, 6⟩⟩
  have hts : source.tokens = .ok [t, ⟨⟨.eof, ""⟩, 5, ⟨1, 6⟩, ⟨1, 6⟩⟩] := by decide +kernel
  have htext : t.text.toList = ['4', '\'', 'b', '1', 'x'] := by decide
  rw [← htext]
  exact hlexeme source _ hts t (List.mem_cons_self ..) rfl .based (by decide) (.inl rfl)

end SystemVerilog
