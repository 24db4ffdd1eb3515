import SystemVerilog.Proofs.Lexing.Closing
import SystemVerilog.Proofs.Lexing.Scanned
import SystemVerilog.Proofs.Lexing.Spelled

/-!
# Where and why lexing fails

Lexing fails at the first place, reached over whole lexemes and blanks, that starts with no lexeme. What stands
before that place lexes on its own, and the fault tells what stands there: a comment or a string that has no end,
a number that goes on as none may, a backslash, or a character of no class. The other way round, wherever a
comment or a string without an end, or a backslash, is reached, lexing fails there with that fault.
-/

namespace SystemVerilog

/-! ### Faults and what stands at them -/

/-- An opened block comment without a closing mark. -/
def UnclosedComment (cs : List Char) : Prop :=
  ∃ interior, cs = '/' :: '*' :: interior ∧ ¬['*', '/'] <:+: interior

/-- An opened string that is broken off before an unescaped quote. -/
def UnclosedString (cs : List Char) : Prop :=
  ∃ body rest, cs = '"' :: (body ++ rest) ∧ Quoted rest body ∧ BreaksOff rest

/-- What a text starts with where a fault is found. -/
def FaultStarts (cs : List Char) : LexicalFault → Prop
  | .unterminatedBlockComment => UnclosedComment cs
  | .unterminatedString => UnclosedString cs
  | .invalidLiteral text => text ≠ "" ∧ text.toList <+: cs ∧ ∀ c ∈ text.toList, isWordPart c = true ∨ c = '\''
  | .unrecognizedCharacter c => c ≠ '\\' ∧ [c] <+: cs
  | .unexpectedEscape => ['\\'] <+: cs

/-- Faults that are found wherever a text starts with what they tell. -/
def LexicalFault.isOpening : LexicalFault → Bool
  | unterminatedBlockComment | unterminatedString | unexpectedEscape => true
  | invalidLiteral _ | unrecognizedCharacter _ => false

/-! ### Faults of the classes -/

section Classes

variable {c : Char} {cs : List Char} {fault : LexicalFault}

theorem scanComment_eq_error : scanComment cs = .error fault ↔
    fault = .unterminatedBlockComment ∧ UnclosedComment cs := by
  constructor
  · intro h
    unfold scanComment at h
    split at h
    · cases h
    · rename_i interior
      split at h
      · cases h
      · rename_i hnone
        exact ⟨(Except.error.inj h).symm, interior, rfl, commentRestLength?_eq_none.1 hnone⟩
    · cases h
  · rintro ⟨rfl, interior, rfl, hopen⟩
    rw [scanComment, commentRestLength?_eq_none.2 hopen]

theorem scanString_eq_error : scanString cs = .error fault ↔ fault = .unterminatedString ∧ UnclosedString cs := by
  constructor
  · intro h
    unfold scanString at h
    split at h
    · rename_i interior
      split at h
      · cases h
      · rename_i hnone
        obtain ⟨body, rest, rfl, hopen⟩ := stringRestLength?_eq_none.1 hnone
        exact ⟨(Except.error.inj h).symm, body, rest, rfl, hopen⟩
    · cases h
  · rintro ⟨rfl, body, rest, rfl, hopen⟩
    rw [scanString, stringRestLength?_eq_none.2 ⟨body, rest, rfl, hopen⟩]

/-- A number starts with a digit or an apostrophe. -/
theorem startsWith_of_scanNumber (h : scanNumber cs ≠ .ok none) :
    startsWith (fun c => isWordPart c || c == '\'') cs = true := by
  have hdigit (hcs : startsWith Char.isDigit cs = true) :
      startsWith (fun c => isWordPart c || c == '\'') cs = true := by
    obtain ⟨c, cs, rfl, hc⟩ := startsWith_eq_true hcs
    simp [startsWith, isWordPart, Char.isAlphanum, hc]
  by_cases hcs : startsWith Char.isDigit cs = true
  · exact hdigit hcs
  · refine Classical.byContradiction fun hstart => h (scanNumber_eq_none.2 ⟨?_, by simpa using hcs, ?_⟩)
    · unfold basedShape?
      rw [sizeLength, if_neg hcs, List.drop_zero]
      split
      · exact absurd rfl hstart
      · rfl
    · unfold startsFill
      split
      · exact absurd rfl hstart
      · rfl

theorem literalRun_starts (h : startsWith (fun c => isWordPart c || c == '\'') cs = true) :
    FaultStarts cs (.invalidLiteral (literalRun cs)) := by
  have hrun : (literalRun cs).toList = cs.takeWhile fun c => isWordPart c || c == '\'' := String.toList_ofList
  refine ⟨fun hempty => ?_, ?_, fun c hc => ?_⟩
  · obtain ⟨c, cs, rfl, hc⟩ := startsWith_eq_true h
    rw [hempty, List.takeWhile_cons, if_pos hc] at hrun
    cases hrun
  · rw [hrun]
    exact List.takeWhile_prefix _
  · rw [hrun] at hc
    simpa using List.all_eq_true.1 List.all_takeWhile c hc

theorem scanNumber_eq_error (h : scanNumber cs = .error fault) : fault = .invalidLiteral (literalRun cs) := by
  unfold scanNumber at h
  split at h
  · split at h <;> cases h
    rfl
  · split at h
    · split at h <;> cases h
      rfl
    · split at h
      · split at h <;> cases h
        rfl
      · cases h

/-- No class is concerned with a backslash. -/
theorem scanText_backslash (cs : List Char) : scanText ('\\' :: cs) = .ok none := rfl

end Classes

/-! ### The fault at the start of a text -/

section Faults

variable {c : Char} {cs : List Char} {fault : LexicalFault}

theorem Recognition.orElse_eq_error {first : Recognition} {next : Unit → Recognition} :
    first.orElse next = .error fault ↔ first = .error fault ∨ first = .ok none ∧ next () = .error fault := by
  unfold Recognition.orElse
  split
  · exact ⟨fun h => .inr ⟨rfl, h⟩, fun h => h.elim nofun And.right⟩
  · rename_i hne
    exact ⟨.inl, fun h => h.elim id fun h => absurd h.1 hne⟩

theorem scanLexeme_eq_error : scanLexeme c cs = .error fault ↔
    scanText (c :: cs) = .error fault ∨ scanText (c :: cs) = .ok none ∧ fault = strayFault c := by
  unfold scanLexeme
  dsimp only
  rw [← scanText]
  split <;> rename_i h <;> simp [h, eq_comm]

/-- The fault tells what the text starts with. -/
theorem faultStarts_of_scanText (h : scanText cs = .error fault) : FaultStarts cs fault := by
  unfold scanText at h
  simp only [Recognition.orElse_eq_error] at h
  rcases h with h | ⟨-, h | ⟨-, h | ⟨-, h | ⟨-, h | ⟨-, h⟩⟩⟩⟩⟩
  · obtain ⟨rfl, hopen⟩ := scanComment_eq_error.1 h
    exact hopen
  · obtain ⟨rfl, hopen⟩ := scanString_eq_error.1 h
    exact hopen
  · obtain rfl := scanNumber_eq_error h
    exact literalRun_starts (startsWith_of_scanNumber (by rw [h]; nofun))
  · unfold scanDirective at h
    split at h
    · split at h <;> cases h
    · cases h
  · cases h
  · unfold scanWord at h
    split at h
    · cases h
    · split at h <;> cases h

theorem faultStarts_of_scanLexeme (h : scanLexeme c cs = .error fault) : FaultStarts (c :: cs) fault := by
  rcases scanLexeme_eq_error.1 h with h | ⟨-, rfl⟩
  · exact faultStarts_of_scanText h
  · unfold strayFault
    split
    · rename_i hc
      exact ⟨cs, by rw [hc, List.singleton_append]⟩
    · rename_i hc
      exact ⟨hc, cs, rfl⟩

/-- A comment, a string and a backslash start with a character that is no blank. -/
theorem exists_of_faultStarts (hopening : fault.isOpening = true) (h : FaultStarts cs fault) :
    ∃ c more, cs = c :: more ∧ isBlank c = false := by
  cases fault with
  | unterminatedBlockComment =>
    obtain ⟨interior, rfl, -⟩ := h
    exact ⟨_, _, rfl, rfl⟩
  | unterminatedString =>
    obtain ⟨body, rest, rfl, -⟩ := h
    exact ⟨_, _, rfl, rfl⟩
  | unexpectedEscape =>
    obtain ⟨more, rfl⟩ := h
    exact ⟨_, _, rfl, rfl⟩
  | invalidLiteral text => cases hopening
  | unrecognizedCharacter c => cases hopening

/-- Where a comment or a string without an end or a backslash starts, no lexeme starts. -/
theorem scanLexeme_of_faultStarts (hopening : fault.isOpening = true) (h : FaultStarts (c :: cs) fault) :
    scanLexeme c cs = .error fault := by
  cases fault with
  | unterminatedBlockComment =>
    have hcomment := scanComment_eq_error.2 ⟨rfl, h⟩
    exact scanLexeme_eq_error.2 (.inl (Recognition.orElse_eq_error.2 (.inl hcomment)))
  | unterminatedString =>
    have hstring := scanString_eq_error.2 ⟨rfl, h⟩
    obtain ⟨body, rest, heq, -⟩ := h
    have hcomment : scanComment (c :: cs) = .ok none := by
      rw [heq]
      rfl
    refine scanLexeme_eq_error.2 (.inl (Recognition.orElse_eq_error.2 (.inr ⟨hcomment, ?_⟩)))
    exact Recognition.orElse_eq_error.2 (.inl hstring)
  | unexpectedEscape =>
    obtain ⟨more, heq⟩ := h
    obtain ⟨rfl, -⟩ := List.cons.inj heq
    exact scanLexeme_eq_error.2 (.inr ⟨scanText_backslash cs, rfl⟩)
  | invalidLiteral text => cases hopening
  | unrecognizedCharacter c => cases hopening

/-- A backslash has its own fault. -/
theorem eq_unexpectedEscape (h : scanLexeme c cs = .error fault) : fault = .unexpectedEscape ↔ c = '\\' := by
  constructor
  · rintro rfl
    obtain ⟨more, heq⟩ := faultStarts_of_scanLexeme h
    exact (List.cons.inj heq).1.symm
  · rintro rfl
    have hstarts : FaultStarts ('\\' :: cs) .unexpectedEscape := ⟨cs, rfl⟩
    have hescape := scanLexeme_of_faultStarts rfl hstarts
    exact Except.error.inj (h.symm.trans hescape)

end Faults

/-! ### Sources -/

/-- Lexing a source fails at the character `c` behind `before`, where the error says. -/
structure LexFailsAt (source : Source) (e : LexError) (before : List Char) (c : Char) (more : List Char) : Prop where
  chars_eq : source.chars = before ++ c :: more
  visible : isBlank c = false
  /-- The place is reached over whole lexemes and blanks. -/
  reached : ∃ ps, Scanned 0 source.chars ps (byteLength before) (c :: more)
  /-- The text before the place lexes. -/
  lexes : ∀ cut : Source, cut.chars = before → ∃ tokens, cut.tokens = .ok tokens
  location_eq : e.location = source.locate (byteLength before)
  /-- The rest of the line is shown. -/
  remaining_eq : ∃ line behind, c :: more = line ++ behind ∧ e.remaining = String.ofList line ∧
    (∀ d ∈ line, isLineBreak d = false) ∧ (behind = [] ∨ startsWith isLineBreak behind = true)
  excerpt_eq : e.excerpt = source.excerpt (source.locate (byteLength before))
  starts : FaultStarts (c :: more) e.fault
  escape : e.fault = .unexpectedEscape ↔ c = '\\'

theorem tokens_of_scanned {source : Source} {ps : List Piece} {stop : Nat}
    (h : Scanned 0 source.chars ps stop []) : ∃ tokens, source.tokens = .ok tokens := by
  rw [Source.tokens, pieces, h.piecesFrom_eq_ok]
  exact ⟨_, rfl⟩

/-- Where lexing fails, the error is located exactly, and its fault tells what stands there; and it does fail
wherever a comment or a string without an end, or a backslash, is reached. -/
theorem tokens_fault (source : Source) :
    (∀ e, source.tokens = .error e → ∃ before c more, LexFailsAt source e before c more) ∧
      ∀ ps offset rest fault, Scanned 0 source.chars ps offset rest → fault.isOpening = true →
        FaultStarts rest fault → source.tokens = .error (source.lexError ⟨fault, offset, rest⟩) := by
  refine ⟨fun e h => ?_, fun ps offset rest fault hscanned hopening hstarts => ?_⟩
  · obtain ⟨ps, offset, c, more, fault, hscanned, hc, hfault, rfl⟩ := Source.tokens_eq_error.1 h
    obtain ⟨before, hchars, hoffset, hcut⟩ := hscanned.cut
    obtain rfl : offset = byteLength before := hoffset.trans (Nat.zero_add _)
    obtain ⟨behind, hline, hbody, hend⟩ := exists_line (c :: more)
    exact ⟨before, c, more, {
      chars_eq := hchars
      visible := hc
      reached := ⟨ps, hscanned⟩
      lexes := fun cut hbefore => tokens_of_scanned (hbefore ▸ hcut)
      location_eq := rfl
      remaining_eq := ⟨_, behind, hline, rfl, hbody, hend⟩
      excerpt_eq := rfl
      starts := faultStarts_of_scanLexeme hfault
      escape := eq_unexpectedEscape hfault }⟩
  · obtain ⟨c, more, rfl, hc⟩ := exists_of_faultStarts hopening hstarts
    exact Source.tokens_eq_error.2 ⟨ps, offset, c, more, fault, hscanned, hc,
      scanLexeme_of_faultStarts hopening hstarts, rfl⟩

/-- An unfinished string behind an operator, with a character of two bytes before it, and a backslash behind a
blank. -/
theorem tokens_fault_string :
    let source : Source := { path := "<input>", text := "/*\u00e9*/<<\"a\\\"\nb", ending := .lf }
    let e := source.lexError ⟨.unterminatedString, 8, ['"', 'a', '\\', '"', '\n', 'b']⟩
    let escaped : Source := { path := "<input>", text := "\t\\", ending := .lf }
    (source.tokens = .error e ∧ ∃ before c more, LexFailsAt source e before c more) ∧
      Scanned 0 escaped.chars [] 1 ['\\'] ∧ FaultStarts ['\\'] .unexpectedEscape ∧
        escaped.tokens = .error (escaped.lexError ⟨.unexpectedEscape, 1, ['\\']⟩) := by
  have hscanned : Scanned 0 ['\t', '\\'] [] 1 ['\\'] := .blank rfl .here
  have hstarts : FaultStarts ['\\'] .unexpectedEscape := ⟨[], rfl⟩
  exact ⟨⟨rfl, (tokens_fault _).1 _ rfl⟩, hscanned, hstarts,
    (tokens_fault _).2 _ _ _ .unexpectedEscape hscanned rfl hstarts⟩

end SystemVerilog
