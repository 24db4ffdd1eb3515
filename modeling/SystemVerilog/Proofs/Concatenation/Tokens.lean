import SystemVerilog.Proofs.Lexing.Appending

/-!
# The tokens of joined texts

A text, a line terminator and another text are cut into the lines of the first text and then those of the
second one, and into the lexemes of both: the terminator keeps the last lexeme of the first text as it is,
and the second text starts on a line of its own. The tokens of the second text are moved by the bytes and
the lines in front of it, and keep their columns.
-/

namespace SystemVerilog

/-! ### Lines -/

namespace LineEnding

variable {ending : LineEnding}

theorem terminator_blank (ending : LineEnding) : Blank ending.terminator := by
  cases ending <;> decide

theorem terminator_breaks (ending : LineEnding) (rest : List Char) :
    ∀ c cs, ending.terminator ++ rest = c :: cs → isLineBreak c = true := by
  cases ending <;> (rintro c cs ⟨⟩; rfl)

theorem byteLength_terminator (ending : LineEnding) : byteLength ending.terminator = ending.width := by
  cases ending <;> decide

theorem width_pos (ending : LineEnding) : 0 < ending.width := by
  cases ending <;> decide

/-- A terminator ends the line. -/
theorem linesFrom_terminator (line rest : List Char) :
    ending.linesFrom line (ending.terminator ++ rest) = line.reverse :: ending.linesFrom [] rest := by
  cases ending with
  | lf => rfl
  | crlf => rfl
  | cr =>
    cases rest with
    | nil => rfl
    | cons c cs =>
      by_cases hc : c = '\n'
      · subst hc
        rfl
      · show linesFrom .cr line ('\r' :: c :: cs) = _
        rw [linesFrom, if_pos (show cr.terminator = ['\r'] from rfl)]
        rintro rest - heq
        exact hc (List.cons.inj heq).1

/-- A character that starts no terminator belongs to its line. -/
theorem linesFrom_step {line cs : List Char} {c : Char} (hc : ending.terminator ≠ [c])
    (hpair : ending = .crlf → c = '\r' → ∀ rest, cs ≠ '\n' :: rest) :
    ending.linesFrom line (c :: cs) = ending.linesFrom (c :: line) cs := by
  by_cases hbreak : c = '\r' ∧ ∃ rest, cs = '\n' :: rest
  · obtain ⟨rfl, rest, rfl⟩ := hbreak
    cases ending with
    | lf => rfl
    | crlf => exact absurd rfl (hpair rfl rfl rest)
    | cr => exact absurd rfl hc
  · rw [linesFrom, if_neg hc]
    rintro rest rfl rfl
    exact hbreak ⟨rfl, rest, rfl⟩

theorem linesFrom_append (line text rest : List Char) :
    ending.linesFrom line (text ++ (ending.terminator ++ rest)) =
      ending.linesFrom line text ++ ending.linesFrom [] rest := by
  fun_induction linesFrom ending line text with
  | case1 line => exact linesFrom_terminator line rest
  | case2 line cs hending ih =>
    subst hending
    simp only [List.cons_append, linesFrom, ih]
  | case3 line cs hending ih =>
    subst hending
    simp only [List.cons_append, linesFrom, ih]
  | case4 line cs hending ih =>
    subst hending
    simp only [List.cons_append, linesFrom, ih]
  | case5 line c cs hne hc ih =>
    rw [List.cons_append, List.cons_append, ← ih, ← linesFrom_terminator, hc]
    rfl
  | case6 line c cs hne hc ih =>
    rw [List.cons_append, linesFrom_step hc, ih]
    rintro rfl rfl more heq
    cases cs with
    | nil => cases heq
    | cons d cs =>
      obtain ⟨rfl, -⟩ := List.cons.inj heq
      exact hne cs rfl rfl

/-- The lines of two texts that a terminator joins. -/
theorem lines_append (text rest : List Char) :
    ending.lines (text ++ (ending.terminator ++ rest)) = ending.lines text ++ ending.lines rest :=
  linesFrom_append [] text rest

/-- The number of bytes that lines take up with a terminator behind each. -/
def extent (ending : LineEnding) (lines : List (List Char)) : Nat :=
  lines.foldr (fun line bytes => byteLength line + ending.width + bytes) 0

@[simp] theorem extent_nil : ending.extent [] = 0 := rfl

@[simp] theorem extent_cons (line : List Char) (lines : List (List Char)) :
    ending.extent (line :: lines) = byteLength line + ending.width + ending.extent lines := rfl

theorem byteLength_reverse (cs : List Char) : byteLength cs.reverse = byteLength cs := by
  induction cs with
  | nil => rfl
  | cons c cs ih => simp [ih, Nat.add_comm]

theorem extent_linesFrom (line text : List Char) :
    ending.extent (ending.linesFrom line text) = byteLength line + byteLength text + ending.width := by
  have hreturn : '\r'.utf8Size = 1 := rfl
  have hfeed : '\n'.utf8Size = 1 := rfl
  fun_induction linesFrom ending line text with
  | case1 line => simp [byteLength_reverse]
  | case2 line cs hending ih =>
    subst hending
    rw [extent_cons, ih, byteLength_reverse]
    simp only [byteLength_cons, byteLength_nil, hreturn, hfeed, show lf.width = 1 from rfl]
    omega
  | case3 line cs hending ih =>
    subst hending
    rw [extent_cons, ih, byteLength_reverse]
    simp only [byteLength_cons, byteLength_nil, hreturn, hfeed, show crlf.width = 2 from rfl]
    omega
  | case4 line cs hending ih =>
    subst hending
    rw [extent_cons, ih, byteLength_reverse]
    simp only [byteLength_cons, byteLength_nil, hreturn, hfeed, show cr.width = 1 from rfl]
    omega
  | case5 line c cs hne hc ih =>
    have hsize : c.utf8Size = ending.width := by
      rw [← byteLength_terminator, hc, byteLength_cons, byteLength_nil, Nat.add_zero]
    rw [extent_cons, ih, byteLength_reverse, byteLength_cons, hsize, byteLength_nil]
    omega
  | case6 line c cs hne hc ih =>
    rw [ih, byteLength_cons, byteLength_cons]
    omega

/-- The lines of a text take up its bytes and those of one terminator more. -/
theorem extent_lines (text : List Char) : ending.extent (ending.lines text) = byteLength text + ending.width := by
  rw [lines, extent_linesFrom, byteLength_nil, Nat.zero_add]

end LineEnding

/-! ### Places -/

/-- The place some lines further down. -/
def Location.down (place : Location) (n : Nat) : Location := ⟨place.line + n, place.column⟩

namespace Source

variable {ending : LineEnding} {ls ms : List (List Char)} {number offset : Nat}

/-- A place in the first lines does not depend on what follows them. -/
theorem locateFrom_append_left (h : offset < ending.extent ls) :
    locateFrom ending.width number offset ((ls ++ ms).map String.ofList) =
      locateFrom ending.width number offset (ls.map String.ofList) := by
  induction ls generalizing number offset with
  | nil => exact absurd h (Nat.not_lt_zero _)
  | cons line ls ih =>
    rw [LineEnding.extent_cons] at h
    cases ls with
    | nil =>
      cases ms with
      | nil => rfl
      | cons m ms =>
        rw [LineEnding.extent_nil, Nat.add_zero] at h
        simp [locateFrom, utf8ByteSize_eq_byteLength, h]
    | cons next rest =>
      simp only [List.cons_append, List.map_cons, locateFrom, utf8ByteSize_eq_byteLength,
        String.toList_ofList] at ih ⊢
      by_cases hin : offset < byteLength line + ending.width
      · rw [if_pos hin, if_pos hin]
      · rw [if_neg hin, if_neg hin]
        exact ih (by omega)

/-- A place behind the first lines is counted from there. -/
theorem locateFrom_append_right (hms : ms ≠ []) :
    locateFrom ending.width number (offset + ending.extent ls) ((ls ++ ms).map String.ofList) =
      locateFrom ending.width (number + ls.length) offset (ms.map String.ofList) := by
  induction ls generalizing number with
  | nil => rfl
  | cons line ls ih =>
    obtain ⟨next, rest, hrest⟩ : ∃ next rest, ls ++ ms = next :: rest :=
      List.exists_cons_of_ne_nil (by simp [hms])
    have hout : ¬offset + ending.extent (line :: ls) < byteLength line + ending.width := by
      rw [LineEnding.extent_cons]
      omega
    have hleft : offset + ending.extent (line :: ls) - (byteLength line + ending.width) =
        offset + ending.extent ls := by
      rw [LineEnding.extent_cons]
      omega
    rw [List.cons_append, hrest, List.map_cons, List.map_cons, locateFrom, utf8ByteSize_eq_byteLength,
      String.toList_ofList, if_neg hout, hleft, ← List.map_cons, ← hrest, ih, List.length_cons]
    congr 1
    omega

/-- Lines are counted on from any number. -/
theorem locateFrom_down (gap n : Nat) (lines : List String) :
    locateFrom gap (number + n) offset lines = (locateFrom gap number offset lines).down n := by
  fun_induction locateFrom gap number offset lines with
  | case1 | case2 => rfl
  | case3 number offset line next rest hin => simp [locateFrom, hin, Location.down]
  | case4 number offset line next rest hout ih =>
    rw [locateFrom, if_neg hout, Nat.add_right_comm, ih]

/-- The text of one source, a line terminator and the text of another one. -/
structure Joins (whole first second : Source) : Prop where
  text : whole.chars = first.chars ++ (whole.ending.terminator ++ second.chars)
  first : first.ending = whole.ending
  second : second.ending = whole.ending

namespace Joins

variable {whole first second : Source}

/-- The number of bytes in front of the second text. -/
def gap (whole first : Source) : Nat := byteLength first.chars + whole.ending.width

theorem lines_eq (h : Joins whole first second) : whole.lines =
    (whole.ending.lines first.chars ++ whole.ending.lines second.chars).map String.ofList := by
  rw [whole.lines_eq, ← chars, h.text, LineEnding.lines_append]

theorem first_lines (h : Joins whole first second) :
    first.lines = (whole.ending.lines first.chars).map String.ofList := by
  rw [first.lines_eq, h.first]
  rfl

theorem second_lines (h : Joins whole first second) :
    second.lines = (whole.ending.lines second.chars).map String.ofList := by
  rw [second.lines_eq, h.second]
  rfl

/-- Places in the first text stay where they are. -/
theorem locate_first (h : Joins whole first second) (hoffset : offset ≤ byteLength first.chars) :
    whole.locate offset = first.locate offset := by
  rw [locate, locate, h.lines_eq, h.first_lines, h.first]
  refine locateFrom_append_left ?_
  have hpos := whole.ending.width_pos
  rw [LineEnding.extent_lines]
  omega

/-- Places in the second text are moved down by the lines of the first one. -/
theorem locate_second (h : Joins whole first second) (offset : Nat) :
    whole.locate (offset + gap whole first) = (second.locate offset).down first.lineCount := by
  rw [locate, locate, h.lines_eq, h.second_lines, h.second, gap, ← LineEnding.extent_lines,
    locateFrom_append_right (LineEnding.lines_ne_nil _ _), ← locateFrom_down, lineCount, h.first_lines,
    List.length_map]

end Joins

end Source

/-! ### Pieces -/

/-- The piece some bytes further on. -/
def Piece.moved (k : Nat) (p : Piece) : Piece := { p with offset := p.offset + k }

/-- The stop some bytes further on. -/
def LexicalStop.moved (k : Nat) (stop : LexicalStop) : LexicalStop := { stop with offset := stop.offset + k }

/-- Where a text starts makes a difference to offsets only. -/
theorem piecesFrom_add (n offset k : Nat) (cs : List Char) : piecesFrom n (offset + k) cs =
    ((piecesFrom n offset cs).map (List.map (Piece.moved k))).mapError (LexicalStop.moved k) := by
  induction cs generalizing n offset with
  | nil => rfl
  | cons c cs ih =>
    have hnext : offset + k + c.utf8Size = offset + c.utf8Size + k := Nat.add_right_comm ..
    cases n with
    | succ n =>
      rw [piecesFrom, piecesFrom, hnext]
      exact ih n _
    | zero =>
      unfold piecesFrom
      dsimp only
      rw [hnext]
      by_cases hc : isBlank c = true
      · rw [if_pos hc, if_pos hc]
        exact ih 0 _
      · rw [if_neg hc, if_neg hc]
        cases hscan : scanLexeme c cs with
        | error fault => rfl
        | ok found =>
          dsimp only
          rw [ih]
          cases piecesFrom (found.2 - 1) (offset + c.utf8Size) cs <;> rfl

/-- The pieces of a text do not depend on where it starts. -/
theorem piecesFrom_moved {n offset : Nat} {cs : List Char} {ps : List Piece} (k : Nat)
    (h : piecesFrom n offset cs = .ok ps) : piecesFrom n (offset + k) cs = .ok (ps.map (Piece.moved k)) := by
  rw [piecesFrom_add, h]
  rfl

theorem piecesFrom_of_moved {n offset k : Nat} {cs : List Char} {qs : List Piece}
    (h : piecesFrom n (offset + k) cs = .ok qs) :
    ∃ ps, piecesFrom n offset cs = .ok ps ∧ ps.map (Piece.moved k) = qs := by
  rw [piecesFrom_add] at h
  cases hps : piecesFrom n offset cs with
  | error stop =>
    rw [hps] at h
    cases h
  | ok ps =>
    rw [hps] at h
    exact ⟨ps, rfl, Except.ok.inj h⟩

/-! ### Tokens -/

/-- The token some bytes further on and some lines further down. -/
def Token.moved (bytes lines : Nat) (t : Token) : Token :=
  { t with offset := t.offset + bytes, location := t.location.down lines, stop := t.stop.down lines }

/-- The tokens of joined texts are those of the first one and then those of the second one, moved. -/
theorem Source.Joins.tokens_eq {whole first second : Source} {ts us : List Token} {mark mark' : Token}
    (h : Joins whole first second) (hfirst : first.tokens = .ok (ts ++ [mark]))
    (hsecond : second.tokens = .ok (us ++ [mark'])) :
    whole.tokens = .ok (ts ++ us.map (Token.moved (gap whole first) first.lineCount) ++ [whole.endMark]) := by
  obtain ⟨front, hfront, hlaid, -⟩ := tokens_eq_ok hfirst
  obtain ⟨rfl, -⟩ := List.append_inj' hfront rfl
  unfold Source.tokens at hfirst hsecond
  split at hfirst
  · rename_i ps hps
    obtain ⟨rfl, -⟩ := List.append_inj' (Except.ok.inj hfirst) rfl
    split at hsecond
    · rename_i qs hqs
      obtain ⟨rfl, -⟩ := List.append_inj' (Except.ok.inj hsecond) rfl
      have hjoint : piecesFrom 0 (0 + byteLength first.chars) (whole.ending.terminator ++ second.chars) =
          .ok (qs.map (Piece.moved (gap whole first))) := by
        rw [piecesFrom_blank whole.ending.terminator_blank, LineEnding.byteLength_terminator, Nat.add_assoc]
        exact piecesFrom_moved _ hqs
      have hpieces : pieces whole.chars = .ok (ps ++ qs.map (Piece.moved (gap whole first))) := by
        rw [pieces, h.text]
        exact piecesFrom_append hps (fun _ _ => .of_isLineBreak (whole.ending.terminator_breaks _)) hjoint
      have hplaced : ∀ p ∈ ps, whole.place p = first.place p := by
        intro p hp
        have hend : p.offset + p.text.utf8ByteSize ≤ byteLength first.chars := by
          have hbound := (hlaid.bounds _ (List.mem_map_of_mem hp)).2
          rwa [Nat.zero_add] at hbound
        rw [place, place, h.locate_first (by omega), h.locate_first hend]
      have hmoved (p : Piece) : whole.place (p.moved (gap whole first)) =
          (second.place p).moved (gap whole first) first.lineCount := by
        have hstop : p.offset + gap whole first + p.text.utf8ByteSize =
            p.offset + p.text.utf8ByteSize + gap whole first := Nat.add_right_comm ..
        simp only [place, Piece.moved, Token.moved, hstop, h.locate_second]
      rw [Source.tokens, hpieces]
      dsimp only
      rw [List.map_append, List.map_congr_left hplaced, List.map_map, List.map_map]
      exact congrArg (fun us => Except.ok (_ ++ us ++ _)) (List.map_congr_left fun p _ => hmoved p)
    · cases hsecond
  · cases hfirst

end SystemVerilog
