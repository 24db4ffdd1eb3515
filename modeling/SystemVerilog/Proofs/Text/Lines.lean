import SystemVerilog.Proofs.Concatenation.Tokens

/-!
# The table of lines

A text is cut at the terminators that a search from the left finds, one behind the other. So its lines joined with
the terminator are the text again, and none of them holds a terminator. A place counts the lines before it and the
bytes in its own line: the offset is told from the place, and offsets and places have the same order.
-/

namespace SystemVerilog

/-! ### Cutting a text -/

namespace LineEnding

variable {ending : LineEnding} {line cs rest : List Char} {c : Char}

theorem terminator_ne_nil (ending : LineEnding) : ending.terminator ≠ [] := by
  cases ending <;> decide

/-- A character at which no terminator starts belongs to its line. -/
theorem linesFrom_of_unmatched (h : ¬ending.terminator <+: c :: rest) (line : List Char) :
    ending.linesFrom line (c :: rest) = ending.linesFrom (c :: line) rest := by
  apply linesFrom_step
  · intro hc
    exact h ⟨rest, by rw [hc, List.singleton_append]⟩
  · rintro rfl rfl more rfl
    exact h ⟨more, rfl⟩

/-- The search for terminators either ends with the text, cuts it at a terminator or passes over a character. -/
theorem linesFrom_induction (ending : LineEnding) {motive : List Char → List Char → Prop}
    (last : ∀ line, motive line [])
    (cuts : ∀ line rest, motive [] rest → motive line (ending.terminator ++ rest))
    (passes : ∀ line c rest, ¬ending.terminator <+: c :: rest → motive (c :: line) rest → motive line (c :: rest))
    (line cs : List Char) : motive line cs := by
  induction hn : cs.length using Nat.strongRecOn generalizing line cs with
  | ind n ih =>
    cases cs with
    | nil => exact last line
    | cons c rest =>
      by_cases h : ending.terminator <+: c :: rest
      · obtain ⟨more, hmore⟩ := h
        have hpos := List.length_pos_iff.2 ending.terminator_ne_nil
        have hlen := congrArg List.length hmore
        rw [List.length_append] at hlen
        rw [← hmore]
        exact cuts line more (ih more.length (by omega) [] more rfl)
      · rw [List.length_cons] at hn
        exact passes line c rest h (ih rest.length (by omega) (c :: line) rest rfl)

/-- The lines joined with the terminator are the text. -/
theorem intercalate_linesFrom (line cs : List Char) :
    ending.terminator.intercalate (ending.linesFrom line cs) = line.reverse ++ cs := by
  induction line, cs using linesFrom_induction ending with
  | last line => simp [linesFrom]
  | cuts line rest ih =>
    rw [linesFrom_terminator, List.intercalate_cons_of_ne_nil (linesFrom_ne_nil _ _ _), ih, List.reverse_nil,
      List.nil_append, List.append_assoc]
  | passes line c rest h ih =>
    rw [linesFrom_of_unmatched h, ih, List.reverse_cons, List.append_assoc, List.singleton_append]

/-- No terminator starts in front of what is still to be searched. -/
def SearchedUpTo (ending : LineEnding) (line cs : List Char) : Prop :=
  ∀ us vs, line.reverse ++ cs = us ++ (ending.terminator ++ vs) → line.length ≤ us.length

theorem SearchedUpTo.pass (h : SearchedUpTo ending line (c :: rest)) (hc : ¬ending.terminator <+: c :: rest) :
    SearchedUpTo ending (c :: line) rest := by
  intro us vs heq
  rw [List.reverse_cons, List.append_assoc, List.singleton_append] at heq
  have hle := h us vs heq
  refine Nat.lt_of_le_of_ne hle fun hlen => hc ?_
  obtain ⟨-, hrest⟩ := List.append_inj heq (by rw [List.length_reverse, hlen])
  exact ⟨vs, hrest.symm⟩

/-- A line that has been searched holds no terminator. -/
theorem SearchedUpTo.not_infix (h : SearchedUpTo ending line cs) : ¬ending.terminator <:+: line.reverse := by
  rintro ⟨us, vs, heq⟩
  have hle := h us (vs ++ cs) (by rw [← heq, List.append_assoc, List.append_assoc])
  have hpos := List.length_pos_iff.2 ending.terminator_ne_nil
  have hlen := congrArg List.length heq
  rw [List.length_append, List.length_append, List.length_reverse] at hlen
  omega

theorem not_infix_of_mem_linesFrom (h : SearchedUpTo ending line cs) :
    ∀ l ∈ ending.linesFrom line cs, ¬ending.terminator <:+: l := by
  induction line, cs using linesFrom_induction ending with
  | last line =>
    intro l hl
    obtain rfl := List.mem_singleton.1 hl
    exact h.not_infix
  | cuts line rest ih =>
    intro l hl
    rw [linesFrom_terminator] at hl
    rcases List.mem_cons.1 hl with rfl | hl
    · exact h.not_infix
    · exact ih (fun _ _ _ => Nat.zero_le _) l hl
  | passes line c rest hc ih =>
    intro l hl
    rw [linesFrom_of_unmatched hc] at hl
    exact ih (h.pass hc) l hl

end LineEnding

/-! ### Places -/

/-- The order of places in a text: by lines, then by columns. -/
def Location.Before (place later : Location) : Prop :=
  place.line < later.line ∨ place.line = later.line ∧ place.column < later.column

theorem Location.Before.irrefl (place : Location) : ¬place.Before place := by
  rintro (h | ⟨-, h⟩)
  · exact Nat.lt_irrefl _ h
  · exact Nat.lt_irrefl _ h

/-- The number of bytes that lines take up with a terminator of `gap` bytes behind each. -/
def bytesOf (gap : Nat) : List String → Nat
  | [] => 0
  | line :: lines => line.utf8ByteSize + gap + bytesOf gap lines

@[simp] theorem bytesOf_nil (gap : Nat) : bytesOf gap [] = 0 := rfl

@[simp] theorem bytesOf_cons (gap : Nat) (line : String) (lines : List String) :
    bytesOf gap (line :: lines) = line.utf8ByteSize + gap + bytesOf gap lines := rfl

/-- More lines take up more bytes. -/
theorem bytesOf_take_le (gap : Nat) (lines : List String) {i j : Nat} (h : i ≤ j) :
    bytesOf gap (lines.take i) ≤ bytesOf gap (lines.take j) := by
  induction lines generalizing i j with
  | nil => simp
  | cons line lines ih =>
    cases i with
    | zero => simp
    | succ i =>
      obtain ⟨j, rfl⟩ : ∃ k, j = k + 1 := ⟨j - 1, by omega⟩
      have hrest := ih (Nat.le_of_succ_le_succ h)
      rw [List.take_succ_cons, List.take_succ_cons, bytesOf_cons, bytesOf_cons]
      omega

theorem bytesOf_take_succ {gap i : Nat} {lines : List String} {line : String} (h : lines[i]? = some line) :
    bytesOf gap (lines.take (i + 1)) = bytesOf gap (lines.take i) + (line.utf8ByteSize + gap) := by
  induction lines generalizing i with
  | nil => cases h
  | cons first lines ih =>
    cases i with
    | zero =>
      obtain rfl := Option.some.inj h
      rw [List.take_succ_cons, bytesOf_cons, List.take_zero, List.take_zero, bytesOf_nil, Nat.add_comm]
    | succ i =>
      rw [List.take_succ_cons, bytesOf_cons, ih h, List.take_succ_cons, bytesOf_cons, ← Nat.add_assoc]

/-- The place lies in the line at an index, behind the bytes of all lines before it. Unless the line is the last
one, it lies in front of the next line. -/
structure PlacedIn (gap number offset : Nat) (lines : List String) (place : Location) (i : Nat) (line : String) :
    Prop where
  line_eq : place.line = number + i
  there : lines[i]? = some line
  column_pos : 0 < place.column
  offset_eq : offset + 1 = bytesOf gap (lines.take i) + place.column
  inside : i + 1 < lines.length → place.column ≤ line.utf8ByteSize + gap

theorem Source.locateFrom_placedIn (gap number offset : Nat) {lines : List String} (hne : lines ≠ []) :
    ∃ i line, PlacedIn gap number offset lines (Source.locateFrom gap number offset lines) i line := by
  fun_induction Source.locateFrom gap number offset lines with
  | case1 number offset => exact absurd rfl hne
  | case2 number offset line =>
    exact ⟨0, line, rfl, rfl, Nat.succ_pos _, by simp, fun h => absurd h (Nat.lt_irrefl 1)⟩
  | case3 number offset line next rest hin => exact ⟨0, line, rfl, rfl, Nat.succ_pos _, by simp, fun _ => hin⟩
  | case4 number offset line next rest hout ih =>
    obtain ⟨i, found, hline, hthere, hpos, hoffset, hinside⟩ := ih (List.cons_ne_nil next rest)
    refine ⟨i + 1, found, ?_, hthere, hpos, ?_, fun h => hinside (Nat.lt_of_succ_lt_succ h)⟩
    · rw [hline, Nat.add_assoc, Nat.add_comm 1 i]
    · rw [List.take_succ_cons, bytesOf_cons]
      omega

/-- Places further on belong to later offsets. -/
theorem PlacedIn.offset_lt {gap number offset offset' i j : Nat} {lines : List String} {place place' : Location}
    {line line' : String} (h : PlacedIn gap number offset lines place i line)
    (h' : PlacedIn gap number offset' lines place' j line') (hij : i < j) : offset < offset' := by
  have hj : j < lines.length := (List.getElem?_eq_some_iff.1 h'.there).1
  have hcolumn := h.inside (by omega)
  have hbytes := bytesOf_take_le gap lines (Nat.succ_le_of_lt hij)
  rw [Nat.succ_eq_add_one, bytesOf_take_succ h.there] at hbytes
  have hoffset := h.offset_eq
  have hoffset' := h'.offset_eq
  have hpos' := h'.column_pos
  omega

theorem PlacedIn.before {gap number offset offset' i j : Nat} {lines : List String} {place place' : Location}
    {line line' : String} (h : PlacedIn gap number offset lines place i line)
    (h' : PlacedIn gap number offset' lines place' j line') (hlt : offset < offset') : place.Before place' := by
  rcases Nat.lt_trichotomy i j with hij | rfl | hji
  · refine .inl ?_
    rw [h.line_eq, h'.line_eq]
    omega
  · refine .inr ⟨by rw [h.line_eq, h'.line_eq], ?_⟩
    have hoffset := h.offset_eq
    have hoffset' := h'.offset_eq
    omega
  · exact absurd (h'.offset_lt h hji) (Nat.lt_asymm hlt)

/-! ### The table -/

namespace Source

/-- The number of bytes of the lines before a line, with their terminators. -/
def bytesBefore (source : Source) (number : Nat) : Nat := bytesOf source.ending.width (source.lines.take (number - 1))

/-- The lines of a source are numbered from one, and joined with the terminator they are the text. Every offset has
a place in one of them, which counts the bytes before it, and places are in the order of the offsets. An offset
behind the text counts on in the last line. -/
structure Tabled (source : Source) : Prop where
  /-- All lines are there. -/
  numbered : (List.range' 1 source.lineCount).map source.line? = source.lines.map some
  /-- There are no others. -/
  absent : ∀ n, n = 0 ∨ source.lineCount < n → source.line? n = none
  joined : (String.ofList source.ending.terminator).intercalate source.lines = source.text
  unbroken : ∀ line ∈ source.lines, ¬source.ending.terminator <:+: line.toList
  within : ∀ offset, 1 ≤ (source.locate offset).line ∧ (source.locate offset).line ≤ source.lineCount
  counted : ∀ offset, 1 ≤ (source.locate offset).column ∧
    offset = source.bytesBefore (source.locate offset).line + ((source.locate offset).column - 1)
  /-- A terminator belongs to the line that it ends. -/
  inside : ∀ offset, (source.locate offset).line < source.lineCount →
    ∃ line, source.line? (source.locate offset).line = some line ∧
      (source.locate offset).column ≤ line.utf8ByteSize + source.ending.width
  ordered : ∀ offset later, offset < later → (source.locate offset).Before (source.locate later)
  injective : Function.Injective source.locate

variable {source : Source}

theorem lines_ne_nil (source : Source) : source.lines ≠ [] := List.ne_nil_of_length_pos source.lineCount_pos

theorem map_line?_eq (source : Source) :
    (List.range' 1 source.lineCount).map source.line? = source.lines.map some := by
  apply List.ext_getElem?
  intro i
  rw [List.getElem?_map, List.getElem?_map]
  rcases Nat.lt_or_ge i source.lineCount with hi | hi
  · rw [List.getElem?_range' hi, Option.map_some, Nat.one_mul, Nat.add_comm]
    show some source.lines[i]? = _
    rw [List.getElem?_eq_getElem hi, Option.map_some]
  · rw [List.getElem?_eq_none (by rw [List.length_range']; exact hi), List.getElem?_eq_none hi]
    rfl

theorem intercalate_lines (source : Source) :
    (String.ofList source.ending.terminator).intercalate source.lines = source.text := by
  have hlines : source.lines.map String.toList = source.ending.lines source.chars := by
    rw [source.lines_eq, List.map_map]
    exact List.map_id'' (fun _ => String.toList_ofList) _
  apply String.toList_inj.1
  rw [String.toList_intercalate, hlines, String.toList_ofList, LineEnding.lines, LineEnding.intercalate_linesFrom]
  rfl

theorem not_infix_of_mem_lines : ∀ line ∈ source.lines, ¬source.ending.terminator <:+: line.toList := by
  intro line hline
  rw [source.lines_eq] at hline
  obtain ⟨l, hl, rfl⟩ := List.mem_map.1 hline
  rw [String.toList_ofList]
  exact LineEnding.not_infix_of_mem_linesFrom (fun _ _ _ => Nat.zero_le _) l hl

/-- An offset lies in a line of the source. -/
theorem exists_placedIn (source : Source) (offset : Nat) :
    ∃ i line, PlacedIn source.ending.width 1 offset source.lines (source.locate offset) i line :=
  locateFrom_placedIn _ _ _ source.lines_ne_nil

theorem locate_before {offset later : Nat} (h : offset < later) :
    (source.locate offset).Before (source.locate later) := by
  obtain ⟨i, line, hplaced⟩ := source.exists_placedIn offset
  obtain ⟨j, line', hplaced'⟩ := source.exists_placedIn later
  exact hplaced.before hplaced' h

/-- The table of the lines of a source is exact. -/
theorem lines_tabled (source : Source) : source.Tabled := by
  constructor
  case numbered => exact source.map_line?_eq
  case absent =>
    rintro n (rfl | hn)
    · rfl
    · obtain ⟨n, rfl⟩ : ∃ k, n = k + 1 := ⟨n - 1, by omega⟩
      exact List.getElem?_eq_none (Nat.le_of_lt_succ hn)
  case joined => exact source.intercalate_lines
  case unbroken => exact not_infix_of_mem_lines
  case within =>
    intro offset
    obtain ⟨i, line, hplaced⟩ := source.exists_placedIn offset
    have hi : i < source.lineCount := (List.getElem?_eq_some_iff.1 hplaced.there).1
    rw [hplaced.line_eq]
    omega
  case counted =>
    intro offset
    obtain ⟨i, line, hplaced⟩ := source.exists_placedIn offset
    have hpos := hplaced.column_pos
    have hoffset := hplaced.offset_eq
    refine ⟨hpos, ?_⟩
    rw [bytesBefore, hplaced.line_eq, Nat.add_sub_cancel_left]
    omega
  case inside =>
    intro offset hlast
    obtain ⟨i, line, hplaced⟩ := source.exists_placedIn offset
    rw [hplaced.line_eq] at hlast ⊢
    refine ⟨line, ?_, hplaced.inside ?_⟩
    · rw [Nat.add_comm]
      exact hplaced.there
    · rw [Nat.add_comm]
      exact hlast
  case ordered => exact fun _ _ => locate_before
  case injective =>
    intro offset other heq
    rcases Nat.lt_trichotomy offset other with h | h | h
    · exact absurd (heq ▸ locate_before h) (Location.Before.irrefl _)
    · exact h
    · exact absurd (heq ▸ locate_before h) (Location.Before.irrefl _)

/-- Under CRLF a lone return or feed is text, and an offset between the two bytes of a terminator lies behind the
first of them. -/
example : let source : Source := { path := "a.sv", text := "a\r\r\n\nb\r\n", ending := .crlf }
    source.lines = ["a\r", "\nb", ""] ∧ source.locate 3 = ⟨1, 4⟩ ∧ source.locate 4 = ⟨2, 1⟩ ∧
      source.locate 8 = ⟨3, 1⟩ := by
  decide

end Source

end SystemVerilog
