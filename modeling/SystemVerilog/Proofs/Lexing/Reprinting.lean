import SystemVerilog.Proofs.Lexing.Written

/-!
# Lexemes are read back from every layout

The lexemes of a text can be written again with other blanks between them, as long as there is a blank
between any two and the line of a line comment is broken: the text that comes of it is cut into the same
lexemes.
-/

namespace SystemVerilog

/-! ### Layouts -/

/-- Blanks that separate each token from what is behind it: there are some wherever another token
follows, and behind a line comment they start with a line break. -/
def Spaced : List (Token × List Char) → Prop
  | [] => True
  | (t, gap) :: rest => Blank gap ∧ (gap = [] → rest = []) ∧
      (t.kind = .lineComment → gap = [] ∨ startsWith isLineBreak gap = true) ∧ Spaced rest

instance : DecidablePred Blank := fun cs => List.decidableBAll (fun c => isBlank c = true) cs

instance decidableSpaced : DecidablePred Spaced
  | [] => isTrue trivial
  | (t, gap) :: rest =>
    have := decidableSpaced rest
    inferInstanceAs (Decidable (Blank gap ∧ (gap = [] → rest = []) ∧
      (t.kind = .lineComment → gap = [] ∨ startsWith isLineBreak gap = true) ∧ Spaced rest))

/-- The texts of tokens, each in front of its blanks. -/
def layoutOf (parts : List (Token × List Char)) : List Char :=
  parts.flatMap fun part => part.1.text.toList ++ part.2

@[simp] theorem layoutOf_cons (t : Token) (gap : List Char) (rest : List (Token × List Char)) :
    layoutOf ((t, gap) :: rest) = t.text.toList ++ (gap ++ layoutOf rest) := by
  simp [layoutOf]

/-- What stands behind a token in a layout separates it. -/
theorem Spaced.separates {t : Token} {gap : List Char} {rest : List (Token × List Char)}
    (h : Spaced ((t, gap) :: rest)) : Separates t.kind (gap ++ layoutOf rest) := by
  obtain ⟨hblank, hlast, hbroken, -⟩ := h
  cases gap with
  | nil =>
    obtain rfl := hlast rfl
    exact ⟨.nil, fun _ _ _ hnil => by cases hnil⟩
  | cons c cs =>
    refine ⟨fun d more hd => ?_, fun hline d more hd => ?_⟩
    · obtain ⟨rfl, -⟩ := List.cons.inj hd
      exact hblank c (List.mem_cons_self ..)
    · obtain ⟨rfl, -⟩ := List.cons.inj hd
      rcases hbroken hline with hnil | hbreak
      · cases hnil
      · exact hbreak

/-! ### Reading a layout -/

/-- Blanks at the head of a text are passed over. -/
theorem piecesFrom_blank {gap : List Char} (h : Blank gap) (offset : Nat) (cs : List Char) :
    piecesFrom 0 offset (gap ++ cs) = piecesFrom 0 (offset + byteLength gap) cs := by
  induction gap generalizing offset with
  | nil => rfl
  | cons c gap ih =>
    obtain ⟨hc, hgap⟩ := List.forall_mem_cons.1 h
    rw [List.cons_append, piecesFrom, if_pos hc, ih hgap, byteLength_cons, Nat.add_assoc]

/-- Lexemes that are recognised on their own are the pieces of every layout of theirs. -/
theorem piecesFrom_layoutOf {parts : List (Token × List Char)}
    (hscans : ∀ part ∈ parts, part.1.toLexeme.Scans) (hspaced : Spaced parts) (offset : Nat) :
    ∃ ps : List Piece, piecesFrom 0 offset (layoutOf parts) = .ok ps ∧
      ps.map Piece.toLexeme = parts.map fun part => part.1.toLexeme := by
  induction parts generalizing offset with
  | nil => exact ⟨[], rfl, rfl⟩
  | cons part rest ih =>
    obtain ⟨t, gap⟩ := part
    obtain ⟨hscan, hrest⟩ := List.forall_mem_cons.1 hscans
    have hlead : t.toLexeme.Leads (gap ++ layoutOf rest) := hscan.leads hspaced.separates
    obtain ⟨hblank, -, -, htail⟩ := hspaced
    obtain ⟨ps, hps, hmap⟩ := ih hrest htail (offset + t.text.utf8ByteSize + byteLength gap)
    refine ⟨⟨t.toLexeme, offset⟩ :: ps, ?_, by rw [List.map_cons, hmap, List.map_cons]⟩
    rw [layoutOf_cons, piecesFrom_lead hlead, piecesFrom_blank hblank, hps]
    rfl

/-- Every token of a source but the end mark is recognised on its own. -/
theorem Source.scans_of_mem_tokens {source : Source} {ts : List Token} {mark : Token}
    (h : source.tokens = .ok (ts ++ [mark])) : mark = source.endMark ∧ ∀ t ∈ ts, t.toLexeme.Scans := by
  unfold Source.tokens at h
  split at h
  · rename_i ps hps
    obtain ⟨rfl, hmark⟩ := List.append_inj' (Except.ok.inj h) rfl
    refine ⟨(List.cons.inj hmark).1.symm, fun t ht => ?_⟩
    obtain ⟨p, hp, rfl⟩ := List.mem_map.1 ht
    refine forall_piecesFrom (P := Lexeme.Scans) ?_ hps p hp
    intro c cs kind n hblank hscan
    obtain ⟨-, hpos, hle⟩ := scanLexeme_fits hscan
    obtain ⟨m, rfl⟩ : ∃ m, n = m + 1 := ⟨n - 1, by omega⟩
    have hrelaid : scanLexeme c (cs.take m ++ []) = .ok (kind, m + 1) :=
      scanLexeme_relaid hscan ⟨.nil, fun _ _ _ hnil => by cases hnil⟩
    have hlength : (cs.take m).length = m := by
      rw [List.length_cons] at hle
      rw [List.length_take, Nat.min_eq_left (by omega)]
    refine ⟨c, cs.take m, by rw [String.toList_ofList, List.take_succ_cons], hblank, ?_⟩
    rw [hlength]
    exact hrelaid
  · cases h

/-- The lexemes of a text, laid out with any separating blanks, are read back with their kinds and
texts in their order. -/
theorem tokens_respaced {source respaced : Source} {lead : List Char}
    {parts : List (Token × List Char)} {mark : Token}
    (h : source.tokens = .ok (parts.map Prod.fst ++ [mark])) (hlead : Blank lead) (hparts : Spaced parts)
    (htext : respaced.chars = lead ++ layoutOf parts) : ∃ ts, respaced.tokens = .ok ts ∧
      ts.map Token.toLexeme = (parts.map Prod.fst ++ [mark]).map Token.toLexeme := by
  obtain ⟨rfl, hscans⟩ := Source.scans_of_mem_tokens h
  obtain ⟨ps, hps, hmap⟩ := piecesFrom_layoutOf
    (fun part hpart => hscans _ (List.mem_map_of_mem hpart)) hparts (0 + byteLength lead)
  have hpieces : pieces respaced.chars = .ok ps := by
    rw [pieces, htext, piecesFrom_blank hlead, hps]
  refine ⟨ps.map respaced.place ++ [respaced.endMark], by rw [Source.tokens, hpieces], ?_⟩
  have hplaced : (ps.map respaced.place).map Token.toLexeme = ps.map Piece.toLexeme := by
    rw [List.map_map]
    rfl
  have hmarks : respaced.endMark.toLexeme = source.endMark.toLexeme := rfl
  rw [List.map_append, List.map_append, hplaced, hmap, List.map_map]
  simp [hmarks]

/-- A number that touches a comment, behind which a name follows on the next line. -/
theorem tokens_respaced_comment :
    let source : Source := { path := "<input>", text := "1.5//c\n$x", ending := .lf }
    let respaced : Source := { path := "<input>", text := "\x0b1.5\t//c\r\x0c$ \nx", ending := .crlf }
    let parts : List (Token × List Char) :=
      [(⟨⟨.literal, "1.5"⟩, 0, ⟨1, 1⟩, ⟨1, 4⟩⟩, ['\t']),
        (⟨⟨.lineComment, "//c"⟩, 3, ⟨1, 4⟩, ⟨1, 7⟩⟩, ['\r', '\x0c']),
        (⟨⟨.op .dollar, "$"⟩, 7, ⟨2, 1⟩, ⟨2, 2⟩⟩, [' ', '\n']),
        (⟨⟨.identifier, "x"⟩, 8, ⟨2, 2⟩, ⟨2, 3⟩⟩, [])]
    source.tokens = .ok (parts.map Prod.fst ++ [source.endMark]) ∧ Blank ['\x0b'] ∧ Spaced parts ∧
      respaced.chars = ['\x0b'] ++ layoutOf parts ∧ ∃ ts, respaced.tokens = .ok ts ∧
        ts.map Token.toLexeme = (parts.map Prod.fst ++ [source.endMark]).map Token.toLexeme := by
  intro source respaced parts
  have hread : source.tokens = .ok (parts.map Prod.fst ++ [source.endMark]) := by
    unfold source parts
    rfl
  have hlead : Blank ['\x0b'] := by decide
  have hparts : Spaced parts := by decide
  have htext : respaced.chars = ['\x0b'] ++ layoutOf parts := by decide
  exact ⟨hread, hlead, hparts, htext, tokens_respaced hread hlead hparts htext⟩

end SystemVerilog
