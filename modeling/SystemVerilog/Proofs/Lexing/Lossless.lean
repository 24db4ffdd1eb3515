import SystemVerilog.Lexical.Tokens
import SystemVerilog.Proofs.Lexing.Laid
import SystemVerilog.Proofs.Lexing.Recognition

/-!
# Nothing is lost between lexemes

The pieces of a text are laid out in it with only blanks around them. The tokens of a source are its
pieces with their places and the end mark behind them, so all bytes of the source are bytes of a token
or blanks, and the source can be put together again from its tokens.
-/

namespace SystemVerilog

/-- Only blanks. -/
def Blank (cs : List Char) : Prop := ∀ c ∈ cs, isBlank c = true

theorem Blank.cons {c : Char} {cs : List Char} (hc : isBlank c = true) (hcs : Blank cs) :
    Blank (c :: cs) := List.forall_mem_cons.2 ⟨hc, hcs⟩

/-! ### Pieces -/

/-- The characters of a lexeme that has been found are passed over. -/
theorem piecesFrom_pending {n : Nat} (offset : Nat) {cs : List Char} (h : n ≤ cs.length) :
    piecesFrom n offset cs = piecesFrom 0 (offset + byteLength (cs.take n)) (cs.drop n) := by
  induction n generalizing offset cs with
  | zero => rfl
  | succ n ih =>
    cases cs with
    | nil => simp at h
    | cons c cs =>
      rw [piecesFrom, ih _ (Nat.le_of_succ_le_succ h), List.take_succ_cons, byteLength_cons,
        List.drop_succ_cons, Nat.add_assoc]

/-- The pieces of a text that starts with a lexeme. -/
theorem piecesFrom_cons_eq_ok {offset : Nat} {c : Char} {cs : List Char} {ps : List Piece}
    (hc : isBlank c = false) : piecesFrom 0 offset (c :: cs) = .ok ps ↔
      ∃ kind n rest, scanLexeme c cs = .ok (kind, n) ∧
        piecesFrom (n - 1) (offset + c.utf8Size) cs = .ok rest ∧
        ps = ⟨⟨kind, String.ofList ((c :: cs).take n)⟩, offset⟩ :: rest := by
  rw [piecesFrom, if_neg (by simp [hc])]
  constructor
  · intro h
    split at h
    · cases h
    · rename_i kind n hscan
      cases hrest : piecesFrom (n - 1) (offset + c.utf8Size) cs with
      | error stop =>
        rw [hrest] at h
        cases h
      | ok rest =>
        rw [hrest] at h
        exact ⟨kind, n, rest, hscan, hrest, (Except.ok.inj h).symm⟩
  · rintro ⟨kind, n, rest, hscan, hrest, rfl⟩
    rw [hscan]
    dsimp only
    rw [hrest]
    rfl

/-- Blanks before a layout belong to its first gap. -/
theorem Laid.blank {c : Char} {offset : Nat} {ts : List Token} {cs : List Char}
    (hc : isBlank c = true) (h : Laid Blank (offset + c.utf8Size) ts cs) :
    Laid Blank offset ts (c :: cs) := by
  cases h with
  | done hg => exact .done (hg.cons hc)
  | @next _ g cs t ts hg hoffset hne hlaid =>
    refine .next (g := c :: g) (hg.cons hc) ?_ hne hlaid
    rw [hoffset, byteLength_cons, Nat.add_assoc]

/-- A lexeme before a layout is laid out with it. -/
theorem laid_cons (source : Source) {c : Char} {cs : List Char} {n offset : Nat} {kind : TokenKind}
    {ps : List Piece} (htake : (c :: cs).take n = c :: cs.take (n - 1))
    (h : Laid Blank (offset + c.utf8Size + byteLength (cs.take (n - 1))) (ps.map source.place)
      (cs.drop (n - 1))) :
    Laid Blank offset
      ((⟨⟨kind, String.ofList ((c :: cs).take n)⟩, offset⟩ :: ps).map source.place) (c :: cs) := by
  let t := source.place ⟨⟨kind, String.ofList ((c :: cs).take n)⟩, offset⟩
  have htext : t.text.toList = c :: cs.take (n - 1) := by
    rw [← htake]
    exact String.toList_ofList
  have hne : t.text ≠ "" := by
    intro hempty
    rw [hempty] at htext
    cases htext
  have hend : t.endOffset = offset + c.utf8Size + byteLength (cs.take (n - 1)) := by
    rw [Laid.endOffset_eq, htext, byteLength_cons, ← Nat.add_assoc]
    rfl
  have hlaid : Laid Blank offset (t :: ps.map source.place) ([] ++ (t.text.toList ++ cs.drop (n - 1))) :=
    .next (by simp [Blank]) rfl hne (hend ▸ h)
  rw [htext] at hlaid
  simpa using hlaid

/-- The pieces of a text are laid out in it, and none is an end mark. -/
theorem laid_piecesFrom (source : Source) {offset : Nat} {cs : List Char} {ps : List Piece}
    (h : piecesFrom 0 offset cs = .ok ps) :
    Laid Blank offset (ps.map source.place) cs ∧ ∀ p ∈ ps, p.kind ≠ .eof := by
  -- by the length of the text: a lexeme may be any leading part of it
  induction hlen : cs.length using Nat.strongRecOn generalizing offset cs ps with
  | ind len ih =>
    subst hlen
    cases cs with
    | nil =>
      cases h
      exact ⟨.done (by simp [Blank]), by simp⟩
    | cons c cs =>
      cases hblank : isBlank c with
      | true =>
        rw [piecesFrom, if_pos hblank] at h
        obtain ⟨hlaid, heof⟩ := ih _ (Nat.lt_succ_self _) h rfl
        exact ⟨hlaid.blank hblank, heof⟩
      | false =>
        obtain ⟨kind, n, rest, hscan, hrest, rfl⟩ := (piecesFrom_cons_eq_ok hblank).1 h
        obtain ⟨hkind, hpos, hle⟩ := scanLexeme_fits hscan
        have hle' : n - 1 ≤ cs.length := by
          rw [List.length_cons] at hle
          omega
        rw [piecesFrom_pending _ hle'] at hrest
        have hlt : (cs.drop (n - 1)).length < (c :: cs).length := by
          rw [List.length_drop, List.length_cons]
          omega
        obtain ⟨hlaid, heof⟩ := ih _ hlt hrest rfl
        refine ⟨?_, List.forall_mem_cons.2 ⟨hkind, heof⟩⟩
        have htake : (c :: cs).take n = c :: cs.take (n - 1) := by
          rw [← List.take_succ_cons, Nat.sub_add_cancel hpos]
        exact laid_cons source htake hlaid

/-- What holds of every lexeme that leads a text holds of all pieces. -/
theorem forall_piecesFrom {P : Lexeme → Prop}
    (hP : ∀ {c cs kind n}, isBlank c = false → scanLexeme c cs = .ok (kind, n) →
      P ⟨kind, String.ofList ((c :: cs).take n)⟩)
    {pending offset : Nat} {cs : List Char} {ps : List Piece} (h : piecesFrom pending offset cs = .ok ps) :
    ∀ p ∈ ps, P p.toLexeme := by
  induction cs generalizing pending offset ps with
  | nil =>
    cases h
    simp
  | cons c cs ih =>
    cases pending with
    | succ n => exact ih h
    | zero =>
      cases hblank : isBlank c with
      | true =>
        rw [piecesFrom, if_pos hblank] at h
        exact ih h
      | false =>
        obtain ⟨kind, n, rest, hscan, hrest, rfl⟩ := (piecesFrom_cons_eq_ok hblank).1 h
        exact List.forall_mem_cons.2 ⟨hP hblank hscan, ih hrest⟩

/-! ### Tokens -/

/-- The bytes of the blank characters: space, tab, line feed, vertical tab, form feed and carriage
return. -/
def blankBytes : List UInt8 := [0x20, 0x09, 0x0a, 0x0b, 0x0c, 0x0d]

theorem blankBytes_of_isBlank {c : Char} (h : isBlank c = true) :
    ∃ b ∈ blankBytes, String.utf8EncodeChar c = [b] := by
  simp only [isBlank, Bool.or_eq_true, beq_iff_eq] at h
  rcases h with ((((rfl | rfl) | rfl) | rfl) | rfl) | rfl
  · exact ⟨0x20, by decide, rfl⟩
  · exact ⟨0x09, by decide, rfl⟩
  · exact ⟨0x0a, by decide, rfl⟩
  · exact ⟨0x0b, by decide, rfl⟩
  · exact ⟨0x0c, by decide, rfl⟩
  · exact ⟨0x0d, by decide, rfl⟩

/-- Every byte of a blank part of a text is the byte of a blank. -/
theorem byte_of_blank {text left g right : List Char} (htext : text = left ++ g ++ right)
    (hg : Blank g) {i : Nat} (hi : byteLength left ≤ i) (hi' : i < byteLength left + byteLength g)
    (h : i < text.utf8Encode.size) : text.utf8Encode[i] ∈ blankBytes := by
  induction g generalizing left with
  | nil =>
    simp only [byteLength_nil] at hi'
    omega
  | cons c g ih =>
    obtain ⟨b, hb, hc⟩ := blankBytes_of_isBlank (hg c (by simp))
    have hsize : c.utf8Size = 1 := by rw [← String.length_utf8EncodeChar, hc, List.length_singleton]
    by_cases hhead : i = byteLength left
    · have hbytes : text.utf8Encode = left.utf8Encode ++ ([b].toByteArray ++ (g ++ right).utf8Encode) := by
        rw [htext, List.append_assoc, List.utf8Encode_append, List.cons_append, List.utf8Encode_cons,
          List.utf8Encode_singleton, hc]
      have hleft : left.utf8Encode.size ≤ i := Nat.le_of_eq (by rw [size_utf8Encode, hhead])
      simp only [hbytes]
      rw [ByteArray.getElem_append_right hleft]
      simp only [size_utf8Encode, hhead, Nat.sub_self]
      rw [ByteArray.getElem_append_left (by simp)]
      simpa using hb
    · have hlen : byteLength (left ++ [c]) = byteLength left + 1 := by
        simp [hsize]
      refine ih (show text = (left ++ [c]) ++ g ++ right by simp [htext]) (fun d hd => hg d (by simp [hd])) ?_ ?_
      · omega
      · rw [byteLength_cons] at hi'
        omega

/-- What it means that the tokens of a source keep all of it. -/
structure Lossless (source : Source) (tokens : List Token) : Prop where
  /-- The text of a token is what stands in the source between its offsets. -/
  bytes : ∀ t ∈ tokens,
    t.text.toByteArray = source.text.toByteArray.extract t.offset t.endOffset
  nonempty : ∀ t ∈ tokens, t.kind ≠ .eof → t.offset < t.endOffset
  /-- The spans come in increasing order and are disjoint. -/
  ordered : tokens.Pairwise fun t u => t.offset < u.offset ∧ t.endOffset ≤ u.offset
  /-- A byte in no span is a blank. -/
  blank : ∀ (i : Nat) (hi : i < source.text.toByteArray.size),
    (∀ t ∈ tokens, ¬(t.offset ≤ i ∧ i < t.endOffset)) → source.text.toByteArray[i] ∈ blankBytes
  /-- The end mark closes the list, and there is no other. -/
  finish : ∃ front last, tokens = front ++ [last] ∧ (∀ t ∈ front, t.kind ≠ .eof) ∧
    last.kind = .eof ∧ last.text = "" ∧ last.offset = source.text.utf8ByteSize
  places : ∀ t ∈ tokens,
    t.location = source.locate t.offset ∧ t.stop = source.locate t.endOffset
  /-- The source is the texts of its tokens, each with blanks before it. -/
  woven : ∃ gaps : List (List Char), gaps.length = tokens.length ∧ (∀ g ∈ gaps, Blank g) ∧
    source.chars = (List.zipWith (fun g t => g ++ t.text.toList) gaps tokens).flatten

theorem tokens_eq_ok {source : Source} {tokens : List Token} (h : source.tokens = .ok tokens) :
    ∃ front, tokens = front ++ [source.endMark] ∧ Laid Blank 0 front source.chars ∧
      (∀ t ∈ front, t.kind ≠ .eof) ∧ ∃ ps : List Piece, front = ps.map source.place := by
  unfold Source.tokens at h
  split at h
  · rename_i ps hps
    cases h
    obtain ⟨hlaid, heof⟩ := laid_piecesFrom source hps
    refine ⟨ps.map source.place, rfl, hlaid, fun t ht => ?_, ps, rfl⟩
    obtain ⟨p, hp, rfl⟩ := List.mem_map.1 ht
    exact heof p hp
  · cases h

/-- The tokens of a source lose nothing of it. -/
theorem tokens_lossless (source : Source) {tokens : List Token} (h : source.tokens = .ok tokens) :
    Lossless source tokens := by
  obtain ⟨front, rfl, hlaid, heof, ps, hps⟩ := tokens_eq_ok h
  have hmark : source.endMark.text = "" ∧ source.endMark.offset = source.text.utf8ByteSize :=
    ⟨rfl, rfl⟩
  have hchars : source.text.toByteArray = source.chars.utf8Encode := toByteArray_eq_utf8Encode _
  have hlength : source.text.utf8ByteSize = byteLength source.chars := utf8ByteSize_eq_byteLength _
  have hends (t : Token) (ht : t ∈ front) : t.offset < t.endOffset := by
    have hne := hlaid.text_ne_empty t ht
    have hpos : t.text.utf8ByteSize ≠ 0 := fun h0 => hne (String.utf8ByteSize_eq_zero_iff.1 h0)
    rw [Token.endOffset]
    omega
  have hbefore (t : Token) (ht : t ∈ front) : t.endOffset ≤ source.endMark.offset := by
    have := (hlaid.bounds t ht).2
    rw [hmark.2, hlength]
    omega
  constructor
  case bytes =>
    intro t ht
    rcases List.mem_append.1 ht with ht | ht
    · obtain ⟨left, right, heq, hleft⟩ := hlaid.stands byteLength_nil t ht
      rw [List.nil_append] at heq
      rw [hchars, heq, ← hleft, Laid.endOffset_eq, ← hleft, extract_utf8Encode,
        toByteArray_eq_utf8Encode]
    · obtain rfl := List.mem_singleton.1 ht
      rw [show source.endMark.endOffset = source.endMark.offset from rfl, ByteArray.extract_same]
      rfl
  case nonempty =>
    intro t ht hkind
    rcases List.mem_append.1 ht with ht | ht
    · exact hends t ht
    · obtain rfl := List.mem_singleton.1 ht
      exact absurd rfl hkind
  case ordered =>
    refine List.pairwise_append.2 ⟨?_, List.pairwise_singleton _ _, fun t ht u hu => ?_⟩
    · refine hlaid.pairwise.imp_of_mem fun {t u} ht _ hle => ⟨?_, hle⟩
      exact Nat.lt_of_lt_of_le (hends t ht) hle
    · obtain rfl := List.mem_singleton.1 hu
      exact ⟨Nat.lt_of_lt_of_le (hends t ht) (hbefore t ht), hbefore t ht⟩
  case blank =>
    intro i hi hout
    have hi' : i < 0 + byteLength source.chars := by
      rw [Nat.zero_add, ← hlength]
      exact hi
    obtain ⟨left, g, right, heq, hg, h₁, h₂⟩ :=
      hlaid.uncovered byteLength_nil (Nat.zero_le i) hi' fun t ht => hout t (List.mem_append_left _ ht)
    simp only [hchars]
    exact byte_of_blank heq hg h₁ h₂ _
  case finish => exact ⟨front, source.endMark, rfl, heof, rfl, rfl, rfl⟩
  case places =>
    intro t ht
    rcases List.mem_append.1 ht with ht | ht
    · rw [hps] at ht
      obtain ⟨p, -, rfl⟩ := List.mem_map.1 ht
      exact ⟨rfl, rfl⟩
    · obtain rfl := List.mem_singleton.1 ht
      exact ⟨rfl, rfl⟩
  case woven =>
    obtain ⟨gaps, last, hlen, hgaps, hlast, heq⟩ := hlaid.woven
    refine ⟨gaps ++ [last], by simp [hlen], ?_, ?_⟩
    · simpa [or_imp, forall_and] using And.intro hgaps hlast
    · rw [heq, List.zipWith_append hlen]
      simp [hmark.1]

/-- Two lexemes and a comment with blanks around them. -/
theorem tokens_lossless_comment :
    let source : Source := { path := "a.sv", text := "a;\t// b\n", ending := .lf }
    let tokens : List Token :=
      [⟨⟨.identifier, "a"⟩, 0, ⟨1, 1⟩, ⟨1, 2⟩⟩, ⟨⟨.op .semicolon, ";"⟩, 1, ⟨1, 2⟩, ⟨1, 3⟩⟩,
        ⟨⟨.lineComment, "// b"⟩, 3, ⟨1, 4⟩, ⟨1, 8⟩⟩, ⟨⟨.eof, ""⟩, 8, ⟨2, 1⟩, ⟨2, 1⟩⟩]
    source.tokens = .ok tokens ∧ Lossless source tokens :=
  ⟨rfl, tokens_lossless _ rfl⟩

end SystemVerilog
