import SystemVerilog.Proofs.Concatenation.Tokens
import SystemVerilog.Proofs.Layout.Writing
import SystemVerilog.Proofs.Ranges.Texts

/-!
# A part of a text on its own

The part of a source from the start of one token to the end of another one is cut into the same lexemes as it was
in the source, since what leads a text is the same lexeme with and without what follows it. So the text of a
range of tokens holds their writing, and so does the text of a node. Lexemes that are written behind the text follow
that writing.
-/

namespace SystemVerilog

/-! ### Pieces -/

/-- Of two front parts of a text the one with more characters has more bytes. -/
theorem length_le_of_byteLength_le {as bs cs : List Char} (has : as <+: cs) (hbs : bs <+: cs)
    (h : byteLength as ≤ byteLength bs) : as.length ≤ bs.length := by
  rcases List.prefix_or_prefix_of_prefix has hbs with hprefix | ⟨more, rfl⟩
  · exact hprefix.length_le
  · cases more with
    | nil => simp
    | cons c more =>
      have hpos := c.utf8Size_pos
      rw [byteLength_append, byteLength_cons] at h
      omega

/-- A lexeme that leads a text leads every front part of the text that holds it. -/
theorem scanLexeme_parted {c : Char} {left right : List Char} {kind : TokenKind} {n : Nat}
    (h : scanLexeme c (left ++ right) = .ok (kind, n))
    (hend : byteLength ((c :: (left ++ right)).take n) ≤ byteLength (c :: left)) :
    n ≤ (c :: left).length ∧ scanLexeme c left = .ok (kind, n) ∧
      (c :: (left ++ right)).take n = (c :: left).take n := by
  have hn : n ≤ (c :: left).length := by
    obtain ⟨-, -, hle⟩ := scanLexeme_fits h
    have hleft : c :: left <+: c :: (left ++ right) := ⟨right, rfl⟩
    have hpart := length_le_of_byteLength_le (List.take_prefix n _) hleft hend
    rwa [List.length_take, Nat.min_eq_left hle] at hpart
  have hcut := stable_scanText.found (scanLexeme_eq_ok.1 h) hn ⟨.nil, fun _ _ _ hnil => by cases hnil⟩
  rw [← List.cons_append, List.take_left, List.append_nil] at hcut
  exact ⟨hn, scanLexeme_eq_ok.2 hcut, by rw [← List.cons_append, List.take_append_of_le_length hn]⟩

/-- A piece has a text, so none ends where the text starts. -/
theorem eq_nil_of_piecesFrom (source : Source) {offset : Nat} {cs : List Char} {ps qs : List Piece}
    (h : piecesFrom 0 offset cs = .ok (ps ++ qs)) (hps : ∀ p ∈ ps, (source.place p).endOffset ≤ offset) :
    ps = [] := by
  refine List.eq_nil_iff_forall_not_mem.2 fun p hp => ?_
  obtain ⟨hlaid, -⟩ := laid_piecesFrom source h
  have hmem : source.place p ∈ (ps ++ qs).map source.place := List.mem_map_of_mem (List.mem_append_left _ hp)
  have hstart := (hlaid.bounds _ hmem).1
  have hlt := hlaid.toOrdered.nonempty _ hmem
  have hend := hps p hp
  omega

/-- A text that is parted between two of its pieces is parted into theirs. -/
theorem piecesFrom_parted (source : Source) {n offset : Nat} {left right : List Char} {ps qs : List Piece}
    (h : piecesFrom n offset (left ++ right) = .ok (ps ++ qs)) (hn : n ≤ left.length)
    (hps : ∀ p ∈ ps, (source.place p).endOffset ≤ offset + byteLength left)
    (hqs : ∀ q ∈ qs, offset + byteLength left ≤ (source.place q).offset) :
    piecesFrom n offset left = .ok ps ∧ piecesFrom 0 (offset + byteLength left) right = .ok qs := by
  induction left generalizing n offset ps with
  | nil =>
    obtain rfl : n = 0 := Nat.le_zero.1 hn
    obtain rfl := eq_nil_of_piecesFrom source h hps
    exact ⟨rfl, h⟩
  | cons c left ih =>
    rw [byteLength_cons, ← Nat.add_assoc] at hps hqs ⊢
    cases n with
    | succ n => exact ih h (Nat.le_of_succ_le_succ hn) hps hqs
    | zero =>
      rw [List.cons_append] at h
      cases hc : isBlank c with
      | true =>
        rw [piecesFrom, if_pos hc] at h
        rw [piecesFrom, if_pos hc]
        exact ih h (Nat.zero_le _) hps hqs
      | false =>
        obtain ⟨kind, length, rest, hscan, hrest, hall⟩ := (piecesFrom_cons_eq_ok hc).1 h
        cases ps with
        | nil =>
          -- the first piece stands at the offset, not behind the left part
          obtain rfl : qs = _ := hall
          have hstart := hqs _ (List.mem_cons_self ..)
          have hpos := c.utf8Size_pos
          simp only [Source.place] at hstart
          omega
        | cons p ps =>
          obtain ⟨rfl, rfl⟩ := List.cons.inj hall
          have hend := hps _ (List.mem_cons_self ..)
          rw [Laid.endOffset_eq, Nat.add_assoc] at hend
          simp only [Source.place, String.toList_ofList] at hend
          obtain ⟨hlength, hsame, htake⟩ := scanLexeme_parted hscan (Nat.le_of_add_le_add_left hend)
          rw [List.length_cons] at hlength
          obtain ⟨hleft, hright⟩ := ih hrest (Nat.sub_le_of_le_add hlength)
            (fun p hp => hps p (List.mem_cons_of_mem _ hp)) hqs
          refine ⟨(piecesFrom_cons_eq_ok hc).2 ⟨kind, length, ps, hsame, hleft, ?_⟩, hright⟩
          rw [htake]

/-! ### Runs of tokens -/

section Runs

variable {α : Type} {p : α → Bool} {as bs cs ds : List α}

/-- What is behind the last of the kept elements can be left out. -/
theorem exists_front_of_filter (h : as.filter p = bs) (hne : bs ≠ []) :
    ∃ us vs, as = us ++ vs ∧ us.filter p = bs ∧ us.getLast? = bs.getLast? := by
  obtain ⟨front, last, rfl⟩ := List.eq_nil_or_concat' bs |>.resolve_left hne
  obtain ⟨us, more, rfl, hus, hmore⟩ := List.filter_eq_append_iff.1 h
  obtain ⟨skipped, vs, rfl, hskipped, hlast, hvs⟩ := List.filter_eq_cons_iff.1 hmore
  refine ⟨us ++ (skipped ++ [last]), vs, by simp, ?_, by simp⟩
  rw [List.filter_append, List.filter_append, List.filter_eq_nil_iff.2 hskipped, hus]
  simp [hlast]

/-- Kept elements one behind the other are those of a run that starts and ends with kept elements. -/
theorem exists_run_of_filter (h : as.filter p = bs ++ (cs ++ ds)) (hne : cs ≠ []) :
    ∃ xs us ys, as = xs ++ (us ++ ys) ∧ us.filter p = cs ∧ us.head? = cs.head? ∧
      us.getLast? = cs.getLast? := by
  obtain ⟨c, cs, rfl⟩ := List.exists_cons_of_ne_nil hne
  obtain ⟨xs, more, rfl, -, hmore⟩ := List.filter_eq_append_iff.1 h
  obtain ⟨skipped, rest, rfl, -, hc, hrest⟩ := List.filter_eq_cons_iff.1 hmore
  obtain ⟨run, ys, rfl, hrun, -⟩ := List.filter_eq_append_iff.1 hrest
  have hall : (c :: run).filter p = c :: cs := by rw [List.filter_cons_of_pos hc, hrun]
  obtain ⟨us, behind, heq, hus, hlast⟩ := exists_front_of_filter hall (List.cons_ne_nil c cs)
  refine ⟨xs ++ skipped, us, behind ++ ys, ?_, hus, ?_, hlast⟩
  · rw [← List.append_assoc us, ← heq]
    simp
  · cases us with
    | nil => cases hus
    | cons u us =>
      obtain ⟨rfl, -⟩ := List.cons.inj heq
      rfl

end Runs

/-! ### Tokens -/

/-- The pieces of a part of a text, placed in it or in the whole, are the same writing. -/
theorem SameWriting.placed (part whole : Source) (k : Nat) (ps : List Piece) :
    SameWriting ((ps.map (Piece.moved k)).map whole.place) (ps.map part.place) := by
  rw [List.map_map]
  constructor
  · rw [List.map_map, List.map_map]
    rfl
  · have htouches (p q : Piece) : (whole.place (q.moved k)).touches (whole.place (p.moved k)) =
        (part.place q).touches (part.place p) := by
      rw [Token.touches, Token.touches, Bool.eq_iff_iff, beq_iff_eq, beq_iff_eq]
      simp only [Token.endOffset, Source.place, Piece.moved]
      omega
    simp only [touchings, ← List.map_tail, List.zipWith_map, Function.comp_apply, htouches]

/-- The pieces of a part of a text, from the start of one token to the end of another one. -/
theorem Source.pieces_part {source part : Source} {before us behind : List Token} {mark : Token}
    {left mid right : List Char} (h : source.tokens = .ok (before ++ (us ++ behind) ++ [mark]))
    (hchars : source.chars = left ++ (mid ++ right)) (hpart : part.chars = mid)
    (hbefore : ∀ t ∈ before, t.endOffset ≤ byteLength left)
    (hus : ∀ t ∈ us, byteLength left ≤ t.offset ∧ t.endOffset ≤ byteLength left + byteLength mid)
    (hbehind : ∀ t ∈ behind, byteLength left + byteLength mid ≤ t.offset) :
    ∃ ps : List Piece, pieces part.chars = .ok ps ∧
      us = (ps.map (Piece.moved (byteLength left))).map source.place := by
  unfold Source.tokens at h
  split at h
  · rename_i all hall
    obtain ⟨hall', -⟩ := List.append_inj' (Except.ok.inj h) rfl
    obtain ⟨ps₁, more, rfl, rfl, hmore⟩ := List.map_eq_append_iff.1 hall'
    obtain ⟨ps₂, ps₃, rfl, rfl, rfl⟩ := List.map_eq_append_iff.1 hmore
    simp only [List.forall_mem_map] at hbefore hus hbehind
    rw [pieces, hchars] at hall
    have hpos : ∀ q ∈ ps₂ ++ ps₃, 0 + byteLength left ≤ (source.place q).offset := by
      rw [Nat.zero_add]
      refine List.forall_mem_append.2 ⟨fun q hq => (hus q hq).1, fun q hq => ?_⟩
      exact Nat.le_trans (Nat.le_add_right _ _) (hbehind q hq)
    obtain ⟨-, hrest⟩ := piecesFrom_parted source hall (Nat.zero_le _) (by simpa using hbefore) hpos
    obtain ⟨hmid, -⟩ := piecesFrom_parted source hrest (Nat.zero_le _)
      (by simpa using fun p hp => (hus p hp).2) (by simpa using hbehind)
    obtain ⟨ps, hps, rfl⟩ := piecesFrom_of_moved hmid
    exact ⟨ps, by rw [pieces, hpart, hps], rfl⟩
  · cases h

/-- The part of a text from the start of one token to the end of another one has the pieces of the tokens between
them. -/
theorem Source.pieces_slice {source part : Source} {before us behind : List Token} {mark first last : Token}
    (h : source.tokens = .ok (before ++ (us ++ behind) ++ [mark])) (hfirst : us.head? = some first)
    (hlast : us.getLast? = some last) (hpart : part.text = source.slice first.offset last.endOffset) :
    ∃ ps : List Piece, pieces part.chars = .ok ps ∧
      us = (ps.map (Piece.moved first.offset)).map source.place := by
  obtain ⟨front, hfront, hlaid, -⟩ := tokens_eq_ok h
  obtain ⟨rfl, -⟩ := List.append_inj' hfront rfl
  obtain ⟨left, rest, hchars, -, hbefore, hrest⟩ := hlaid.parted
  obtain ⟨g, mid, right, rfl, -, hoffset, hend, hwithin, hright⟩ := hrest.covered (by simp [Blank]) hfirst hlast
  rw [Nat.zero_add] at hoffset hbefore
  have hleft : first.offset = byteLength (left ++ g) := by rw [hoffset, byteLength_append]
  rw [← List.append_assoc] at hchars
  rw [hend, hleft] at hpart hwithin hright
  rw [hleft]
  refine pieces_part h hchars (by rw [chars, hpart, slice_of_chars hchars]) (fun t ht => ?_) hwithin
    fun t ht => (hright.bounds t ht).1
  rw [byteLength_append]
  exact Nat.le_add_right_of_le (hbefore t ht)

/-- The tokens of a range are those of a run that starts with the first and ends with the last of them, but for the
comments in the run. The text of the range is the text of the run. -/
theorem SourceUnit.exists_run {unit : SourceUnit} {front : List Token} {mark : Token} {range : TokenRange}
    (htokens : unit.tokens = uncommented front ++ [mark]) (hlt : range.start < range.stop)
    (hle : range.stop ≤ (uncommented front).length) : ∃ before us behind first last,
      front = before ++ (us ++ behind) ∧
      uncommented us = ((uncommented front).take range.stop).drop range.start ∧
      us.head? = some first ∧ us.getLast? = some last ∧ last ∈ uncommented us ∧
      unit.textOf range = unit.source.slice first.offset last.endOffset := by
  obtain ⟨first, hfirst⟩ : ∃ first, (uncommented front)[range.start]? = some first :=
    ⟨_, List.getElem?_eq_getElem (Nat.lt_of_lt_of_le hlt hle)⟩
  obtain ⟨last, hlast⟩ : ∃ last, (uncommented front)[range.stop - 1]? = some last :=
    ⟨_, List.getElem?_eq_getElem (by omega)⟩
  have htext : unit.textOf range = unit.source.slice first.offset last.endOffset := by
    refine textOf_eq_slice hlt ?_ ?_
    · rw [htokens, List.getElem?_append_left (Nat.lt_of_lt_of_le hlt hle), hfirst]
    · rw [htokens, List.getElem?_append_left (by omega), hlast]
  generalize hseg : ((uncommented front).take range.stop).drop range.start = seg
  have hparts : uncommented front =
      (uncommented front).take range.start ++ (seg ++ (uncommented front).drop range.stop) := by
    have hbehind : (uncommented front).drop range.stop =
        ((uncommented front).drop range.start).drop (range.stop - range.start) := by
      rw [List.drop_drop, Nat.add_sub_cancel' (Nat.le_of_lt hlt)]
    rw [← hseg, List.drop_take, hbehind, List.take_append_drop, List.take_append_drop]
  have hhead : seg.head? = some first := by
    rw [← hseg, List.head?_drop, List.getElem?_take_of_lt hlt, hfirst]
  have hend : seg.getLast? = some last := by
    rw [← hseg, List.getLast?_drop, if_neg (by rw [List.length_take]; omega), List.getLast?_take,
      if_neg (by omega), hlast, Option.some_or]
  have hne : seg ≠ [] := by
    rintro rfl
    cases hhead
  obtain ⟨before, us, behind, hfront, hus, hhead', hend'⟩ := exists_run_of_filter hparts hne
  have hmem : last ∈ uncommented us := by
    rw [uncommented, hus]
    exact List.mem_of_getLast? hend
  exact ⟨before, us, behind, first, last, hfront, hus, hhead'.trans hhead, hend'.trans hend, hmem, htext⟩

/-! ### Marks behind a text -/

section Followed

variable {ms : List Mark}

theorem Realizes.uncommented {before : Option Token} {ts : List Token} (h : Realizes before ms ts)
    (hms : ∀ m ∈ ms, m.kind.isComment = false) : SystemVerilog.uncommented ts = ts := by
  refine List.filter_eq_self.2 fun t ht => ?_
  obtain ⟨m, hm, hlexeme⟩ := h.mem ht
  have hkind : t.kind = m.kind := congrArg Lexeme.kind hlexeme
  rw [hkind, hms m hm]
  rfl

/-- Marks behind a text that does not end with a line comment become tokens behind those of the text. -/
theorem Source.tokens_followed {part whole : Source} {ps : List Piece} (hps : pieces part.chars = .ok ps)
    (hlast : ∀ p, ps.getLast? = some p → p.kind ≠ .lineComment) (hms : Lexable ms)
    (hchars : whole.chars = part.chars ++ spread ms) :
    ∃ vs, whole.tokens = .ok (ps.map whole.place ++ vs ++ [whole.endMark]) ∧ Realizes none ms vs := by
  have hpieces : pieces whole.chars = .ok (ps ++ piecesOf (0 + byteLength part.chars) ms) := by
    rw [pieces, hchars]
    exact piecesFrom_append hps (fun p hp => hms.unjoined.separates (hlast p hp)) (piecesFrom_spread hms.lexes _)
  have hfirst : ∀ t, (none : Option Token) = some t → t.endOffset = 0 + byteLength part.chars := fun _ h => by cases h
  refine ⟨(piecesOf (0 + byteLength part.chars) ms).map whole.place, ?_, realizes_piecesOf whole hfirst⟩
  rw [Source.tokens, hpieces]
  dsimp only
  rw [List.map_append]

/-- The text of a range of tokens, with marks written behind it, holds the writing of these tokens and the marks. -/
theorem SourceUnit.textOf_followed {source : Source} {unit : SourceUnit} {range : TokenRange}
    (h : Arena.ofSource source = .ok unit.toArena) (hlt : range.start < range.stop)
    (hle : range.stop ≤ unit.code.length) (options : ReadOptions) (hms : Lexable ms) : ∃ arena us vs,
      Arena.ofSource (options.source (unit.textOf range ++ String.ofList (spread ms))) = .ok arena ∧
      arena.code = us ++ vs ∧ SameWriting ((unit.code.take range.stop).drop range.start) us ∧
      Realizes none ms vs := by
  obtain ⟨front, htokens, -, hsource, hall, hcode⟩ := Arena.ofSource_inv h
  change unit.code = uncommented front at hcode
  rw [hcode] at hle ⊢
  obtain ⟨before, us, behind, first, last, rfl, hus, hfirst, hlast, hmem, htext⟩ := exists_run hall hlt hle
  have hpart : (options.source (unit.textOf range)).text = source.slice first.offset last.endOffset := by
    rw [← hsource, ← htext]
    rfl
  obtain ⟨ps, hps, rfl⟩ := Source.pieces_slice htokens hfirst hlast hpart
  have huncomment : ∀ p, ps.getLast? = some p → p.kind ≠ .lineComment := by
    intro p hp hline
    rw [List.getLast?_map, List.getLast?_map, hp] at hlast
    obtain rfl := Option.some.inj hlast
    have hkind : (!p.kind.isComment) = true := (List.mem_filter.1 hmem).2
    rw [hline] at hkind
    cases hkind
  generalize hwhole : options.source (unit.textOf range ++ String.ofList (spread ms)) = whole
  have hchars : whole.chars = (options.source (unit.textOf range)).chars ++ spread ms := by
    rw [← hwhole]
    exact (String.toList_append ..).trans (congrArg _ String.toList_ofList)
  obtain ⟨vs, hread, hrealizes⟩ := Source.tokens_followed hps huncomment hms hchars
  have harena := Arena.ofSource_of_tokens hread
  obtain ⟨front', hfront', -, -, -, hcode'⟩ := Arena.ofSource_inv harena
  obtain ⟨rfl, -⟩ := List.append_inj' (Except.ok.inj (hread.symm.trans hfront')) rfl
  refine ⟨_, uncommented (ps.map whole.place), vs, harena, ?_, ?_, hrealizes⟩
  · rw [hcode', uncommented, List.filter_append]
    exact congrArg _ (hrealizes.uncommented hms.uncommented)
  · rw [← hus, uncommented, List.filter_map, List.filter_map, uncommented, List.filter_map]
    exact .placed ..

end Followed

/-- The text of a range of tokens holds the writing of these tokens. -/
theorem SourceUnit.textOf_writing {source : Source} {unit : SourceUnit} {range : TokenRange}
    (h : Arena.ofSource source = .ok unit.toArena) (hlt : range.start < range.stop)
    (hle : range.stop ≤ unit.code.length) (options : ReadOptions) :
    ∃ arena, Arena.ofSource (options.source (unit.textOf range)) = .ok arena ∧
      SameWriting ((unit.code.take range.stop).drop range.start) arena.code := by
  obtain ⟨arena, us, vs, harena, hcode, hwriting, hnone⟩ :=
    textOf_followed h hlt hle options .nil
  obtain rfl : vs = [] := hnone
  rw [List.append_nil] at hcode
  rw [spread, String.ofList_nil, String.append_empty] at harena
  exact ⟨arena, harena, hcode ▸ hwriting⟩

end SystemVerilog
