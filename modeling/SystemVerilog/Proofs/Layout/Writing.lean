import SystemVerilog.Proofs.Correspondence.Basic
import SystemVerilog.Proofs.Lexing.Lossless
import SystemVerilog.Proofs.Reading.Units

/-!
# The same writing in another layout

Two lists of tokens hold the same writing if their lexemes are the same and the same tokens touch the one
before them. Tokens of a source stand in order and each has a text, so two of them that are no neighbours
never touch; the `Correspondence.layout` of two such lists leaves nothing out that a reader can see.
-/

namespace SystemVerilog

/-- Which tokens touch the one before them, from the second token on. -/
def touchings (ts : List Token) : List Bool := List.zipWith (fun t u => u.touches t) ts ts.tail

/-- The same lexemes one behind the other, of which the same touch the one before. -/
structure SameWriting (ts us : List Token) : Prop where
  lexemes : ts.map Token.toLexeme = us.map Token.toLexeme
  touches : touchings ts = touchings us

/-! ### Tokens in order -/

/-- Tokens that have a text and stand one behind the other. -/
structure Ordered (ts : List Token) : Prop where
  nonempty : ∀ t ∈ ts, t.offset < t.endOffset
  pairwise : ts.Pairwise fun t u => t.endOffset ≤ u.offset

namespace Ordered

variable {ts : List Token} {t u : Token} {i j : Nat}

theorem sublist {us : List Token} (h : Ordered ts) (hus : us.Sublist ts) : Ordered us :=
  ⟨fun t ht => h.nonempty t (hus.mem ht), h.pairwise.sublist hus⟩

theorem endOffset_le (h : Ordered ts) (ht : ts[i]? = some t) (hu : ts[j]? = some u) (hij : i < j) :
    t.endOffset ≤ u.offset := by
  obtain ⟨hi, rfl⟩ := List.getElem?_eq_some_iff.1 ht
  obtain ⟨hj, rfl⟩ := List.getElem?_eq_some_iff.1 hu
  exact List.pairwise_iff_getElem.1 h.pairwise i j hi hj hij

theorem lt_endOffset (h : Ordered ts) (ht : ts[i]? = some t) : t.offset < t.endOffset :=
  h.nonempty t (List.mem_of_getElem? ht)

/-- Only neighbours touch. -/
theorem eq_succ_of_touches (h : Ordered ts) (ht : ts[i]? = some t) (hu : ts[j]? = some u)
    (htouch : u.touches t = true) : j = i + 1 := by
  have hoffset : u.offset = t.endOffset := by simpa [Token.touches] using htouch
  have hlt := h.lt_endOffset ht
  have hlt' := h.lt_endOffset hu
  rcases Nat.lt_trichotomy j (i + 1) with hj | hj | hj
  · rcases Nat.lt_or_ge j i with hji | hji
    · have hle := h.endOffset_le hu ht hji
      omega
    · obtain rfl : j = i := by omega
      obtain rfl := Option.some.inj (ht.symm.trans hu)
      omega
  · exact hj
  · -- the token between the two has a text
    obtain ⟨hjlt, -⟩ := List.getElem?_eq_some_iff.1 hu
    obtain ⟨v, hv⟩ : ∃ v, ts[i + 1]? = some v := ⟨_, List.getElem?_eq_getElem (Nat.lt_trans hj hjlt)⟩
    have hle := h.endOffset_le ht hv (Nat.lt_succ_self i)
    have hle' := h.endOffset_le hv hu hj
    have hlt'' := h.lt_endOffset hv
    omega

theorem touches_iff (h : Ordered ts) (ht : ts[i]? = some t) (hu : ts[j]? = some u) :
    u.touches t = true ↔ j = i + 1 ∧ (touchings ts)[i]? = some true := by
  have hnext (hj : j = i + 1) : (touchings ts)[i]? = some (u.touches t) := by
    subst hj
    rw [touchings, List.getElem?_zipWith, ht, List.getElem?_tail, hu]
  constructor
  · intro htouch
    have hj := h.eq_succ_of_touches ht hu htouch
    exact ⟨hj, (hnext hj).trans (congrArg some htouch)⟩
  · rintro ⟨hj, htouch⟩
    exact Option.some.inj ((hnext hj).symm.trans htouch)

end Ordered

/-- Tokens that are laid out in a text stand in order. -/
theorem Laid.toOrdered {gap : List Char → Prop} {offset : Nat} {ts : List Token} {cs : List Char}
    (h : Laid gap offset ts cs) : Ordered ts := by
  refine ⟨fun t ht => ?_, h.pairwise⟩
  have hpos : 0 < t.text.utf8ByteSize :=
    Nat.pos_of_ne_zero fun hzero => h.text_ne_empty t ht (String.utf8ByteSize_eq_zero_iff.1 hzero)
  rw [Token.endOffset]
  omega

/-! ### Layouts of the same writing -/

/-- A range some tokens further on. -/
def TokenRange.shifted (n : Nat) (range : TokenRange) : TokenRange := ⟨range.start + n, range.stop + n⟩

variable {ts us : List Token}

/-- Tokens at the same place of the same writing correspond, wherever they stand in their sources; the
indices in the first source are greater by `shift`. -/
def Correspondence.layout (h : SameWriting ts us) (hts : Ordered ts) (hus : Ordered us) (shift : Nat) :
    Correspondence TokenRange where
  token t u := ∃ i : Nat, ts[i]? = some t ∧ us[i]? = some u
  place _ _ := True
  index i j := i = j + shift
  left s := s.range
  right s := s.range.shifted shift
  lexeme {t u} := by
    rintro ⟨i, ht, hu⟩
    have hget := congrArg (fun ls => ls[i]?) h.lexemes
    simpa [ht, hu] using hget
  touches {t t' u u'} := by
    rintro ⟨i, ht, hu⟩ ⟨j, ht', hu'⟩
    rw [Bool.eq_iff_iff, hts.touches_iff ht ht', hus.touches_iff hu hu', h.touches]
  location _ := trivial
  stop _ := trivial
  add n hij := by omega
  site {l l' i i' j j'} _ hij hij' := by
    obtain rfl : i = j + shift := hij
    obtain rfl : i' = j' + shift := hij'
    rfl
  since {s s' i j} hs hij := by
    obtain rfl : i = j + shift := hij
    have hstart : s.range.start = s'.range.start + shift := congrArg TokenRange.start hs
    show TokenRange.mk s.range.start (j + shift) = _
    rw [hstart]
    rfl
  through {s s' t t'} hs ht := by
    have hstart : s.range.start = s'.range.start + shift := congrArg TokenRange.start hs
    have hstop : t.range.stop = t'.range.stop + shift := congrArg TokenRange.stop ht
    show TokenRange.mk s.range.start t.range.stop = _
    rw [hstart, hstop]
    rfl
  located _ := trivial

theorem SameWriting.length_eq (h : SameWriting ts us) : ts.length = us.length := by
  simpa using congrArg List.length h.lexemes

theorem Correspondence.forall₂_layout (h : SameWriting ts us) (hts : Ordered ts) (hus : Ordered us) (shift : Nat) :
    List.Forall₂ (layout h hts hus shift).token ts us :=
  List.forall₂_iff_get.2 ⟨h.length_eq, fun i hi hi' => ⟨i, List.getElem?_eq_getElem hi, List.getElem?_eq_getElem hi'⟩⟩

/-- Cursors over the same writing, whose places differ by the shift, are alike. -/
theorem Correspondence.alike_layout (h : SameWriting ts us) (hts : Ordered ts) (hus : Ordered us) {shift : Nat}
    {c d : Cursor} (hc : c.after = ts) (hd : d.after = us) (hposition : c.position = d.position + shift) :
    (layout h hts hus shift).Alike c d :=
  ⟨⟨by rw [hc, hd]; exact forall₂_layout h hts hus shift, hposition⟩, trivial⟩

/-! ### Arenas -/

/-- The tokens of an arena in front of its end mark. -/
def Arena.code (arena : Arena) : List Token := arena.tokens.filter fun t => t.kind != .eof

/-- What there is in the arena of a source. -/
theorem Arena.ofSource_inv {source : Source} {arena : Arena} (h : ofSource source = .ok arena) :
    ∃ front, source.tokens = .ok (front ++ [source.endMark]) ∧ Laid Blank 0 front source.chars ∧
      arena.source = source ∧ arena.tokens = uncommented front ++ [source.endMark] ∧
      arena.code = uncommented front := by
  unfold ofSource at h
  cases htokens : source.tokens with
  | error e =>
    rw [htokens] at h
    cases h
  | ok tokens =>
    rw [htokens] at h
    cases h
    obtain ⟨front, rfl, hlaid, heof, -⟩ := tokens_eq_ok htokens
    have hmark : source.endMark.kind = .eof := rfl
    exact ⟨front, rfl, hlaid, rfl, tokens_ofTokens hmark, front_ofTokens hmark heof⟩

/-- The tokens of a source that are no comments stand in order, and the grammar reads all of them. -/
theorem Arena.code_of_ofSource {source : Source} {arena : Arena} (h : ofSource source = .ok arena) :
    arena.source = source ∧ Ordered arena.code ∧ (Cursor.root arena.tokens).after = arena.code := by
  obtain ⟨front, -, hlaid, hsource, htokens, hcode⟩ := ofSource_inv h
  refine ⟨hsource, ?_, ?_⟩
  · rw [hcode]
    exact hlaid.toOrdered.sublist List.filter_sublist
  · rw [hcode]
    exact Cursor.root_after htokens rfl

end SystemVerilog
