import SystemVerilog.Lexical.Tokens
import SystemVerilog.Proofs.Lexing.Lossless
import SystemVerilog.Proofs.Lexing.Respacing

/-!
# Writing lexemes down

A `Mark` is a lexeme to be written, behind a space or joined to the one before it. Where every lexeme
leads the text that is written from it on (`Lexes`), the text is cut into exactly these lexemes again,
and two neighbours touch if and only if they were joined.
-/

namespace SystemVerilog

/-! ### Lexemes in front of a text -/

/-- The text of a lexeme is recognised as it in front of `r`. -/
def Lexeme.Leads (l : Lexeme) (r : List Char) : Prop := ∃ c cs, l.text.toList = c :: cs ∧
  isBlank c = false ∧ scanLexeme c (cs ++ r) = .ok (l.kind, cs.length + 1)

/-- The text of a lexeme is recognised as it where nothing follows. -/
def Lexeme.Scans (l : Lexeme) : Prop := l.Leads []

theorem Lexeme.Scans.leads {l : Lexeme} {r : List Char} (h : l.Scans) (hr : Separates l.kind r) :
    l.Leads r := by
  obtain ⟨c, cs, htext, hblank, hscan⟩ := h
  rw [List.append_nil] at hscan
  have hrelaid := scanLexeme_relaid hscan hr
  rw [Nat.add_sub_cancel, List.take_length] at hrelaid
  exact ⟨c, cs, htext, hblank, hrelaid⟩

/-! ### Marks -/

/-- A lexeme to be written, and whether it is joined to the one before it. -/
structure Mark extends Lexeme where
  joined : Bool

/-- The text of marks, each behind a space unless it is joined. -/
def spread : List Mark → List Char
  | [] => []
  | m :: ms => (if m.joined then [] else [' ']) ++ (m.text.toList ++ spread ms)

/-- The text of marks from the first one on. -/
def written : List Mark → String
  | [] => ""
  | m :: ms => String.ofList (m.text.toList ++ spread ms)

/-- Every mark leads the text that is written from it on. -/
def Lexes : List Mark → Prop
  | [] => True
  | m :: ms => m.Leads (spread ms) ∧ Lexes ms

/-- The first mark, if there is one, is not joined. -/
def Unjoined (ms : List Mark) : Prop := ∀ m ns, ms = m :: ns → m.joined = false

theorem Unjoined.nil : Unjoined [] := fun _ _ h => by cases h

theorem Unjoined.of_cons {m : Mark} {ms : List Mark} (h : m.joined = false) : Unjoined (m :: ms) := by
  intro m' ns heq
  obtain ⟨rfl, -⟩ := List.cons.inj heq
  exact h

theorem Unjoined.separates {ms : List Mark} {kind : TokenKind} (h : Unjoined ms)
    (hk : kind ≠ .lineComment) : Separates kind (spread ms) := by
  refine ⟨fun c rest hc => ?_, fun hline => absurd hline hk⟩
  cases ms with
  | nil => cases hc
  | cons m ms =>
    rw [spread, h m ms rfl] at hc
    obtain ⟨rfl, -⟩ := List.cons.inj hc
    decide

/-- A lexeme in front of a mark that is not joined. -/
theorem Lexes.cons {m : Mark} {ms : List Mark} (hm : m.Scans) (hk : m.kind ≠ .lineComment)
    (hu : Unjoined ms) (hms : Lexes ms) : Lexes (m :: ms) := ⟨hm.leads (hu.separates hk), hms⟩

/-! ### The pieces of a written text -/

/-- The pieces that marks make from an offset on. -/
def piecesOf (offset : Nat) : List Mark → List Piece
  | [] => []
  | m :: ms =>
    let start := if m.joined then offset else offset + 1
    ⟨m.toLexeme, start⟩ :: piecesOf (start + m.text.utf8ByteSize) ms

theorem piecesFrom_lead {l : Lexeme} {r : List Char} (h : l.Leads r) (offset : Nat) :
    piecesFrom 0 offset (l.text.toList ++ r) =
      (piecesFrom 0 (offset + l.text.utf8ByteSize) r).map (⟨l, offset⟩ :: ·) := by
  obtain ⟨c, cs, htext, hblank, hscan⟩ := h
  have hpiece : String.ofList ((c :: (cs ++ r)).take (cs.length + 1)) = l.text := by
    rw [List.take_succ_cons, List.take_left, ← htext, String.ofList_toList]
  have hsize : l.text.utf8ByteSize = c.utf8Size + byteLength cs := by
    rw [utf8ByteSize_eq_byteLength, htext, byteLength_cons]
  rw [htext, List.cons_append, piecesFrom, if_neg (by simp [hblank]), hscan]
  dsimp only
  rw [hpiece, Nat.add_sub_cancel, piecesFrom_pending _ (by simp), List.take_left, List.drop_left,
    hsize, Nat.add_assoc]

theorem piecesFrom_spread {ms : List Mark} (h : Lexes ms) (offset : Nat) :
    piecesFrom 0 offset (spread ms) = .ok (piecesOf offset ms) := by
  induction ms generalizing offset with
  | nil => rfl
  | cons m ms ih =>
    obtain ⟨hlead, hms⟩ := h
    cases hj : m.joined with
    | true =>
      rw [spread, piecesOf, hj, if_pos rfl, List.nil_append, piecesFrom_lead hlead, ih hms]
      rfl
    | false =>
      have hspace : isBlank ' ' = true := by decide
      rw [spread, piecesOf, hj, if_neg (by decide), List.singleton_append, piecesFrom, if_pos hspace,
        piecesFrom_lead hlead, ih hms]
      rfl

/-! ### The tokens of a written text -/

/-- The tokens are the lexemes of the marks; each touches the one before it, `before` being the one
before the first, if and only if its mark is joined. -/
def Realizes (before : Option Token) : List Mark → List Token → Prop
  | [], ts => ts = []
  | m :: ms, ts => ∃ t us, ts = t :: us ∧ t.toLexeme = m.toLexeme ∧
      (∀ p, before = some p → t.touches p = m.joined) ∧ Realizes (some t) ms us

theorem realizes_piecesOf (source : Source) {before : Option Token} {offset : Nat} {ms : List Mark}
    (h : ∀ p, before = some p → p.endOffset = offset) :
    Realizes before ms ((piecesOf offset ms).map source.place) := by
  induction ms generalizing before offset with
  | nil => rfl
  | cons m ms ih =>
    refine ⟨_, _, rfl, rfl, fun p hp => ?_, ih fun p hp => ?_⟩
    · have hend := h p hp
      show ((if m.joined then offset else offset + 1) == p.endOffset) = m.joined
      rw [hend]
      cases m.joined <;> simp
    · obtain rfl := Option.some.inj hp
      rfl

/-- The tokens of a source whose text is written from marks. -/
theorem tokens_written {source : Source} {ms : List Mark} (htext : source.text = written ms)
    (h : Lexes ms) : ∃ ts, source.tokens = .ok (ts ++ [source.endMark]) ∧ Realizes none ms ts := by
  have hpieces : ∃ ns, pieces source.chars = .ok (piecesOf 0 ns) ∧
      Realizes none ms ((piecesOf 0 ns).map source.place) := by
    cases ms with
    | nil =>
      refine ⟨[], ?_, rfl⟩
      rw [Source.chars, htext]
      rfl
    | cons m ms =>
      refine ⟨{ m with joined := true } :: ms, ?_, ?_⟩
      · have hchars : source.chars = spread ({ m with joined := true } :: ms) := by
          rw [Source.chars, htext]
          exact String.toList_ofList
        have hlexes : Lexes ({ m with joined := true } :: ms) := h
        rw [pieces, hchars]
        exact piecesFrom_spread hlexes 0
      · have hreal : Realizes none ({ m with joined := true } :: ms)
            ((piecesOf 0 ({ m with joined := true } :: ms)).map source.place) :=
          realizes_piecesOf source fun _ h => by cases h
        obtain ⟨t, us, hts, hlexeme, -, hrest⟩ := hreal
        exact ⟨t, us, hts, hlexeme, (fun _ h => by cases h), hrest⟩
  obtain ⟨ns, hread, hreal⟩ := hpieces
  exact ⟨_, by rw [Source.tokens, hread], hreal⟩

/-! ### Parts of what is realized -/

section Parts

variable {before : Option Token} {ms ns : List Mark} {ts : List Token} {m : Mark}

theorem Realizes.of_cons (h : Realizes before (m :: ms) ts) :
    ∃ t us, ts = t :: us ∧ t.kind = m.kind ∧ t.text = m.text ∧ Realizes (some t) ms us := by
  obtain ⟨t, us, rfl, hlexeme, -, hus⟩ := h
  exact ⟨t, us, rfl, congrArg Lexeme.kind hlexeme, congrArg Lexeme.text hlexeme, hus⟩

/-- What is realized is cut where the marks are cut; the second part is behind the first. -/
theorem Realizes.of_append (h : Realizes before (ms ++ ns) ts) : ∃ us vs, ts = us ++ vs ∧
    Realizes before ms us ∧ Realizes (us.getLast?.or before) ns vs := by
  induction ms generalizing before ts with
  | nil => exact ⟨[], ts, rfl, rfl, h⟩
  | cons m ms ih =>
    obtain ⟨t, us, rfl, hlexeme, htouch, hus⟩ := h
    obtain ⟨us, vs, rfl, hus, hvs⟩ := ih hus
    refine ⟨t :: us, vs, rfl, ⟨t, us, rfl, hlexeme, htouch, hus⟩, ?_⟩
    cases us with
    | nil => exact hvs
    | cons u us =>
      rw [List.getLast?_cons_cons]
      cases hlast : (u :: us).getLast? with
      | none => simp at hlast
      | some last => rwa [hlast] at hvs

theorem Realizes.mem (h : Realizes before ms ts) {t : Token} (ht : t ∈ ts) :
    ∃ m ∈ ms, t.toLexeme = m.toLexeme := by
  induction ms generalizing before ts with
  | nil =>
    obtain rfl : ts = [] := h
    cases ht
  | cons m ms ih =>
    obtain ⟨u, us, rfl, hlexeme, -, hus⟩ := h
    rcases List.mem_cons.1 ht with rfl | ht
    · exact ⟨m, by simp, hlexeme⟩
    · obtain ⟨m', hm', heq⟩ := ih hus ht
      exact ⟨m', by simp [hm'], heq⟩

end Parts

end SystemVerilog
