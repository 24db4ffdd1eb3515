import SystemVerilog.Proofs.Lexing.Reprinting

/-!
# Scanning over lexemes and blanks

A text is read by steps, each over one blank or one lexeme. `Scanned` relates two places of a text by such
steps, with the pieces met between them. Reading on from a place that is reached decides the reading of the
whole text, so a text is cut into lexemes if and only if its end is reached, and where it is not, the last
place that is reached starts with no lexeme. No step looks past the end of the text that is scanned.
-/

namespace SystemVerilog

/-- Whole lexemes and blanks lead from the text at a byte offset to its rest at another; the lexemes are the
pieces. -/
inductive Scanned : Nat → List Char → List Piece → Nat → List Char → Prop
  | here {offset : Nat} {cs : List Char} : Scanned offset cs [] offset cs
  | blank {offset stop : Nat} {c : Char} {cs rest : List Char} {ps : List Piece} : isBlank c = true →
      Scanned (offset + c.utf8Size) cs ps stop rest → Scanned offset (c :: cs) ps stop rest
  | lexeme {offset stop : Nat} {l : Lexeme} {cs rest : List Char} {ps : List Piece} : l.Leads cs →
      Scanned (offset + l.text.utf8ByteSize) cs ps stop rest →
      Scanned offset (l.text.toList ++ cs) (⟨l, offset⟩ :: ps) stop rest

/-! ### Single lexemes -/

/-- What is found at the start of a text leads what is behind it. -/
theorem leads_of_scan {c : Char} {cs : List Char} {kind : TokenKind} {n : Nat} (hc : isBlank c = false)
    (h : scanLexeme c cs = .ok (kind, n)) :
    ∃ text rest, c :: cs = text.toList ++ rest ∧ (Lexeme.mk kind text).Leads rest := by
  obtain ⟨-, hpos, hle⟩ := scanLexeme_fits h
  obtain ⟨m, rfl⟩ : ∃ m, n = m + 1 := ⟨n - 1, by omega⟩
  have hlength : (cs.take m).length = m := List.length_take_of_le (Nat.le_of_succ_le_succ hle)
  have htext : (String.ofList (c :: cs.take m)).toList = c :: cs.take m := String.toList_ofList
  refine ⟨String.ofList (c :: cs.take m), cs.drop m, ?_, c, cs.take m, htext, hc, ?_⟩
  · rw [htext, List.cons_append, List.take_append_drop]
  · rw [List.take_append_drop, hlength]
    exact h

/-- A lexeme leads every part of what it leads: no class looks past the end of the text. -/
theorem Lexeme.Leads.cut {l : Lexeme} {cs rest : List Char} (h : l.Leads (cs ++ rest)) : l.Leads cs := by
  obtain ⟨c, ds, htext, hblank, hscan⟩ := h
  have hwhole := scanLexeme_eq_ok.1 hscan
  have hlength : ds.length + 1 ≤ (c :: (ds ++ cs)).length := by
    rw [List.length_cons, List.length_append]
    omega
  have hends : Separates l.kind [] := ⟨.nil, fun _ _ _ hnil => by cases hnil⟩
  have hcut := stable_scanText.found hwhole hlength hends
  have htake : (c :: (ds ++ (cs ++ rest))).take (c :: (ds ++ cs)).length ++ [] = c :: (ds ++ cs) := by
    rw [List.append_nil, ← List.append_assoc, ← List.cons_append]
    exact List.take_left
  rw [htake] at hcut
  exact ⟨c, ds, htext, hblank, scanLexeme_eq_ok.2 hcut⟩

theorem Lexeme.Leads.toList_ne_nil {l : Lexeme} {cs : List Char} (h : l.Leads cs) : l.text.toList ≠ [] := by
  obtain ⟨c, ds, htext, -, -⟩ := h
  rw [htext]
  exact List.cons_ne_nil c ds

/-! ### Scanned texts and their pieces -/

section Scanned

variable {offset stop : Nat} {cs rest : List Char} {ps : List Piece}

/-- The reading of a text is decided by its reading from a place that is reached. -/
theorem Scanned.piecesFrom_eq (h : Scanned offset cs ps stop rest) :
    piecesFrom 0 offset cs = (piecesFrom 0 stop rest).map (ps ++ ·) := by
  induction h with
  | @here offset cs => cases piecesFrom 0 offset cs <;> rfl
  | blank hc _ ih => rw [piecesFrom, if_pos hc, ih]
  | @lexeme _ stop _ _ rest _ hlead _ ih =>
    rw [piecesFrom_lead hlead, ih]
    cases piecesFrom 0 stop rest <;> rfl

/-- Every text is scanned up to its end, or up to a place that starts with no lexeme. -/
theorem scanned_or_stops (offset : Nat) (cs : List Char) :
    (∃ ps stop, Scanned offset cs ps stop []) ∨
      ∃ ps stop c more fault, Scanned offset cs ps stop (c :: more) ∧ isBlank c = false ∧
        scanLexeme c more = .error fault := by
  -- by the length of the text: a lexeme may be any leading part of it
  induction hlen : cs.length using Nat.strongRecOn generalizing offset cs with
  | ind len ih =>
    subst hlen
    cases cs with
    | nil => exact .inl ⟨[], offset, .here⟩
    | cons c cs =>
      cases hblank : isBlank c with
      | true =>
        rcases ih _ (Nat.lt_succ_self _) (offset + c.utf8Size) cs rfl with
          ⟨ps, stop, h⟩ | ⟨ps, stop, d, more, fault, h, hstop⟩
        · exact .inl ⟨ps, stop, .blank hblank h⟩
        · exact .inr ⟨ps, stop, d, more, fault, .blank hblank h, hstop⟩
      | false =>
        cases hscan : scanLexeme c cs with
        | error fault => exact .inr ⟨[], offset, c, cs, fault, .here, hblank, hscan⟩
        | ok found =>
          obtain ⟨text, tail, hsplit, hlead⟩ := leads_of_scan hblank hscan
          have hshort : tail.length < (c :: cs).length := by
            rw [hsplit, List.length_append]
            exact Nat.lt_add_of_pos_left (List.length_pos_iff.2 hlead.toList_ne_nil)
          rw [hsplit]
          rcases ih _ hshort (offset + text.utf8ByteSize) tail rfl with
            ⟨ps, stop, h⟩ | ⟨ps, stop, d, more, fault, h, hstop⟩
          · exact .inl ⟨_, stop, .lexeme hlead h⟩
          · exact .inr ⟨_, stop, d, more, fault, .lexeme hlead h, hstop⟩

/-- Where a place that is reached starts with no lexeme, reading stops there. -/
theorem Scanned.piecesFrom_eq_error {c : Char} {fault : LexicalFault}
    (h : Scanned offset cs ps stop (c :: rest)) (hc : isBlank c = false)
    (hfault : scanLexeme c rest = .error fault) :
    piecesFrom 0 offset cs = .error ⟨fault, stop, c :: rest⟩ := by
  rw [h.piecesFrom_eq, piecesFrom, if_neg (by simp [hc]), hfault]
  rfl

theorem Scanned.piecesFrom_eq_ok (h : Scanned offset cs ps stop []) : piecesFrom 0 offset cs = .ok ps := by
  rw [h.piecesFrom_eq, piecesFrom]
  exact congrArg Except.ok (List.append_nil ps)

/-- A text is cut into pieces if and only if they lead to its end. -/
theorem piecesFrom_eq_ok : piecesFrom 0 offset cs = .ok ps ↔ ∃ stop, Scanned offset cs ps stop [] := by
  constructor
  · intro h
    rcases scanned_or_stops offset cs with ⟨ps', stop, hscanned⟩ | ⟨ps', stop, c, more, fault, hscanned, hc, hfault⟩
    · rw [hscanned.piecesFrom_eq_ok] at h
      obtain rfl := Except.ok.inj h
      exact ⟨stop, hscanned⟩
    · rw [hscanned.piecesFrom_eq_error hc hfault] at h
      cases h
  · rintro ⟨stop, hscanned⟩
    exact hscanned.piecesFrom_eq_ok

/-- Reading stops exactly at the place that is reached and starts with no lexeme. -/
theorem piecesFrom_eq_error {halt : LexicalStop} : piecesFrom 0 offset cs = .error halt ↔
    ∃ ps c more, Scanned offset cs ps halt.offset (c :: more) ∧ halt.rest = c :: more ∧ isBlank c = false ∧
      scanLexeme c more = .error halt.fault := by
  constructor
  · intro h
    rcases scanned_or_stops offset cs with ⟨ps', stop, hscanned⟩ | ⟨ps', stop, c, more, fault, hscanned, hc, hfault⟩
    · rw [hscanned.piecesFrom_eq_ok] at h
      cases h
    · rw [hscanned.piecesFrom_eq_error hc hfault] at h
      obtain rfl := Except.error.inj h
      exact ⟨ps', c, more, hscanned, rfl, hc, hfault⟩
  · rintro ⟨ps, c, more, hscanned, hrest, hc, hfault⟩
    rw [hscanned.piecesFrom_eq_error hc hfault, ← hrest]

/-- The part of a text that is scanned, which is scanned on its own too. -/
theorem Scanned.cut (h : Scanned offset cs ps stop rest) : ∃ left, cs = left ++ rest ∧
    stop = offset + byteLength left ∧ Scanned offset left ps stop [] := by
  induction h with
  | here => exact ⟨[], rfl, rfl, .here⟩
  | @blank _ _ c _ _ _ hc _ ih =>
    obtain ⟨left, rfl, rfl, hscanned⟩ := ih
    exact ⟨c :: left, rfl, by rw [byteLength_cons, Nat.add_assoc], .blank hc hscanned⟩
  | @lexeme _ _ l _ _ _ hlead _ ih =>
    obtain ⟨left, rfl, rfl, hscanned⟩ := ih
    refine ⟨l.text.toList ++ left, by rw [List.append_assoc], ?_, .lexeme hlead.cut hscanned⟩
    rw [byteLength_append, utf8ByteSize_eq_byteLength, Nat.add_assoc]

/-- Every piece that is met leads the text from its place on. -/
theorem Scanned.leads (h : Scanned offset cs ps stop rest) : ∀ p ∈ ps, ∃ left right,
    cs = left ++ (p.text.toList ++ right) ∧ p.offset = offset + byteLength left ∧ p.toLexeme.Leads right := by
  induction h with
  | here => exact fun p hp => absurd hp List.not_mem_nil
  | @blank _ _ c _ _ _ _ _ ih =>
    intro p hp
    obtain ⟨left, right, rfl, hoffset, hlead⟩ := ih p hp
    exact ⟨c :: left, right, rfl, by rw [hoffset, byteLength_cons, Nat.add_assoc], hlead⟩
  | @lexeme _ _ l cs _ _ hhead _ ih =>
    intro p hp
    rcases List.mem_cons.1 hp with rfl | hp
    · exact ⟨[], cs, rfl, rfl, hhead⟩
    · obtain ⟨left, right, rfl, hoffset, hlead⟩ := ih p hp
      refine ⟨l.text.toList ++ left, right, by rw [List.append_assoc], ?_, hlead⟩
      rw [hoffset, byteLength_append, utf8ByteSize_eq_byteLength, Nat.add_assoc]

end Scanned

/-! ### Sources -/

/-- Every token of a source but the end mark is a lexeme that leads the text from its place on. -/
theorem Source.leads_of_mem_tokens {source : Source} {tokens : List Token} (h : source.tokens = .ok tokens) :
    ∀ t ∈ tokens, t = source.endMark ∨ ∃ left right, source.chars = left ++ (t.text.toList ++ right) ∧
      byteLength left = t.offset ∧ t.toLexeme.Leads right := by
  unfold Source.tokens at h
  split at h
  · rename_i ps hps
    obtain rfl := Except.ok.inj h
    obtain ⟨stop, hscanned⟩ := piecesFrom_eq_ok.1 hps
    intro t ht
    rcases List.mem_append.1 ht with ht | ht
    · obtain ⟨p, hp, rfl⟩ := List.mem_map.1 ht
      obtain ⟨left, right, htext, hoffset, hlead⟩ := hscanned.leads p hp
      exact .inr ⟨left, right, htext, (hoffset.trans (Nat.zero_add _)).symm, hlead⟩
    · exact .inl (List.mem_singleton.1 ht)
  · cases h

/-- Lexing a source fails exactly where a place that is reached starts with no lexeme. -/
theorem Source.tokens_eq_error {source : Source} {e : LexError} : source.tokens = .error e ↔
    ∃ ps offset c more fault, Scanned 0 source.chars ps offset (c :: more) ∧ isBlank c = false ∧
      scanLexeme c more = .error fault ∧ e = source.lexError ⟨fault, offset, c :: more⟩ := by
  unfold Source.tokens
  constructor
  · intro h
    split at h
    · cases h
    · rename_i halt hhalt
      obtain ⟨ps, c, more, hscanned, hrest, hc, hfault⟩ := piecesFrom_eq_error.1 hhalt
      refine ⟨ps, halt.offset, c, more, halt.fault, hscanned, hc, hfault, ?_⟩
      rw [← hrest]
      exact (Except.error.inj h).symm
  · rintro ⟨ps, offset, c, more, fault, hscanned, hc, hfault, rfl⟩
    rw [pieces, hscanned.piecesFrom_eq_error hc hfault]

end SystemVerilog
