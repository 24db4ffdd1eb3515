import SystemVerilog.Proofs.Lexing.Classes

/-!
# Lexemes with a text behind them

Behind a text that is cut into lexemes another text can be written without a change to the lexemes, if it separates
the last of them. Only a line comment asks for more than a blank, and inside the text a line comment has its line
break already.
-/

namespace SystemVerilog

theorem isBlank_of_isLineBreak {c : Char} (h : isLineBreak c = true) : isBlank c = true := by
  simp only [isLineBreak, Bool.or_eq_true, beq_iff_eq] at h
  rcases h with rfl | rfl <;> rfl

section Appending

variable {offset stop : Nat} {cs rest : List Char} {ps : List Piece} {l : Lexeme} {kind : TokenKind}

/-- What starts with a line break separates every lexeme. -/
theorem Separates.of_isLineBreak (h : ∀ c more, rest = c :: more → isLineBreak c = true) : Separates kind rest :=
  ⟨fun c more hc => isBlank_of_isLineBreak (h c more hc), fun _ => h⟩

/-- A lexeme that leads a text leads it still with more behind the text, unless the lexeme is all of the text and
is not separated from what follows. -/
theorem Lexeme.Leads.append (h : l.Leads cs) (hblank : BlankLed rest) (hend : cs = [] → Separates l.kind rest) :
    l.Leads (cs ++ rest) := by
  by_cases hline : l.kind = .lineComment
  · cases cs with
    | nil => exact Scans.leads h (hend rfl)
    | cons c cs =>
      have htext := h.isTokenText
      rw [hline] at htext
      obtain ⟨-, -, -, hbreak⟩ := htext
      refine Scans.leads (cut h) (.of_isLineBreak fun d more hd => ?_)
      obtain ⟨rfl, -⟩ := List.cons.inj hd
      exact hbreak.resolve_left (List.cons_ne_nil c cs)
  · obtain ⟨c, ds, htext, hc, hscan⟩ := h
    refine ⟨c, ds, htext, hc, ?_⟩
    rw [← List.append_assoc]
    exact scanLexeme_append hscan ⟨hblank, fun h => absurd h hline⟩

theorem Scanned.eq_nil (h : Scanned offset [] ps stop rest) : ps = [] := by
  generalize hcs : ([] : List Char) = cs at h
  cases h with
  | here => rfl
  | blank => cases hcs
  | lexeme hlead => exact absurd (List.append_eq_nil_iff.1 hcs.symm).1 hlead.toList_ne_nil

/-- A text that is scanned to its end is scanned in front of what separates its last lexeme. -/
theorem Scanned.append (h : Scanned offset cs ps stop [])
    (hrest : ∀ p, ps.getLast? = some p → Separates p.kind rest) : Scanned offset (cs ++ rest) ps stop rest := by
  generalize hend : ([] : List Char) = tail at h
  induction h with
  | here =>
    subst hend
    exact .here
  | blank hc _ ih => exact .blank hc (ih hrest hend)
  | @lexeme offset _ l cs _ ps hlead hmore ih =>
    subst hend
    have hblank : BlankLed rest :=
      (hrest _ (List.getLast?_eq_some_getLast (List.cons_ne_nil _ ps))).blank
    have hlast : cs = [] → Separates l.kind rest := by
      rintro rfl
      obtain rfl := hmore.eq_nil
      exact hrest ⟨l, offset⟩ rfl
    rw [List.append_assoc]
    refine .lexeme (hlead.append hblank hlast) (ih (fun p hp => hrest p ?_) rfl)
    rw [List.getLast?_cons, hp]
    rfl

/-- The pieces of a text in front of what separates the last of them, and then the pieces of that. -/
theorem piecesFrom_append {qs : List Piece} (h : piecesFrom 0 offset cs = .ok ps)
    (hrest : ∀ p, ps.getLast? = some p → Separates p.kind rest)
    (hqs : piecesFrom 0 (offset + byteLength cs) rest = .ok qs) :
    piecesFrom 0 offset (cs ++ rest) = .ok (ps ++ qs) := by
  obtain ⟨stop, hscanned⟩ := piecesFrom_eq_ok.1 h
  obtain ⟨left, hleft, rfl, -⟩ := hscanned.cut
  rw [List.append_nil] at hleft
  rw [(hscanned.append hrest).piecesFrom_eq, ← hleft, hqs]
  rfl

end Appending

end SystemVerilog
