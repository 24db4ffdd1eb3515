import SystemVerilog.Lexical.Scan

/-!
# Lengths of lexemes

Whatever class of lexemes is concerned with a text, it takes at least one character and no more than
there are, and never the end mark. So the lexeme that leads a text is a leading part of it.
-/

namespace SystemVerilog

/-- Where an answer recognises a lexeme, that is a non-empty leading part of the text. -/
def Recognition.Fits (answer : Recognition) (text : List Char) : Prop :=
  ∀ kind n, answer = .ok (some (kind, n)) → kind ≠ .eof ∧ 0 < n ∧ n ≤ text.length

namespace Recognition.Fits

variable {text : List Char} {kind : TokenKind} {n : Nat}

theorem none : Fits (.ok .none) text := fun _ _ h => by cases h

theorem error {fault : LexicalFault} : Fits (.error fault) text := fun _ _ h => by cases h

theorem some (hk : kind ≠ .eof) (hpos : 0 < n) (hn : n ≤ text.length) :
    Fits (.ok (.some (kind, n))) text := fun _ _ h => by
  cases h
  exact ⟨hk, hpos, hn⟩

theorem orElse {first : Recognition} {next : Unit → Recognition} (h : first.Fits text)
    (h' : (next ()).Fits text) : (first.orElse next).Fits text := by
  unfold Recognition.orElse
  split
  · exact h'
  · exact h

end Recognition.Fits

/-! ### Runs -/

theorem runLength_le (p : Char → Bool) (cs : List Char) : runLength p cs ≤ cs.length :=
  (List.takeWhile_prefix p).length_le

theorem startsWith_eq_true {p : Char → Bool} {cs : List Char} (h : startsWith p cs = true) :
    ∃ c rest, cs = c :: rest ∧ p c = true := by
  cases cs with
  | nil => cases h
  | cons c rest => exact ⟨c, rest, rfl, h⟩

theorem runLength_pos {p : Char → Bool} {cs : List Char} (h : startsWith p cs = true) :
    0 < runLength p cs := by
  obtain ⟨c, rest, rfl, hc⟩ := startsWith_eq_true h
  simp [runLength, hc]

theorem isDigitPart_of_isDigit {c : Char} (h : c.isDigit = true) : isDigitPart c = true := by
  simp [isDigitPart, h]

/-! ### Comments and strings -/

theorem commentRestLength?_le {cs : List Char} {n : Nat} (h : commentRestLength? cs = some n) :
    n ≤ cs.length := by
  fun_induction commentRestLength? cs generalizing n with
  | case1 => cases h
  | case2 => cases h; simp
  | case3 c cs hne ih =>
    obtain ⟨m, hm, rfl⟩ := Option.map_eq_some_iff.1 h
    exact Nat.succ_le_succ (ih hm)

theorem stringRestLength?_le {cs : List Char} {n : Nat} (h : stringRestLength? cs = some n) :
    n ≤ cs.length := by
  fun_induction stringRestLength? cs generalizing n with
  | case1 => cases h
  | case2 => cases h; simp
  | case3 cs ih =>
    obtain ⟨m, hm, rfl⟩ := Option.map_eq_some_iff.1 h
    exact Nat.add_le_add_right (ih hm) 3
  | case4 c cs hne ih =>
    obtain ⟨m, hm, rfl⟩ := Option.map_eq_some_iff.1 h
    exact Nat.add_le_add_right (ih hm) 2
  | case5 => cases h
  | case6 => cases h
  | case7 c cs _ _ _ _ _ ih =>
    obtain ⟨m, hm, rfl⟩ := Option.map_eq_some_iff.1 h
    exact Nat.add_le_add_right (ih hm) 1

theorem scanComment_fits (text : List Char) : (scanComment text).Fits text := by
  unfold scanComment
  split
  · rename_i cs
    refine .some nofun (by omega) ?_
    have := runLength_le (fun c => !isLineBreak c) cs
    simp only [List.length_cons]
    omega
  · rename_i cs
    split
    · rename_i n hn
      refine .some nofun (by omega) ?_
      have := commentRestLength?_le hn
      simp only [List.length_cons]
      omega
    · exact .error
  · exact .none

theorem scanString_fits (text : List Char) : (scanString text).Fits text := by
  unfold scanString
  split
  · rename_i cs
    split
    · rename_i n hn
      refine .some nofun (by omega) ?_
      have := stringRestLength?_le hn
      simp only [List.length_cons]
      omega
    · exact .error
  · exact .none

/-! ### Numbers -/

theorem sizeLength_le (cs : List Char) : sizeLength cs ≤ cs.length := by
  unfold sizeLength
  split
  · exact runLength_le _ _
  · exact Nat.zero_le _

theorem basedTail?_length {before : Nat} {cs : List Char} {shape : BasedShape}
    (h : basedTail? before cs = some shape) : 0 < shape.length ∧ shape.length ≤ before + cs.length := by
  unfold basedTail? at h
  split at h
  · cases h
  · rename_i letter cs
    split at h
    · rename_i radix d ds _ hds
      cases h
      have := runLength_le isBasedDigit cs
      rw [runLength, hds] at this
      simp only [List.length_cons] at this ⊢
      omega
    · cases h

theorem basedShape?_length {cs : List Char} {shape : BasedShape} (h : basedShape? cs = some shape) :
    0 < shape.length ∧ shape.length ≤ cs.length := by
  have hsize := sizeLength_le cs
  unfold basedShape? at h
  split at h
  · rename_i rest hdrop
    have hlen : (cs.drop (sizeLength cs)).length = rest.length + 1 := by rw [hdrop, List.length_cons]
    rw [List.length_drop] at hlen
    split at h
    · rename_i hsign
      obtain ⟨c, rest, rfl, -⟩ := startsWith_eq_true hsign
      obtain ⟨hpos, hle⟩ := basedTail?_length h
      simp only [List.drop_succ_cons, List.drop_zero, List.length_cons] at hlen hle
      omega
    · obtain ⟨hpos, hle⟩ := basedTail?_length h
      omega
  · cases h

theorem runLength_drop_le {p : Char → Bool} {cs : List Char} {k : Nat}
    (h : startsWith p (cs.drop k) = true) (q : Char → Bool) : k + runLength q (cs.drop k) ≤ cs.length := by
  obtain ⟨c, rest, hdrop, -⟩ := startsWith_eq_true h
  have hlen := congrArg List.length hdrop
  have hrun := runLength_le q (cs.drop k)
  simp only [List.length_drop, List.length_cons] at hlen hrun
  omega

theorem exponentLength_le (cs : List Char) : exponentLength cs ≤ cs.length := by
  unfold exponentLength
  split
  · exact Nat.le_refl _
  · rename_i e cs
    split
    · dsimp only
      generalize (if startsWith (fun c => c == '+' || c == '-') cs = true then 1 else 0) = sign
      split
      · rename_i hdigit
        have := runLength_drop_le hdigit isDigitPart
        simp only [List.length_cons]
        omega
      · exact Nat.zero_le _
    · exact Nat.zero_le _

theorem fractionLength_le (cs : List Char) : fractionLength cs ≤ cs.length := by
  unfold fractionLength
  split
  · rename_i cs
    split
    · have := runLength_le isDigitPart cs
      simp only [List.length_cons]
      omega
    · exact Nat.zero_le _
  · exact Nat.zero_le _

theorem decimalLength_le (cs : List Char) : decimalLength cs ≤ cs.length := by
  unfold decimalLength
  dsimp only
  have hwhole := runLength_le isDigitPart cs
  generalize runLength isDigitPart cs = whole at *
  have hfraction := fractionLength_le (cs.drop whole)
  have hexponent := exponentLength_le (cs.drop (whole + fractionLength (cs.drop whole)))
  simp only [List.length_drop] at hfraction hexponent
  omega

theorem decimalLength_pos {cs : List Char} (h : startsWith Char.isDigit cs = true) :
    0 < decimalLength cs := by
  obtain ⟨c, rest, rfl, hc⟩ := startsWith_eq_true h
  have hpos : 0 < runLength isDigitPart (c :: rest) := runLength_pos (isDigitPart_of_isDigit hc)
  unfold decimalLength
  dsimp only
  omega

theorem scanNumber_fits (text : List Char) : (scanNumber text).Fits text := by
  unfold scanNumber
  split
  · rename_i shape hshape
    obtain ⟨hpos, hle⟩ := basedShape?_length hshape
    split
    · exact .error
    · exact .some nofun hpos hle
  · split
    · rename_i hdigit
      split
      · exact .error
      · exact .some nofun (decimalLength_pos hdigit) (decimalLength_le text)
    · split
      · rename_i hfill
        split
        · exact .error
        · refine .some nofun (by decide) ?_
          unfold startsFill at hfill
          split at hfill
          · simp
          · cases hfill
      · exact .none

/-! ### Directives, operators and words -/

theorem scanDirective_fits (text : List Char) : (scanDirective text).Fits text := by
  unfold scanDirective
  split
  · rename_i c cs
    split
    · refine .some nofun (by omega) ?_
      have := runLength_le isWordPart cs
      simp only [List.length_cons]
      omega
    · exact .none
  · exact .none

theorem Operator.spelling_ne_nil (o : Operator) : o.spelling.toList ≠ [] := by cases o <;> decide

theorem Operator.leading?_eq_some {text : List Char} {o : Operator} {n : Nat}
    (h : leading? text = some (o, n)) : o.spelling.toList <+: text ∧ n = o.spelling.toList.length := by
  obtain ⟨entry, hentry, heq⟩ := Option.map_eq_some_iff.1 h
  obtain ⟨rfl, rfl⟩ := Prod.mk.inj heq
  obtain ⟨o, -, rfl⟩ := List.mem_map.1 (List.mem_of_find?_eq_some hentry)
  have hleads := List.find?_some hentry
  exact ⟨List.isPrefixOf_iff_prefix.1 hleads, rfl⟩

theorem scanOperator_fits (text : List Char) : (scanOperator text).Fits text := by
  intro kind n h
  obtain ⟨⟨o, m⟩, hlead, heq⟩ := Option.map_eq_some_iff.1 (Except.ok.inj h)
  obtain ⟨rfl, rfl⟩ := Prod.mk.inj heq
  obtain ⟨hleads, rfl⟩ := Operator.leading?_eq_some hlead
  exact ⟨nofun, List.length_pos_iff.2 o.spelling_ne_nil, hleads.length_le⟩

theorem TokenKind.ofWord_ne_eof (text : String) : ofWord text ≠ eof := by
  unfold ofWord
  split <;> nofun

theorem scanWord_fits (text : List Char) : (scanWord text).Fits text := by
  unfold scanWord
  split
  · exact .none
  · rename_i c cs
    split
    · refine .some (TokenKind.ofWord_ne_eof _) (by simp) ?_
      have := runLength_le isWordPart cs
      rw [runLength] at this
      simpa using this
    · exact .none

/-! ### The lexeme that leads a text -/

/-- The lexeme that leads a text is a non-empty leading part of it, and no end mark. -/
theorem scanLexeme_fits {c : Char} {cs : List Char} {kind : TokenKind} {n : Nat}
    (h : scanLexeme c cs = .ok (kind, n)) : kind ≠ .eof ∧ 0 < n ∧ n ≤ (c :: cs).length := by
  have hfits : Recognition.Fits ((scanComment (c :: cs)).orElse fun _ =>
      (scanString (c :: cs)).orElse fun _ => (scanNumber (c :: cs)).orElse fun _ =>
      (scanDirective (c :: cs)).orElse fun _ => (scanOperator (c :: cs)).orElse fun _ =>
      scanWord (c :: cs)) (c :: cs) :=
    .orElse (scanComment_fits _) (.orElse (scanString_fits _) (.orElse (scanNumber_fits _)
      (.orElse (scanDirective_fits _) (.orElse (scanOperator_fits _) (scanWord_fits _)))))
  unfold scanLexeme at h
  dsimp only at h
  split at h
  · rename_i found hfound
    cases h
    exact hfits kind n hfound
  · cases h
  · cases h

end SystemVerilog
