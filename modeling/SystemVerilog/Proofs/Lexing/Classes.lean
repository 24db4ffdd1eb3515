import SystemVerilog.Proofs.Lexing.Closing
import SystemVerilog.Proofs.Lexing.Scanned
import SystemVerilog.Proofs.Literal.Decoding

/-!
# The classes of tokens and maximal munch

Every token is a text of its class, and ends where the class makes it end. Operators, words and the digits of a
based literal are the longest texts of their class that stand there; comments and strings end at the first
closing mark. So the token at a place is decided by the text from there on, whatever class is tried first.
-/

namespace SystemVerilog

/-! ### Longest texts -/

/-- Of the texts of a class that lead `text ++ rest`, the longest is `text`. -/
structure Longest (P : List Char → Prop) (text rest : List Char) : Prop where
  member : P text
  longest : ∀ w, P w → w <+: text ++ rest → w.length ≤ text.length

section Longest

variable {p : Char → Bool} {text rest : List Char}

/-- A run of characters is the longest one if the next character is not one of them. -/
theorem longest_run (h : ∀ c ∈ text, p c = true) (hrest : startsWith p rest = false) :
    Longest (fun w => ∀ c ∈ w, p c = true) text rest where
  member := h
  longest w hw := by
    rintro ⟨behind, hbehind⟩
    have hrun : (text ++ rest).takeWhile p = text := takeWhile_append_of_stop h hrest
    rw [← hbehind, List.takeWhile_append_of_pos hw] at hrun
    rw [← hrun, List.length_append]
    exact Nat.le_add_right _ _

theorem drop_runLength (p : Char → Bool) (cs : List Char) : cs.drop (runLength p cs) = cs.dropWhile p := by
  have hsplit := List.take_append_drop (runLength p cs) cs
  rw [take_runLength] at hsplit
  exact List.append_cancel_left (hsplit.trans List.takeWhile_append_dropWhile.symm)

theorem isWord_ofList {c : Char} {cs : List Char} :
    isWord (String.ofList (c :: cs)) = true ↔ isWordStart c = true ∧ ∀ d ∈ cs, isWordPart d = true := by
  simp [isWord]

/-- A word is the longest one if the next character cannot go on with it. -/
theorem longest_word (h : isWord (String.ofList text) = true) (hrest : startsWith isWordPart rest = false) :
    Longest (fun w => isWord (String.ofList w) = true) text rest where
  member := h
  longest w hw hlead := by
    cases w with
    | nil => exact Nat.zero_le _
    | cons d ws =>
      cases text with
      | nil => cases h
      | cons c cs =>
        obtain ⟨-, htail⟩ := List.cons_prefix_cons.1 hlead
        have hrun := longest_run (isWord_ofList.1 h).2 hrest
        exact Nat.succ_le_succ (hrun.longest ws (isWord_ofList.1 hw).2 htail)

end Longest

/-! ### The classes -/

/-- A based literal: a head, and behind it the longest run of digits, all valid in the radix of the head. -/
def IsBasedText (text rest : List Char) : Prop := ∃ head radix digits,
  IsIntegerText .based text head radix digits ∧ Longest (fun w => ∀ c ∈ w, isBasedDigit c = true) digits rest

/-- A text is a token of a kind where `rest` follows. -/
def IsTokenText (text rest : List Char) : TokenKind → Prop
  | .op o => text = o.spelling.toList ∧ ¬['/', '/'] <+: text ++ rest ∧ ¬['/', '*'] <+: text ++ rest ∧
      Longest (fun w => ∃ other : Operator, w = other.spelling.toList) text rest
  | .word k => text = k.spelling.toList ∧ Longest (fun w => isWord (String.ofList w) = true) text rest
  | .identifier => (∀ k : Keyword, text ≠ k.spelling.toList) ∧
      Longest (fun w => isWord (String.ofList w) = true) text rest
  | .directive => ∃ word, text = '\x60' :: word ∧ Longest (fun w => isWord (String.ofList w) = true) word rest
  | .lineComment => ∃ body, text = '/' :: '/' :: body ∧ (∀ c ∈ body, isLineBreak c = false) ∧
      (rest = [] ∨ startsWith isLineBreak rest = true)
  | .blockComment => ∃ body, text = '/' :: '*' :: (body ++ ['*', '/']) ∧
      ∀ before behind, body ++ '*' :: '/' :: rest = before ++ '*' :: '/' :: behind → body.length ≤ before.length
  | .stringLiteral => ∃ body, text = '"' :: (body ++ ['"']) ∧ Quoted ('"' :: rest) body
  | .literal => '\'' ∈ text → startsWith isWordPart rest = false ∧
      ((∃ d, text = ['\'', d] ∧ isFillDigit d = true) ∨ IsBasedText text rest)
  | .eof => text = [] ∧ rest = []

/-! ### What the classes find -/

section Found

variable {text rest cs : List Char} {n : Nat}

theorem Keyword.mem_all (k : Keyword) : k ∈ all := by
  have hget : all[k.ctorIdx]? = some k := by cases k <;> rfl
  exact List.mem_of_getElem? hget

/-- The text that is found and what follows it. -/
theorem parts_of_found {text' rest' : List Char} (h : text ++ rest = text' ++ rest')
    (hlength : text.length = text'.length) : text = text' ∧ rest = rest' := List.append_inj h hlength

theorem scanComment_eq_none (h : scanComment cs = .ok none) : ¬['/', '/'] <+: cs ∧ ¬['/', '*'] <+: cs := by
  refine ⟨?_, ?_⟩
  · rintro ⟨ds, rfl⟩
    cases h
  · rintro ⟨ds, rfl⟩
    rw [List.cons_append, List.singleton_append, scanComment] at h
    split at h <;> cases h

/-- The operators are listed longest first. -/
theorem Operator.spellings_pairwise : spellings.Pairwise fun a b => b.1.length ≤ a.1.length := by
  decide

/-- No operator that leads a text is longer than the one that is taken. -/
theorem Operator.leading?_longest {o : Operator} (h : leading? cs = some (o, n)) (other : Operator)
    (hlead : other.spelling.toList <+: cs) : other.spelling.toList.length ≤ n := by
  obtain ⟨entry, hentry, heq⟩ := Option.map_eq_some_iff.1 h
  obtain ⟨-, rfl⟩ := Prod.mk.inj heq
  obtain ⟨-, before, behind, hall, hfirst⟩ := List.find?_eq_some_iff_append.1 hentry
  have hmem : (other.spelling.toList, other) ∈ before ++ entry :: behind :=
    hall ▸ List.mem_map_of_mem (mem_all other)
  rcases List.mem_append.1 hmem with hmem | hmem
  · have hnot := hfirst _ hmem
    rw [List.isPrefixOf_iff_prefix.2 hlead] at hnot
    cases hnot
  · rcases List.mem_cons.1 hmem with rfl | hmem
    · exact Nat.le_refl _
    · have hordered := hall ▸ spellings_pairwise
      exact (List.pairwise_cons.1 (List.pairwise_append.1 hordered).2.1).1 _ hmem

theorem isTokenText_op {o : Operator} (hcomment : scanComment (text ++ rest) = .ok none)
    (h : scanOperator (text ++ rest) = .ok (some (.op o, text.length))) : IsTokenText text rest (.op o) := by
  obtain ⟨⟨o', m⟩, hlead, heq⟩ := Option.map_eq_some_iff.1 (Except.ok.inj h)
  obtain ⟨hkind, rfl⟩ := Prod.mk.inj heq
  obtain rfl := TokenKind.op.inj hkind
  obtain ⟨⟨behind, hbehind⟩, hlength⟩ := Operator.leading?_eq_some hlead
  obtain ⟨htext, -⟩ := parts_of_found hbehind.symm hlength
  obtain ⟨hline, hblock⟩ := scanComment_eq_none hcomment
  refine ⟨htext, hline, hblock, ⟨_, htext⟩, ?_⟩
  rintro w ⟨other, rfl⟩ hw
  exact Operator.leading?_longest hlead other hw

/-- The class of words finds the longest word, and its kind. -/
theorem longest_of_scanWord {kind : TokenKind} (h : scanWord (text ++ rest) = .ok (some (kind, text.length))) :
    kind = .ofWord (String.ofList text) ∧ Longest (fun w => isWord (String.ofList w) = true) text rest := by
  have hkind := scanWord_kind h
  rw [List.take_left] at hkind
  refine ⟨hkind, ?_⟩
  generalize hcs : text ++ rest = cs at h
  unfold scanWord at h
  split at h
  · cases h
  · rename_i c cs
    split at h
    · rename_i hstart
      have hlength : (c :: cs.takeWhile isWordPart).length = text.length :=
        congrArg Prod.snd (Option.some.inj (Except.ok.inj h))
      have hsplit : text ++ rest = (c :: cs.takeWhile isWordPart) ++ cs.dropWhile isWordPart := by
        rw [hcs, List.cons_append, List.takeWhile_append_dropWhile]
      obtain ⟨rfl, rfl⟩ := parts_of_found hsplit hlength.symm
      exact longest_word (isWord_ofList.2 ⟨hstart, List.all_eq_true.1 List.all_takeWhile⟩) (startsWith_dropWhile _ cs)
    · cases h

theorem isTokenText_ofWord (h : Longest (fun w => isWord (String.ofList w) = true) text rest) :
    IsTokenText text rest (.ofWord (String.ofList text)) := by
  unfold TokenKind.ofWord Keyword.ofWord?
  split
  · rename_i k hfind
    have hspelling := List.find?_some hfind
    refine ⟨?_, h⟩
    rw [beq_iff_eq.1 hspelling, String.toList_ofList]
  · rename_i hfind
    refine ⟨fun k hk => ?_, h⟩
    have hne := List.find?_eq_none.1 hfind k (Keyword.mem_all k)
    rw [hk, String.ofList_toList] at hne
    exact hne (beq_self_eq_true _)

theorem isTokenText_directive (h : scanDirective (text ++ rest) = .ok (some (.directive, text.length))) :
    IsTokenText text rest .directive := by
  generalize hcs : text ++ rest = cs at h
  unfold scanDirective at h
  split at h
  · rename_i c cs
    split at h
    · rename_i hstart
      have hlength : 2 + (cs.takeWhile isWordPart).length = text.length :=
        congrArg Prod.snd (Option.some.inj (Except.ok.inj h))
      have hsplit : text ++ rest = ('\x60' :: c :: cs.takeWhile isWordPart) ++ cs.dropWhile isWordPart := by
        rw [hcs, List.cons_append, List.cons_append, List.takeWhile_append_dropWhile]
      obtain ⟨rfl, rfl⟩ := parts_of_found hsplit (by rw [← hlength, List.length_cons, List.length_cons]; omega)
      exact ⟨c :: cs.takeWhile isWordPart, rfl,
        longest_word (isWord_ofList.2 ⟨hstart, List.all_eq_true.1 List.all_takeWhile⟩) (startsWith_dropWhile _ cs)⟩
    · cases h
  · cases h

/-- A line comment goes on to the end of its line, a block comment to its first closing mark. -/
theorem isTokenText_comment {kind : TokenKind} (h : scanComment (text ++ rest) = .ok (some (kind, text.length))) :
    IsTokenText text rest kind := by
  generalize hcs : text ++ rest = cs at h
  unfold scanComment at h
  split at h
  · rename_i cs
    obtain ⟨rfl, hlength⟩ := Prod.mk.inj (Option.some.inj (Except.ok.inj h))
    obtain ⟨behind, hline, hbody, hend⟩ := exists_line cs
    have hsplit : text ++ rest = ('/' :: '/' :: cs.takeWhile fun c => !isLineBreak c) ++ behind := by
      rw [hcs, List.cons_append, List.cons_append, ← hline]
    obtain ⟨rfl, rfl⟩ := parts_of_found hsplit (by rw [← hlength, List.length_cons, List.length_cons, runLength]; omega)
    exact ⟨_, rfl, hbody, hend⟩
  · rename_i cs
    split at h
    · rename_i m hm
      obtain ⟨rfl, hlength⟩ := Prod.mk.inj (Option.some.inj (Except.ok.inj h))
      obtain ⟨body, behind, rfl, rfl, hfirst⟩ := commentRestLength?_eq_some hm
      have hsplit : text ++ rest = ('/' :: '*' :: (body ++ ['*', '/'])) ++ behind := by simp [hcs]
      obtain ⟨rfl, rfl⟩ := parts_of_found hsplit (by simp [← hlength]; omega)
      exact ⟨body, rfl, hfirst⟩
    · cases h
  · cases h

theorem isTokenText_string (h : scanString (text ++ rest) = .ok (some (.stringLiteral, text.length))) :
    IsTokenText text rest .stringLiteral := by
  generalize hcs : text ++ rest = cs at h
  unfold scanString at h
  split at h
  · rename_i cs
    split at h
    · rename_i m hm
      have hlength : 1 + m = text.length := congrArg Prod.snd (Option.some.inj (Except.ok.inj h))
      obtain ⟨body, behind, rfl, rfl, hquoted⟩ := stringRestLength?_eq_some hm
      have hsplit : text ++ rest = ('"' :: (body ++ ['"'])) ++ behind := by simp [hcs]
      obtain ⟨rfl, rfl⟩ := parts_of_found hsplit (by simp [← hlength]; omega)
      exact ⟨body, rfl, hquoted⟩
    · cases h
  · cases h

end Found

/-! ### Numbers -/

section Numbers

variable {text rest cs : List Char} {shape : BasedShape} {n : Nat}

/-- The digits of a based literal run on as far as they can. -/
theorem basedTail?_behind {before : Nat} (h : basedTail? before cs = some shape) :
    startsWith isBasedDigit (cs.drop (shape.length - before)) = false := by
  unfold basedTail? at h
  split at h
  · cases h
  · rename_i letter cs
    split at h
    · rename_i radix d ds _ hrun
      obtain rfl := Option.some.inj h
      have hdrop : before + 1 + (ds.length + 1) - before = runLength isBasedDigit cs + 1 := by
        rw [runLength, hrun, List.length_cons]
        omega
      show startsWith isBasedDigit ((letter :: cs).drop (before + 1 + (ds.length + 1) - before)) = false
      rw [hdrop, List.drop_succ_cons, drop_runLength]
      exact startsWith_dropWhile _ cs
    · cases h

theorem basedShape?_behind (h : basedShape? cs = some shape) :
    startsWith isBasedDigit (cs.drop shape.length) = false := by
  obtain ⟨tail, hdrop, htail⟩ := basedShape?_eq_some.1 h
  have hbehind (k : Nat) (hk : sizeLength cs + (k + 1) ≤ shape.length) :
      cs.drop shape.length = (tail.drop k).drop (shape.length - (sizeLength cs + (k + 1))) := by
    obtain ⟨m, hm⟩ := Nat.exists_eq_add_of_le hk
    calc cs.drop shape.length = (cs.drop (sizeLength cs)).drop ((k + m) + 1) := by
          rw [List.drop_drop, hm]
          congr 1
          omega
      _ = (tail.drop k).drop m := by rw [hdrop, List.drop_succ_cons, List.drop_drop]
      _ = (tail.drop k).drop (shape.length - (sizeLength cs + (k + 1))) := by rw [hm, Nat.add_sub_cancel_left]
  rcases htail with ⟨-, htail⟩ | ⟨-, htail⟩
  · rw [hbehind 1 (by have := basedTail?_lt htail; omega)]
    exact basedTail?_behind htail
  · rw [hbehind 0 (by have := basedTail?_lt htail; omega), List.drop_zero]
    exact basedTail?_behind htail

/-- The digits of a based literal are the longest run of digits behind its head. -/
theorem isBasedText_of_basedShape? (h : basedShape? (text ++ rest) = some shape) (hlength : shape.length = text.length)
    (hvalid : shape.valid = true) : IsBasedText text rest := by
  obtain ⟨head, behind, hkind, hannounces, hcs, hshape, hne, hdigits⟩ := basedShape?_inv h
  obtain ⟨rfl, rfl⟩ := parts_of_found hcs (hlength.symm.trans hshape)
  have hstop := basedShape?_behind h
  rw [hlength, List.drop_left] at hstop
  refine ⟨head, shape.radix, shape.digits, ⟨rfl, hkind, hannounces, hne, fun c hc => ?_⟩, longest_run hdigits hstop⟩
  have hdigit := List.all_eq_true.1 hvalid c hc
  simpa [Radix.isDigit, or_assoc] using hdigit

theorem isTokenText_literal (h : scanNumber (text ++ rest) = .ok (some (.literal, text.length))) :
    IsTokenText text rest .literal := by
  intro hmem
  have hnumber := h
  unfold scanNumber at h
  split at h
  · rename_i shape hshape
    split at h
    · cases h
    · rename_i hgood
      have hlength : shape.length = text.length := congrArg Prod.snd (Option.some.inj (Except.ok.inj h))
      simp only [hlength, List.drop_left, Bool.or_eq_true, not_or, Bool.not_eq_true, Bool.not_eq_eq_eq_not,
        Bool.not_true, Bool.not_eq_false] at hgood
      exact ⟨hgood.1, .inr (isBasedText_of_basedShape? hshape hlength hgood.2)⟩
  · split at h
    · split at h
      · cases h
      · have hlength : decimalLength (text ++ rest) = text.length :=
          congrArg Prod.snd (Option.some.inj (Except.ok.inj h))
        have hnone := apostrophe_notMem_decimal (text ++ rest)
        rw [hlength, List.take_left] at hnone
        exact absurd hmem hnone
    · split at h
      · rename_i hfill
        split at h
        · cases h
        · rename_i hbehind
          have hlength : 2 = text.length := congrArg Prod.snd (Option.some.inj (Except.ok.inj h))
          rw [hlength, List.drop_left, Bool.not_eq_true] at hbehind
          refine ⟨hbehind, .inl ?_⟩
          generalize hcs : text ++ rest = cs at hfill
          unfold startsFill at hfill
          split at hfill
          · rename_i c cs
            obtain ⟨rfl, -⟩ : text = ['\'', c] ∧ rest = cs := parts_of_found hcs hlength.symm
            exact ⟨c, rfl, hfill⟩
          · cases hfill
      · cases h

end Numbers

/-! ### Tokens -/

theorem Lexeme.Leads.scanText {l : Lexeme} {rest : List Char} (h : l.Leads rest) :
    SystemVerilog.scanText (l.text.toList ++ rest) = .ok (some (l.kind, l.text.toList.length)) := by
  obtain ⟨c, cs, htext, -, hscan⟩ := h
  rw [htext]
  exact scanLexeme_eq_ok.1 hscan

/-- A lexeme that leads a text is a text of its class. -/
theorem Lexeme.Leads.isTokenText {l : Lexeme} {rest : List Char} (h : l.Leads rest) :
    IsTokenText l.text.toList rest l.kind := by
  obtain ⟨kind, text⟩ := l
  have hscan := h.scanText
  dsimp only at hscan ⊢
  unfold SystemVerilog.scanText at hscan
  simp only [Recognition.orElse_eq_ok, Option.isSome_some, and_true] at hscan
  rcases hscan with h | ⟨hcomment, h | ⟨-, h | ⟨-, h | ⟨-, h | ⟨-, h⟩⟩⟩⟩⟩
  · exact isTokenText_comment h
  · obtain rfl := scanString_kind h
    exact isTokenText_string h
  · obtain rfl := scanNumber_kind h
    exact isTokenText_literal h
  · obtain rfl := scanDirective_kind h
    exact isTokenText_directive h
  · cases kind with
    | op o => exact isTokenText_op hcomment h
    | _ => exact absurd (scanOperator_kind h) Bool.false_ne_true
  · obtain ⟨rfl, hlongest⟩ := longest_of_scanWord h
    exact isTokenText_ofWord hlongest

/-- Every token stands at its offset as a text of its class: no comment is taken for an operator, and words,
operators, digits, comments and strings end where their class makes them end. -/
theorem tokens_classed (source : Source) {tokens : List Token} (h : source.tokens = .ok tokens) :
    ∀ t ∈ tokens, ∃ left rest, source.chars = left ++ (t.text.toList ++ rest) ∧ byteLength left = t.offset ∧
      IsTokenText t.text.toList rest t.kind := by
  intro t ht
  rcases Source.leads_of_mem_tokens h t ht with rfl | ⟨left, rest, hchars, hoffset, hlead⟩
  · exact ⟨source.chars, [], by simp [Source.endMark, Source.place], (utf8ByteSize_eq_byteLength _).symm, rfl, rfl⟩
  · exact ⟨left, rest, hchars, hoffset, hlead.isTokenText⟩

/-- A based literal at a comment, an escaped quote in a string, and an operator at the end. -/
theorem tokens_classed_literal :
    let source : Source := { path := "<input>", text := "4'b1?//\n\"\\\"\"<<<", ending := .lf }
    let tokens : List Token := [⟨⟨.literal, "4'b1?"⟩, 0, ⟨1, 1⟩, ⟨1, 6⟩⟩, ⟨⟨.lineComment, "//"⟩, 5, ⟨1, 6⟩, ⟨1, 8⟩⟩,
      ⟨⟨.stringLiteral, "\"\\\"\""⟩, 8, ⟨2, 1⟩, ⟨2, 5⟩⟩, ⟨⟨.op .arithLeftShift, "<<<"⟩, 12, ⟨2, 5⟩, ⟨2, 8⟩⟩,
      ⟨⟨.eof, ""⟩, 15, ⟨2, 8⟩, ⟨2, 8⟩⟩]
    source.tokens = .ok tokens ∧ ∀ t ∈ tokens, ∃ left rest, source.chars = left ++ (t.text.toList ++ rest) ∧
      byteLength left = t.offset ∧ IsTokenText t.text.toList rest t.kind :=
  ⟨rfl, tokens_classed _ rfl⟩

end SystemVerilog
