import SystemVerilog.Proofs.Lexing.Recognition

/-!
# Lexemes do not depend on their layout

A lexeme that has been recognised at the head of a text is recognised again when another text follows
it that starts with a blank (with a line break, behind a line comment) or is empty: no class of lexemes
looks further than its own lexeme but to see where it ends.
-/

namespace SystemVerilog

/-! ### What separates lexemes -/

/-- A text that is empty or starts with a blank. -/
def BlankLed (r : List Char) : Prop := ∀ c rest, r = c :: rest → isBlank c = true

/-- What may follow a lexeme of a kind when a text is laid out anew. -/
structure Separates (kind : TokenKind) (r : List Char) : Prop where
  blank : BlankLed r
  broken : kind = .lineComment → ∀ c rest, r = c :: rest → isLineBreak c = true

/-- The characters that separate lexemes. -/
def blanks : List Char := [' ', '\t', '\n', '\x0b', '\x0c', '\r']

theorem mem_blanks {c : Char} (h : isBlank c = true) : c ∈ blanks := by
  simpa [isBlank, blanks, or_assoc] using h

/-- A character of a class without blanks is no blank. -/
theorem isBlank_eq_false {p : Char → Bool} (hp : blanks.any p = false) {c : Char}
    (h : p c = true) : isBlank c = false := by
  cases hb : isBlank c with
  | false => rfl
  | true => exact absurd h (List.any_eq_false.1 hp c (mem_blanks hb))

theorem BlankLed.nil : BlankLed [] := fun _ _ h => by cases h

/-- A class without blanks is not entered by what starts with a blank. -/
theorem BlankLed.startsWith {p : Char → Bool} {r : List Char} (h : BlankLed r)
    (hp : blanks.any p = false) : startsWith p r = false := by
  cases r with
  | nil => rfl
  | cons c rest => exact Bool.eq_false_iff.2 (List.any_eq_false.1 hp c (mem_blanks (h c rest rfl)))

/-! ### Runs -/

section Runs

variable {p : Char → Bool} {cs r : List Char} {n k : Nat}

/-- A run that lies in the part that is kept stays as it is. -/
theorem takeWhile_relaid (h : (cs.takeWhile p).length ≤ n) (hr : startsWith p r = false) :
    (cs.take n ++ r).takeWhile p = cs.takeWhile p := by
  have hend : r.takeWhile p = [] := by
    cases r with
    | nil => rfl
    | cons c rest => exact List.takeWhile_cons_of_neg (by simpa [startsWith] using hr)
  induction cs generalizing n with
  | nil => simpa using hend
  | cons c cs ih =>
    by_cases hc : p c = true
    · rw [List.takeWhile_cons_of_pos hc, List.length_cons] at h
      cases n with
      | zero => omega
      | succ n =>
        rw [List.take_succ_cons, List.cons_append, List.takeWhile_cons_of_pos hc,
          List.takeWhile_cons_of_pos hc, ih (by omega)]
    · rw [List.takeWhile_cons_of_neg hc]
      cases n with
      | zero => exact hend
      | succ n => exact List.takeWhile_cons_of_neg hc

theorem runLength_relaid (h : runLength p cs ≤ n) (hr : startsWith p r = false) :
    runLength p (cs.take n ++ r) = runLength p cs := by
  rw [runLength, takeWhile_relaid h hr, runLength]

theorem startsWith_relaid (hn : 0 < n) (hcs : cs ≠ []) :
    startsWith p (cs.take n ++ r) = startsWith p cs := by
  cases cs with
  | nil => exact absurd rfl hcs
  | cons c cs =>
    cases n with
    | zero => omega
    | succ n => rfl

/-- A class that `r` does not start with is not entered by cutting the text short before `r`. -/
theorem startsWith_relaid_eq_false (h : startsWith p cs = false) (hr : startsWith p r = false) :
    startsWith p (cs.take n ++ r) = false := by
  cases cs with
  | nil => simpa using hr
  | cons c cs =>
    cases n with
    | zero => exact hr
    | succ n => exact h

theorem drop_relaid (hk : k ≤ n) (hlen : k ≤ cs.length) :
    (cs.take n ++ r).drop k = (cs.drop k).take (n - k) ++ r := by
  rw [List.drop_append_of_le_length (by rw [List.length_take]; omega), List.drop_take]

end Runs

/-! ### Comments and strings -/

section Closed

variable {cs r : List Char} {m n : Nat}

theorem commentRestLength?_pos (h : commentRestLength? cs = some n) : 0 < n := by
  unfold commentRestLength? at h
  split at h
  · cases h
  · cases h
    decide
  · obtain ⟨m, -, rfl⟩ := Option.map_eq_some_iff.1 h
    exact Nat.succ_pos m

theorem commentRestLength?_relaid (h : commentRestLength? cs = some m) (hn : m ≤ n) :
    commentRestLength? (cs.take n ++ r) = some m := by
  fun_induction commentRestLength? cs generalizing m n with
  | case1 => cases h
  | case2 =>
    cases h
    obtain ⟨n, rfl⟩ := Nat.exists_eq_add_of_le' hn
    rfl
  | case3 c cs hne ih =>
    obtain ⟨m, hm, rfl⟩ := Option.map_eq_some_iff.1 h
    obtain ⟨n, rfl⟩ : ∃ k, n = k + 1 := ⟨n - 1, by omega⟩
    have hpos := commentRestLength?_pos hm
    have hread := ih hm (Nat.le_of_succ_le_succ hn)
    rw [List.take_succ_cons, List.cons_append, commentRestLength?, hread, Option.map_some]
    rintro cs' rfl heq
    cases cs with
    | nil => simp [commentRestLength?] at hm
    | cons d cs =>
      cases n with
      | zero => omega
      | succ n =>
        obtain ⟨rfl, -⟩ := List.cons.inj heq
        exact hne cs rfl rfl

theorem stringRestLength?_pos (h : stringRestLength? cs = some n) : 0 < n := by
  unfold stringRestLength? at h
  split at h
  · cases h
  · cases h
    decide
  · obtain ⟨m, -, rfl⟩ := Option.map_eq_some_iff.1 h
    omega
  · obtain ⟨m, -, rfl⟩ := Option.map_eq_some_iff.1 h
    omega
  · cases h
  · cases h
  · obtain ⟨m, -, rfl⟩ := Option.map_eq_some_iff.1 h
    omega

theorem stringRestLength?_relaid (h : stringRestLength? cs = some m) (hn : m ≤ n) :
    stringRestLength? (cs.take n ++ r) = some m := by
  fun_induction stringRestLength? cs generalizing m n with
  | case1 => cases h
  | case2 =>
    cases h
    obtain ⟨n, rfl⟩ := Nat.exists_eq_add_of_le' hn
    rfl
  | case3 cs ih =>
    obtain ⟨m, hm, rfl⟩ := Option.map_eq_some_iff.1 h
    obtain ⟨n, rfl⟩ : ∃ k, n = k + 3 := ⟨n - 3, by omega⟩
    simp [stringRestLength?, ih hm (Nat.le_of_add_le_add_right hn)]
  | case4 c cs hne ih =>
    obtain ⟨m, hm, rfl⟩ := Option.map_eq_some_iff.1 h
    obtain ⟨n, rfl⟩ : ∃ k, n = k + 2 := ⟨n - 2, by omega⟩
    have hpos := stringRestLength?_pos hm
    have hread := ih hm (Nat.le_of_add_le_add_right hn)
    rw [List.take_succ_cons, List.take_succ_cons, List.cons_append, List.cons_append,
      stringRestLength?, hread, Option.map_some]
    rintro cs' rfl heq
    cases cs with
    | nil => simp [stringRestLength?] at hm
    | cons d cs =>
      cases n with
      | zero => omega
      | succ n =>
        obtain ⟨rfl, -⟩ := List.cons.inj heq
        exact hne cs rfl rfl
  | case5 => cases h
  | case6 => cases h
  | case7 c cs h₁ h₂ h₃ h₄ h₅ ih =>
    obtain ⟨m, hm, rfl⟩ := Option.map_eq_some_iff.1 h
    obtain ⟨n, rfl⟩ : ∃ k, n = k + 1 := ⟨n - 1, by omega⟩
    have hread := ih hm (Nat.le_of_succ_le_succ hn)
    have hplain : c ≠ '\\' := by
      rintro rfl
      cases cs with
      | nil => simp [stringRestLength?] at hm
      | cons d cs => exact h₃ d cs rfl rfl
    rw [List.take_succ_cons, List.cons_append, stringRestLength?, hread, Option.map_some]
    · exact h₁
    · exact fun _ hc => absurd hc hplain
    · exact fun _ _ hc => absurd hc hplain
    · exact h₄
    · exact h₅

end Closed

/-! ### Numbers -/

section Numbers

variable {cs r : List Char} {n : Nat}

theorem digits_pos (h : startsWith Char.isDigit cs = true) : 0 < runLength isDigitPart cs ∧ cs ≠ [] := by
  obtain ⟨c, rest, rfl, hc⟩ := startsWith_eq_true h
  exact ⟨runLength_pos (isDigitPart_of_isDigit hc), List.cons_ne_nil c rest⟩

theorem fractionLength_of_startsWith (h : startsWith (· == '.') cs = false) : fractionLength cs = 0 := by
  unfold fractionLength
  split
  · cases h
  · rfl

theorem exponentLength_of_startsWith (h : startsWith (fun c => c == 'e' || c == 'E') cs = false) :
    exponentLength cs = 0 := by
  unfold exponentLength
  split
  · rfl
  · rw [startsWith] at h
    simp only [h, Bool.false_eq_true, if_false]

theorem basedTail?_lt {before : Nat} {shape : BasedShape} (h : basedTail? before cs = some shape) :
    before + 1 < shape.length := by
  unfold basedTail? at h
  split at h
  · cases h
  · split at h
    · obtain rfl := Option.some.inj h
      dsimp only
      omega
    · cases h

theorem basedShape?_eq_some {shape : BasedShape} : basedShape? cs = some shape ↔
    ∃ rest, cs.drop (sizeLength cs) = '\'' :: rest ∧
      (startsWith isSignMark rest = true ∧ basedTail? (sizeLength cs + 2) (rest.drop 1) = some shape ∨
        startsWith isSignMark rest = false ∧ basedTail? (sizeLength cs + 1) rest = some shape) := by
  constructor
  · intro h
    unfold basedShape? at h
    split at h
    · rename_i rest hdrop
      refine ⟨rest, hdrop, ?_⟩
      split at h
      · rename_i hsign
        exact .inl ⟨hsign, h⟩
      · rename_i hsign
        exact .inr ⟨by simpa using hsign, h⟩
    · cases h
  · rintro ⟨rest, hdrop, ⟨hsign, h⟩ | ⟨hsign, h⟩⟩
    · simp only [basedShape?, hdrop, hsign, if_true, h]
    · simp only [basedShape?, hdrop, hsign, Bool.false_eq_true, if_false, h]

variable (hr : BlankLed r)
include hr

theorem sizeLength_relaid (h : sizeLength cs ≤ n) : sizeLength (cs.take n ++ r) = sizeLength cs := by
  have hdigit := hr.startsWith (p := Char.isDigit) (by decide)
  unfold sizeLength at h ⊢
  by_cases hcs : startsWith Char.isDigit cs = true
  · rw [if_pos hcs] at h ⊢
    obtain ⟨hpos, hne⟩ := digits_pos hcs
    rw [if_pos (by rw [startsWith_relaid (by omega) hne, hcs]),
      runLength_relaid h (hr.startsWith (by decide))]
  · rw [if_neg hcs, if_neg]
    simp [startsWith_relaid_eq_false (by simpa using hcs) hdigit]

theorem digitRun_relaid (h : runLength isDigitPart cs ≤ n) (hd : startsWith Char.isDigit cs = true) :
    startsWith Char.isDigit (cs.take n ++ r) = true ∧
      runLength isDigitPart (cs.take n ++ r) = runLength isDigitPart cs := by
  obtain ⟨hpos, hne⟩ := digits_pos hd
  exact ⟨by rw [startsWith_relaid (by omega) hne, hd], runLength_relaid h (hr.startsWith (by decide))⟩

theorem fractionLength_relaid (h : fractionLength cs ≤ n) :
    fractionLength (cs.take n ++ r) = fractionLength cs := by
  have hblank := hr.startsWith (p := (· == '.')) (by decide)
  by_cases hpoint : startsWith (· == '.') cs = true
  · obtain ⟨c, cs, rfl, hc⟩ := startsWith_eq_true hpoint
    obtain rfl : c = '.' := by simpa using hc
    by_cases hd : startsWith Char.isDigit cs = true
    · simp only [fractionLength, if_pos hd] at h ⊢
      cases n with
      | zero => omega
      | succ n =>
        obtain ⟨hd', hrun⟩ := digitRun_relaid hr (n := n) (by omega) hd
        simp only [List.take_succ_cons, List.cons_append, if_pos hd', hrun]
    · simp only [fractionLength, if_neg hd]
      cases n with
      | zero => exact fractionLength_of_startsWith hblank
      | succ n =>
        have hd' := startsWith_relaid_eq_false (n := n) (by simpa using hd)
          (hr.startsWith (p := Char.isDigit) (by decide))
        simp [hd']
  · have hpoint : startsWith (· == '.') cs = false := by simpa using hpoint
    rw [fractionLength_of_startsWith hpoint,
      fractionLength_of_startsWith (startsWith_relaid_eq_false hpoint hblank)]

theorem exponentLength_relaid (h : exponentLength cs ≤ n) :
    exponentLength (cs.take n ++ r) = exponentLength cs := by
  have hblank := hr.startsWith (p := fun c => c == 'e' || c == 'E') (by decide)
  have hdigit := hr.startsWith (p := Char.isDigit) (by decide)
  have hsign := hr.startsWith (p := fun c => c == '+' || c == '-') (by decide)
  by_cases hletter : startsWith (fun c => c == 'e' || c == 'E') cs = true
  · obtain ⟨e, cs, rfl, he⟩ := startsWith_eq_true hletter
    cases n with
    | zero =>
      rw [Nat.le_zero.1 h]
      exact exponentLength_of_startsWith hblank
    | succ n =>
      simp only [exponentLength, he, if_true, List.take_succ_cons, List.cons_append] at h ⊢
      by_cases hs : startsWith (fun c => c == '+' || c == '-') cs = true
      · obtain ⟨s, cs, rfl, hs'⟩ := startsWith_eq_true hs
        have hcons (ts : List Char) : startsWith (fun c => c == '+' || c == '-') (s :: ts) = true := hs'
        simp only [hcons, if_true, List.drop_succ_cons, List.drop_zero] at h ⊢
        by_cases hd : startsWith Char.isDigit cs = true
        · rw [if_pos hd] at h ⊢
          cases n with
          | zero => omega
          | succ n =>
            obtain ⟨hd', hrun⟩ := digitRun_relaid hr (n := n) (by omega) hd
            simp only [List.take_succ_cons, List.cons_append, hcons, if_true, List.drop_succ_cons,
              List.drop_zero, if_pos hd', hrun]
        · rw [if_neg hd]
          cases n with
          | zero => simp [hsign, hdigit]
          | succ n =>
            have hd' := startsWith_relaid_eq_false (n := n) (by simpa using hd) hdigit
            simp only [List.take_succ_cons, List.cons_append, hcons, if_true, List.drop_succ_cons,
              List.drop_zero, hd', Bool.false_eq_true, if_false]
      · have hs : startsWith (fun c => c == '+' || c == '-') cs = false := by simpa using hs
        have hs' := startsWith_relaid_eq_false (n := n) hs hsign
        simp only [hs, hs', Bool.false_eq_true, if_false, List.drop_zero, Nat.add_zero] at h ⊢
        by_cases hd : startsWith Char.isDigit cs = true
        · rw [if_pos hd] at h ⊢
          obtain ⟨hd', hrun⟩ := digitRun_relaid hr (n := n) (by omega) hd
          rw [if_pos hd', hrun]
        · have hd' := startsWith_relaid_eq_false (n := n) (by simpa using hd) hdigit
          rw [if_neg hd, if_neg (by simp [hd'])]
  · have hletter : startsWith (fun c => c == 'e' || c == 'E') cs = false := by simpa using hletter
    rw [exponentLength_of_startsWith hletter,
      exponentLength_of_startsWith (startsWith_relaid_eq_false hletter hblank)]

theorem decimalLength_relaid (h : decimalLength cs ≤ n) :
    decimalLength (cs.take n ++ r) = decimalLength cs := by
  unfold decimalLength at h ⊢
  dsimp only at h ⊢
  have hwhole := runLength_le isDigitPart cs
  have hfraction := fractionLength_le (cs.drop (runLength isDigitPart cs))
  rw [List.length_drop] at hfraction
  rw [runLength_relaid (by omega) (hr.startsWith (by decide)), drop_relaid (by omega) hwhole,
    fractionLength_relaid hr (by omega), drop_relaid (by omega) (by omega),
    exponentLength_relaid hr (by omega)]

theorem basedTail?_blankLed (before : Nat) : basedTail? before r = none := by
  cases r with
  | nil => rfl
  | cons c rest =>
    have hletter : Radix.ofLetter? c = none := by
      have hc := mem_blanks (hr c rest rfl)
      simp only [blanks, List.mem_cons, List.not_mem_nil, or_false] at hc
      rcases hc with rfl | rfl | rfl | rfl | rfl | rfl <;> rfl
    simp only [basedTail?, hletter]

theorem basedTail?_relaid {before : Nat} {shape : BasedShape} (h : basedTail? before cs = some shape)
    (hlen : shape.length ≤ before + n) : basedTail? before (cs.take n ++ r) = some shape := by
  cases cs with
  | nil => cases h
  | cons letter cs =>
    unfold basedTail? at h
    dsimp only at h
    split at h
    · rename_i radix d ds hradix hdigits
      obtain rfl := Option.some.inj h
      dsimp only at hlen
      cases n with
      | zero => omega
      | succ n =>
        have hrun := takeWhile_relaid (n := n) (by rw [hdigits, List.length_cons]; omega)
          (hr.startsWith (p := isBasedDigit) (by decide))
        simp only [List.take_succ_cons, List.cons_append, basedTail?, hradix, hrun, hdigits]
    · cases h

theorem basedTail?_relaid_none {before : Nat} (h : basedTail? before cs = none) :
    basedTail? before (cs.take n ++ r) = none := by
  cases cs with
  | nil => simpa using basedTail?_blankLed hr before
  | cons letter cs =>
    cases n with
    | zero => exact basedTail?_blankLed hr before
    | succ n =>
      unfold basedTail? at h
      dsimp only at h
      cases hradix : Radix.ofLetter? letter with
      | none => simp only [List.take_succ_cons, List.cons_append, basedTail?, hradix]
      | some radix =>
        cases hdigits : cs.takeWhile isBasedDigit with
        | cons d ds => simp [hradix, hdigits] at h
        | nil =>
          have hrun := takeWhile_relaid (n := n) (by rw [hdigits]; exact Nat.zero_le _)
            (hr.startsWith (p := isBasedDigit) (by decide))
          simp only [List.take_succ_cons, List.cons_append, basedTail?, hradix, hrun, hdigits]

theorem basedShape?_relaid {shape : BasedShape} (h : basedShape? cs = some shape)
    (hlen : shape.length ≤ n) : basedShape? (cs.take n ++ r) = some shape := by
  have hsize := sizeLength_le cs
  obtain ⟨rest, hdrop, htail⟩ := basedShape?_eq_some.1 h
  have hlt : sizeLength cs + 1 < shape.length := by
    rcases htail with ⟨-, ht⟩ | ⟨-, ht⟩ <;> have := basedTail?_lt ht <;> omega
  obtain ⟨m, hm⟩ : ∃ m, n - sizeLength cs = m + 1 := ⟨n - sizeLength cs - 1, by omega⟩
  refine basedShape?_eq_some.2 ⟨rest.take m ++ r, ?_, ?_⟩
  · rw [sizeLength_relaid hr (by omega), drop_relaid (by omega) hsize, hdrop, hm]
    rfl
  · rw [sizeLength_relaid hr (by omega)]
    rcases htail with ⟨hsign, ht⟩ | ⟨hsign, ht⟩
    · have hlt' := basedTail?_lt ht
      obtain ⟨d, ds, rfl, -⟩ := startsWith_eq_true hsign
      refine .inl ⟨by rw [startsWith_relaid (by omega) (List.cons_ne_nil d ds), hsign], ?_⟩
      rw [drop_relaid (by omega) (by simp)]
      exact basedTail?_relaid hr ht (by omega)
    · exact .inr ⟨startsWith_relaid_eq_false hsign (hr.startsWith (by decide)),
        basedTail?_relaid hr ht (by omega)⟩

theorem basedShape?_relaid_none (h : basedShape? cs = none) (hlen : sizeLength cs ≤ n) :
    basedShape? (cs.take n ++ r) = none := by
  have hnone {shape : BasedShape} : ¬basedShape? cs = some shape := by simp [h]
  have hblankSign := hr.startsWith (p := isSignMark) (by decide)
  cases hshape : basedShape? (cs.take n ++ r) with
  | none => rfl
  | some shape =>
    exfalso
    obtain ⟨rest', hdrop', htail⟩ := basedShape?_eq_some.1 hshape
    rw [sizeLength_relaid hr hlen] at hdrop' htail
    rw [drop_relaid hlen (sizeLength_le cs)] at hdrop'
    have hapostrophe : r ≠ '\'' :: rest' := by
      rintro rfl
      exact absurd (hr _ _ rfl) (by decide)
    cases hkeep : n - sizeLength cs with
    | zero => exact hapostrophe (by simpa [hkeep] using hdrop')
    | succ m =>
      rw [hkeep] at hdrop'
      cases hdrop : cs.drop (sizeLength cs) with
      | nil => exact hapostrophe (by simpa [hdrop] using hdrop')
      | cons q rest =>
        rw [hdrop, List.take_succ_cons, List.cons_append] at hdrop'
        obtain ⟨rfl, rfl⟩ := List.cons.inj hdrop'
        have hplain (hsign : startsWith isSignMark rest = false) :
            basedTail? (sizeLength cs + 1) rest = none := by
          cases ht : basedTail? (sizeLength cs + 1) rest with
          | none => rfl
          | some shape' => exact absurd (basedShape?_eq_some.2 ⟨rest, hdrop, .inr ⟨hsign, ht⟩⟩) hnone
        have hsigned (hsign : startsWith isSignMark rest = true) :
            basedTail? (sizeLength cs + 2) (rest.drop 1) = none := by
          cases ht : basedTail? (sizeLength cs + 2) (rest.drop 1) with
          | none => rfl
          | some shape' => exact absurd (basedShape?_eq_some.2 ⟨rest, hdrop, .inl ⟨hsign, ht⟩⟩) hnone
        by_cases hsign : startsWith isSignMark rest = true
        · obtain ⟨d, ds, rfl, hd⟩ := startsWith_eq_true hsign
          cases m with
          | zero =>
            rcases htail with ⟨hsign', -⟩ | ⟨-, ht⟩
            · simp [hblankSign] at hsign'
            · simp [basedTail?_blankLed hr] at ht
          | succ m =>
            have hsign' : startsWith isSignMark ((d :: ds).take (m + 1) ++ r) = true := hd
            rcases htail with ⟨-, ht⟩ | ⟨hfalse, -⟩
            · have hnew : basedTail? (sizeLength cs + 2) (ds.take m ++ r) = none :=
                basedTail?_relaid_none hr (hsigned hsign)
              exact absurd (hnew.symm.trans ht) nofun
            · rw [hsign'] at hfalse
              cases hfalse
        · have hsign : startsWith isSignMark rest = false := by simpa using hsign
          have hsign' := startsWith_relaid_eq_false (n := m) hsign hblankSign
          rcases htail with ⟨htrue, -⟩ | ⟨-, ht⟩
          · rw [hsign'] at htrue
            cases htrue
          · rw [basedTail?_relaid_none hr (hplain hsign)] at ht
            cases ht

end Numbers

/-! ### The classes -/

/-- A class of lexemes says the same about a text that is cut short somewhere behind its first lexeme. -/
structure Stable (scan : List Char → Recognition) : Prop where
  found : ∀ {cs r : List Char} {kind : TokenKind} {m n : Nat}, scan cs = .ok (some (kind, m)) → m ≤ n →
    Separates kind r → scan (cs.take n ++ r) = .ok (some (kind, m))
  unconcerned : ∀ {c : Char} {cs r : List Char} {n : Nat}, scan (c :: cs) = .ok none → BlankLed r →
    scan (c :: (cs.take n ++ r)) = .ok none

/-- What is no blank at the head of a text that was cut short stood there before. -/
theorem head_of_relaid {cs ds r : List Char} {n : Nat} {d : Char} (hr : BlankLed r)
    (hd : isBlank d = false) (h : cs.take n ++ r = d :: ds) : ∃ ds', cs = d :: ds' := by
  have hne : r ≠ d :: ds := by
    rintro rfl
    rw [hr d ds rfl] at hd
    cases hd
  cases cs with
  | nil => exact absurd (by simpa using h) hne
  | cons c cs =>
    cases n with
    | zero => exact absurd (by simpa using h) hne
    | succ n => exact ⟨cs, by rw [(List.cons.inj h).1]⟩

theorem stable_scanComment : Stable scanComment where
  found {cs r kind m n} h hn hr := by
    unfold scanComment at h
    split at h
    · rename_i cs
      cases h
      obtain ⟨n, rfl⟩ : ∃ k, n = k + 2 := ⟨n - 2, by omega⟩
      have hbreak : startsWith (fun c => !isLineBreak c) r = false := by
        cases r with
        | nil => rfl
        | cons c rest => simp [startsWith, hr.broken rfl c rest rfl]
      have hrun : runLength _ (cs.take n ++ r) = runLength _ cs := runLength_relaid (by omega) hbreak
      rw [List.take_succ_cons, List.take_succ_cons, List.cons_append, List.cons_append, scanComment, hrun]
    · rename_i cs
      split at h
      · rename_i m hm
        cases h
        obtain ⟨n, rfl⟩ : ∃ k, n = k + 2 := ⟨n - 2, by omega⟩
        rw [List.take_succ_cons, List.take_succ_cons, List.cons_append, List.cons_append, scanComment,
          commentRestLength?_relaid hm (by omega)]
      · cases h
    · cases h
  unconcerned {c cs r n} h hr := by
    unfold scanComment
    split
    · rename_i heq
      obtain ⟨rfl, htail⟩ := List.cons.inj heq
      obtain ⟨ds, rfl⟩ := head_of_relaid hr (by decide) htail
      cases h
    · rename_i heq
      obtain ⟨rfl, htail⟩ := List.cons.inj heq
      obtain ⟨ds, rfl⟩ := head_of_relaid hr (by decide) htail
      rw [scanComment] at h
      split at h <;> cases h
    · rfl

theorem stable_scanString : Stable scanString where
  found {cs r kind m n} h hn hr := by
    unfold scanString at h
    split at h
    · rename_i cs
      split at h
      · rename_i m hm
        cases h
        obtain ⟨n, rfl⟩ : ∃ k, n = k + 1 := ⟨n - 1, by omega⟩
        rw [List.take_succ_cons, List.cons_append, scanString, stringRestLength?_relaid hm (by omega)]
      · cases h
    · cases h
  unconcerned {c cs r n} h hr := by
    unfold scanString
    split
    · rename_i heq
      obtain ⟨rfl, -⟩ := List.cons.inj heq
      rw [scanString] at h
      split at h <;> cases h
    · rfl

theorem stable_scanDirective : Stable scanDirective where
  found {cs r kind m n} h hn hr := by
    unfold scanDirective at h
    split at h
    · rename_i c cs
      split at h
      · rename_i hc
        cases h
        obtain ⟨n, rfl⟩ : ∃ k, n = k + 2 := ⟨n - 2, by omega⟩
        have hword : startsWith isWordPart r = false := hr.blank.startsWith (by decide)
        have hrun : runLength _ (cs.take n ++ r) = runLength _ cs := runLength_relaid (by omega) hword
        rw [List.take_succ_cons, List.take_succ_cons, List.cons_append, List.cons_append, scanDirective,
          if_pos hc, hrun]
      · cases h
    · cases h
  unconcerned {c cs r n} h hr := by
    unfold scanDirective
    split
    · rename_i d ds heq
      obtain ⟨rfl, htail⟩ := List.cons.inj heq
      split
      · rename_i hd
        obtain ⟨ds', rfl⟩ := head_of_relaid hr (isBlank_eq_false (by decide) hd) htail
        rw [scanDirective, if_pos hd] at h
        cases h
      · rfl
    · rfl

theorem stable_scanWord : Stable scanWord where
  found {cs r kind m n} h hn hr := by
    unfold scanWord at h
    split at h
    · cases h
    · rename_i c cs
      split at h
      · rename_i hc
        cases h
        rw [List.length_cons] at hn
        obtain ⟨n, rfl⟩ : ∃ k, n = k + 1 := ⟨n - 1, by omega⟩
        have hword : startsWith isWordPart r = false := hr.blank.startsWith (by decide)
        have hrun : (cs.take n ++ r).takeWhile _ = cs.takeWhile _ := takeWhile_relaid (by omega) hword
        rw [List.take_succ_cons, List.cons_append, scanWord, if_pos hc, hrun]
      · cases h
  unconcerned {c cs r n} h hr := by
    unfold scanWord at h ⊢
    dsimp only at h ⊢
    split at h
    · cases h
    · rename_i hc
      rw [if_neg hc]

theorem scanNumber_eq_none {cs : List Char} : scanNumber cs = .ok none ↔
    basedShape? cs = none ∧ startsWith Char.isDigit cs = false ∧ startsFill cs = false := by
  unfold scanNumber
  constructor
  · intro h
    split at h
    · split at h <;> cases h
    · rename_i hshape
      refine ⟨hshape, ?_⟩
      split at h
      · split at h <;> cases h
      · rename_i hdigit
        split at h
        · split at h <;> cases h
        · rename_i hfill
          exact ⟨by simpa using hdigit, by simpa using hfill⟩
  · rintro ⟨hshape, hdigit, hfill⟩
    simp [hshape, hdigit, hfill]

/-- What a fill is cut down to is no based literal. -/
theorem basedShape?_of_startsFill {c : Char} {r : List Char} (h : isFillDigit c = true) :
    basedShape? ('\'' :: c :: r) = none := by
  have hletter : isSignMark c = false ∧ Radix.ofLetter? c = none := by
    simp only [isFillDigit, Bool.or_eq_true, beq_iff_eq, or_assoc] at h
    rcases h with rfl | rfl | rfl | rfl | rfl | rfl <;> exact ⟨by decide, rfl⟩
  have hsize : sizeLength ('\'' :: c :: r) = 0 := by
    rw [sizeLength, if_neg (by simp [startsWith])]
  unfold basedShape?
  rw [hsize, List.drop_zero]
  simp only [startsWith, hletter.1, Bool.false_eq_true, if_false, basedTail?, hletter.2]

theorem stable_scanNumber : Stable scanNumber where
  found {cs r kind m n} h hn hr := by
    have hword := hr.blank.startsWith (p := isWordPart) (by decide)
    unfold scanNumber at h
    split at h
    · rename_i shape hshape
      split at h
      · cases h
      · rename_i hgood
        cases h
        simp only [Bool.or_eq_true, not_or, Bool.not_eq_true] at hgood
        have hlen := (basedShape?_length hshape).2
        have hbehind := startsWith_relaid_eq_false (n := n - shape.length) hgood.1 hword
        rw [scanNumber, basedShape?_relaid hr.blank hshape hn]
        simp [drop_relaid hn hlen, hbehind, hgood.2]
    · rename_i hshape
      split at h
      · rename_i hdigit
        split at h
        · cases h
        · rename_i hsize
          cases h
          have hrun : runLength isDigitPart cs ≤ n := by
            unfold decimalLength at hn
            dsimp only at hn
            omega
          have hsize' : sizeLength cs = runLength isDigitPart cs := by rw [sizeLength, if_pos hdigit]
          obtain ⟨hdigit', hrun'⟩ := digitRun_relaid hr.blank hrun hdigit
          have hbase := startsWith_relaid_eq_false (n := n - runLength isDigitPart cs)
            (by simpa using hsize) (hr.blank.startsWith (p := (· == '\'')) (by decide))
          rw [scanNumber, basedShape?_relaid_none hr.blank hshape (hsize' ▸ hrun)]
          simp only [if_pos hdigit', hrun', drop_relaid hrun (runLength_le _ _), hbase,
            Bool.false_eq_true, if_false, decimalLength_relaid hr.blank hn]
      · rename_i hdigit
        split at h
        · rename_i hfill
          split at h
          · cases h
          · rename_i hbehind
            cases h
            obtain ⟨n, rfl⟩ : ∃ k, n = k + 2 := ⟨n - 2, by omega⟩
            unfold startsFill at hfill
            split at hfill
            · rename_i c rest
              have hshape' := basedShape?_of_startsFill (r := rest.take n ++ r) hfill
              have hdigit' : startsWith Char.isDigit ('\'' :: c :: (rest.take n ++ r)) = false := rfl
              have hbehind' := startsWith_relaid_eq_false (n := n) (by simpa using hbehind) hword
              rw [List.take_succ_cons, List.take_succ_cons, List.cons_append, List.cons_append]
              simp [scanNumber, hshape', hdigit', startsFill, hfill, hbehind']
            · cases hfill
        · cases h
  unconcerned {c cs r n} h hr := by
    obtain ⟨hshape, hdigit, hfill⟩ := scanNumber_eq_none.1 h
    have hsize : sizeLength (c :: cs) = 0 := by rw [sizeLength, if_neg (by simp [hdigit])]
    refine scanNumber_eq_none.2 ⟨?_, hdigit, ?_⟩
    · exact basedShape?_relaid_none (n := n + 1) hr hshape (by omega)
    · cases hnew : startsFill (c :: (cs.take n ++ r)) with
      | false => rfl
      | true =>
        unfold startsFill at hnew
        split at hnew
        · rename_i d ds heq
          obtain ⟨rfl, htail⟩ := List.cons.inj heq
          obtain ⟨ds', rfl⟩ := head_of_relaid hr (isBlank_eq_false (by decide) hnew) htail
          rw [startsFill, hnew] at hfill
          cases hfill
        · cases hnew

/-! ### Operators -/

theorem Operator.not_blank_of_mem_spelling (o : Operator) : ∀ c ∈ o.spelling.toList, isBlank c = false := by
  have hnone : o.spelling.toList.any isBlank = false := by cases o <;> decide
  exact fun c hc => Bool.eq_false_iff.2 (List.any_eq_false.1 hnone c hc)

/-- What holds no blank and leads a text that was cut short led the whole text. -/
theorem prefix_of_relaid {w cs r : List Char} {n : Nat} (hr : BlankLed r)
    (hw : ∀ c ∈ w, isBlank c = false) (h : w <+: cs.take n ++ r) : w <+: cs := by
  induction w generalizing cs n with
  | nil => exact List.nil_prefix
  | cons d w ih =>
    obtain ⟨t, ht⟩ := h
    obtain ⟨ds, rfl⟩ := head_of_relaid hr (hw d (by simp)) ht.symm
    cases n with
    | zero =>
      have hd := hr d _ (by simpa using ht.symm)
      rw [hw d (by simp)] at hd
      cases hd
    | succ n =>
      have htail := (List.cons.inj ht).2
      exact List.cons_prefix_cons.2 ⟨rfl, ih (fun c hc => hw c (by simp [hc])) ⟨t, htail⟩⟩

theorem Operator.isPrefixOf_of_relaid {entry : List Char × Operator} {cs r : List Char} {n : Nat}
    (hr : BlankLed r) (he : entry ∈ spellings) (h : entry.1.isPrefixOf (cs.take n ++ r) = true) :
    entry.1.isPrefixOf cs = true := by
  obtain ⟨o, -, rfl⟩ := List.mem_map.1 he
  rw [List.isPrefixOf_iff_prefix] at h ⊢
  exact prefix_of_relaid hr o.not_blank_of_mem_spelling h

theorem stable_scanOperator : Stable scanOperator where
  found {cs r kind m n} h hn hr := by
    obtain ⟨⟨o, m⟩, hlead, heq⟩ := Option.map_eq_some_iff.1 (Except.ok.inj h)
    obtain ⟨rfl, rfl⟩ := Prod.mk.inj heq
    obtain ⟨entry, hentry, heq⟩ := Option.map_eq_some_iff.1 hlead
    obtain ⟨rfl, rfl⟩ := Prod.mk.inj heq
    obtain ⟨hmatch, before, behind, hall, hfirst⟩ := List.find?_eq_some_iff_append.1 hentry
    have hfind : Operator.spellings.find? (fun e => e.1.isPrefixOf (cs.take n ++ r)) = some entry := by
      refine List.find?_eq_some_iff_append.2 ⟨?_, before, behind, hall, fun e he => ?_⟩
      · rw [List.isPrefixOf_iff_prefix] at hmatch ⊢
        exact (List.prefix_take_iff.2 ⟨hmatch, hn⟩).trans (List.prefix_append _ _)
      · have hmem : e ∈ Operator.spellings := by
          rw [hall]
          simp [he]
        have hold := hfirst e he
        by_cases hnew : e.1.isPrefixOf (cs.take n ++ r) = true
        · rw [Operator.isPrefixOf_of_relaid hr.blank hmem hnew] at hold
          cases hold
        · simp only [hnew, Bool.not_false]
    rw [scanOperator, Operator.leading?, hfind]
    rfl
  unconcerned {c cs r n} h hr := by
    have hnone : Operator.spellings.find? (fun e => e.1.isPrefixOf (c :: cs)) = none := by
      have hlead := Option.map_eq_none_iff.1 (Except.ok.inj h)
      exact Option.map_eq_none_iff.1 hlead
    have hnew : Operator.spellings.find? (fun e => e.1.isPrefixOf (c :: (cs.take n ++ r))) = none := by
      rw [List.find?_eq_none] at hnone ⊢
      intro e he hlead
      exact hnone e he (Operator.isPrefixOf_of_relaid (n := n + 1) hr he hlead)
    rw [scanOperator, Operator.leading?, hnew]
    rfl

/-! ### The lexeme that leads a text -/

theorem Recognition.orElse_eq_ok {first : Recognition} {next : Unit → Recognition}
    {answer : Option (TokenKind × Nat)} : first.orElse next = .ok answer ↔
      (first = .ok answer ∧ answer.isSome = true) ∨ first = .ok none ∧ next () = .ok answer := by
  unfold Recognition.orElse
  split
  · rename_i h
    constructor
    · exact fun h' => .inr ⟨rfl, h'⟩
    · rintro (⟨h', hsome⟩ | ⟨-, h'⟩)
      · cases h'
        cases hsome
      · exact h'
  · rename_i hne
    constructor
    · intro h
      refine .inl ⟨h, ?_⟩
      cases answer with
      | none => exact absurd h hne
      | some found => rfl
    · rintro (⟨h', -⟩ | ⟨h', -⟩)
      · exact h'
      · exact absurd h' hne

/-- Two classes of lexemes, the first of which fits, in their order. -/
theorem Stable.orElse {first next : List Char → Recognition} (h : Stable first) (h' : Stable next)
    (hfits : ∀ cs, (next cs).Fits cs) : Stable fun cs => (first cs).orElse fun _ => next cs where
  found {cs r kind m n} hscan hn hr := by
    rcases Recognition.orElse_eq_ok.1 hscan with ⟨hfirst, -⟩ | ⟨hfirst, hnext⟩
    · exact Recognition.orElse_eq_ok.2 (.inl ⟨h.found hfirst hn hr, rfl⟩)
    · refine Recognition.orElse_eq_ok.2 (.inr ⟨?_, h'.found hnext hn hr⟩)
      obtain ⟨-, hpos, hlen⟩ := hfits cs kind m hnext
      cases cs with
      | nil => exact absurd hlen (by simp; omega)
      | cons c cs =>
        obtain ⟨n, rfl⟩ : ∃ k, n = k + 1 := ⟨n - 1, by omega⟩
        exact h.unconcerned hfirst hr.blank
  unconcerned {c cs r n} hscan hr := by
    rcases Recognition.orElse_eq_ok.1 hscan with ⟨-, hsome⟩ | ⟨hfirst, hnext⟩
    · cases hsome
    · exact Recognition.orElse_eq_ok.2 (.inr ⟨h.unconcerned hfirst hr, h'.unconcerned hnext hr⟩)

/-- What the classes of lexemes, in their order, say about a text. -/
def scanText (text : List Char) : Recognition :=
  (scanComment text).orElse fun _ => (scanString text).orElse fun _ =>
    (scanNumber text).orElse fun _ => (scanDirective text).orElse fun _ =>
    (scanOperator text).orElse fun _ => scanWord text

theorem stable_scanText : Stable scanText := by
  have hword := stable_scanOperator.orElse stable_scanWord scanWord_fits
  have hdirective := stable_scanDirective.orElse hword fun cs =>
    .orElse (scanOperator_fits cs) (scanWord_fits cs)
  have hnumber := stable_scanNumber.orElse hdirective fun cs =>
    .orElse (scanDirective_fits cs) (.orElse (scanOperator_fits cs) (scanWord_fits cs))
  have hstring := stable_scanString.orElse hnumber fun cs =>
    .orElse (scanNumber_fits cs) (.orElse (scanDirective_fits cs)
      (.orElse (scanOperator_fits cs) (scanWord_fits cs)))
  exact stable_scanComment.orElse hstring fun cs =>
    .orElse (scanString_fits cs) (.orElse (scanNumber_fits cs) (.orElse (scanDirective_fits cs)
      (.orElse (scanOperator_fits cs) (scanWord_fits cs))))

theorem scanLexeme_eq_ok {c : Char} {cs : List Char} {found : TokenKind × Nat} :
    scanLexeme c cs = .ok found ↔ scanText (c :: cs) = .ok (some found) := by
  unfold scanLexeme
  dsimp only
  rw [← scanText]
  split <;> rename_i h <;> simp [h]

/-- A lexeme that leads a text leads every text in which it is followed by what separates lexemes. -/
theorem scanLexeme_relaid {c : Char} {cs r : List Char} {kind : TokenKind} {n : Nat}
    (h : scanLexeme c cs = .ok (kind, n)) (hr : Separates kind r) :
    scanLexeme c (cs.take (n - 1) ++ r) = .ok (kind, n) := by
  obtain ⟨-, hpos, -⟩ := scanLexeme_fits h
  obtain ⟨m, rfl⟩ : ∃ m, n = m + 1 := ⟨n - 1, by omega⟩
  exact scanLexeme_eq_ok.2 (stable_scanText.found (scanLexeme_eq_ok.1 h) (Nat.le_refl _) hr)

/-- A lexeme that leads a text leads it still when what separates lexemes is written behind the text. -/
theorem scanLexeme_append {c : Char} {cs r : List Char} {kind : TokenKind} {n : Nat}
    (h : scanLexeme c cs = .ok (kind, n)) (hr : Separates kind r) :
    scanLexeme c (cs ++ r) = .ok (kind, n) := by
  obtain ⟨-, -, hle⟩ := scanLexeme_fits h
  have hwhole := stable_scanText.found (scanLexeme_eq_ok.1 h) hle hr
  rw [List.length_cons, List.take_succ_cons, List.take_length] at hwhole
  exact scanLexeme_eq_ok.2 hwhole

end SystemVerilog
