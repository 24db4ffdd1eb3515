import SystemVerilog.Proofs.Lexing.Respacing

/-!
# Where comments and strings end

A line ends at its first line break. A block comment ends at the first closing mark behind its opening, and has no
end if there is none. The interior of a string is made of plain characters and escapes; the string ends at the first
quote behind such an interior, and is broken off where the text or the line ends instead.
-/

namespace SystemVerilog

/-! ### Lines -/

theorem startsWith_dropWhile (p : Char → Bool) (cs : List Char) : startsWith p (cs.dropWhile p) = false := by
  induction cs with
  | nil => rfl
  | cons c cs ih =>
    by_cases hc : p c = true
    · rw [List.dropWhile_cons_of_pos hc, ih]
    · rw [List.dropWhile_cons_of_neg hc]
      exact Bool.eq_false_iff.2 hc

/-- A text is a line without a line break and what stands behind it: nothing, or a line break. -/
theorem exists_line (cs : List Char) : ∃ behind, cs = (cs.takeWhile fun c => !isLineBreak c) ++ behind ∧
    (∀ c ∈ cs.takeWhile fun c => !isLineBreak c, isLineBreak c = false) ∧
      (behind = [] ∨ startsWith isLineBreak behind = true) := by
  refine ⟨cs.dropWhile fun c => !isLineBreak c, List.takeWhile_append_dropWhile.symm, fun c hc => ?_, ?_⟩
  · simpa using List.all_eq_true.1 List.all_takeWhile c hc
  · have hstop := startsWith_dropWhile (fun c => !isLineBreak c) cs
    cases hbehind : cs.dropWhile fun c => !isLineBreak c with
    | nil => exact .inl rfl
    | cons c behind =>
      rw [hbehind] at hstop
      exact .inr (by simpa [startsWith] using hstop)

/-! ### Block comments -/

section Comments

variable {cs : List Char} {n : Nat}

/-- A closing mark is found no later than where one stands. -/
theorem commentRestLength?_append (before behind : List Char) :
    ∃ n, commentRestLength? (before ++ '*' :: '/' :: behind) = some n ∧ n ≤ before.length + 2 := by
  induction before with
  | nil => exact ⟨2, rfl, Nat.le_refl 2⟩
  | cons c before ih =>
    obtain ⟨n, hn, hle⟩ := ih
    rw [List.cons_append, commentRestLength?.eq_def]
    split
    · rename_i heq
      cases heq
    · exact ⟨2, rfl, by omega⟩
    · rename_i heq
      obtain ⟨-, rfl⟩ := List.cons.inj heq
      exact ⟨n + 1, by rw [hn, Option.map_some], by rw [List.length_cons]; omega⟩

/-- A block comment is closed by the first closing mark behind its opening. -/
theorem commentRestLength?_eq_some (h : commentRestLength? cs = some n) : ∃ body rest,
    cs = body ++ '*' :: '/' :: rest ∧ n = body.length + 2 ∧
      ∀ before behind, cs = before ++ '*' :: '/' :: behind → body.length ≤ before.length := by
  have hsplit : ∃ body rest, cs = body ++ '*' :: '/' :: rest ∧ n = body.length + 2 := by
    fun_induction commentRestLength? cs generalizing n with
    | case1 => cases h
    | case2 rest =>
      obtain rfl := Option.some.inj h
      exact ⟨[], rest, rfl, rfl⟩
    | case3 c cs _ ih =>
      obtain ⟨m, hm, rfl⟩ := Option.map_eq_some_iff.1 h
      obtain ⟨body, rest, rfl, rfl⟩ := ih hm
      exact ⟨c :: body, rest, rfl, rfl⟩
  obtain ⟨body, rest, hcs, hn⟩ := hsplit
  refine ⟨body, rest, hcs, hn, fun before behind hother => ?_⟩
  obtain ⟨m, hm, hle⟩ := commentRestLength?_append before behind
  rw [← hother, h] at hm
  obtain rfl := Option.some.inj hm
  omega

/-- A block comment has no end if and only if no closing mark stands behind its opening. -/
theorem commentRestLength?_eq_none : commentRestLength? cs = none ↔ ¬['*', '/'] <:+: cs := by
  constructor
  · rintro h ⟨before, behind, rfl⟩
    obtain ⟨n, hn, -⟩ := commentRestLength?_append before behind
    rw [List.append_assoc] at h
    exact absurd (h.symm.trans hn) nofun
  · intro h
    cases hclose : commentRestLength? cs with
    | none => rfl
    | some n =>
      obtain ⟨body, rest, rfl, -, -⟩ := commentRestLength?_eq_some hclose
      exact absurd ⟨body, rest, by simp⟩ h

end Comments

/-! ### Strings -/

/-- Characters inside a string, in front of `rest`: plain ones, and pairs of a backslash with the next
character, or with a carriage return and line feed. -/
inductive Quoted (rest : List Char) : List Char → Prop
  | nil : Quoted rest []
  | plain {c : Char} {cs : List Char} : c ≠ '"' → c ≠ '\\' → isLineBreak c = false → Quoted rest cs →
      Quoted rest (c :: cs)
  | lineBreak {cs : List Char} : Quoted rest cs → Quoted rest ('\\' :: '\r' :: '\n' :: cs)
  | escape {c : Char} {cs : List Char} : (c = '\r' → startsWith (· == '\n') (cs ++ rest) = false) →
      Quoted rest cs → Quoted rest ('\\' :: c :: cs)

/-- Where a string cannot go on: at the end of the text, also behind a backslash, and at a line break. -/
def BreaksOff (rest : List Char) : Prop :=
  rest = [] ∨ rest = ['\\'] ∨ startsWith isLineBreak rest = true

section Strings

variable {cs body rest : List Char} {n : Nat}

/-- The end of a string is looked for behind what is quoted. -/
theorem Quoted.stringRestLength?_append (h : Quoted rest body) :
    stringRestLength? (body ++ rest) = (stringRestLength? rest).map (· + body.length) := by
  have hadd (k l : Nat) (o : Option Nat) : (o.map (· + k)).map (· + l) = o.map (· + (k + l)) := by
    rw [Option.map_map]
    exact congrArg (Option.map · o) (funext fun m => Nat.add_assoc m k l)
  induction h with
  | nil => exact Option.map_id'.symm
  | @plain c cs hquote hslash hbreak _ ih =>
    have hreturn : c ≠ '\r' := by
      rintro rfl
      cases hbreak
    have hfeed : c ≠ '\n' := by
      rintro rfl
      cases hbreak
    rw [List.cons_append, stringRestLength?, ih, hadd, List.length_cons]
    · exact hquote
    · exact fun _ hc => absurd hc hslash
    · exact fun _ _ hc => absurd hc hslash
    · exact hreturn
    · exact hfeed
  | lineBreak _ ih =>
    simp only [List.cons_append, stringRestLength?, ih, hadd, List.length_cons]
  | @escape c cs hpair _ ih =>
    rw [List.cons_append, List.cons_append, stringRestLength?, ih, hadd, List.length_cons, List.length_cons]
    intro ds hc hds
    have hnone := hpair hc
    rw [hds] at hnone
    cases hnone

theorem stringRestLength?_of_breaksOff (h : BreaksOff rest) : stringRestLength? rest = none := by
  rcases h with rfl | rfl | h
  · rfl
  · rfl
  · obtain ⟨c, cs, rfl, hc⟩ := startsWith_eq_true h
    rcases Bool.or_eq_true_iff.1 hc with hc | hc <;> rw [beq_iff_eq.1 hc] <;> rfl

/-- A text inside a string is quoted up to a quote, or up to where the string is broken off. -/
theorem exists_quoted (cs : List Char) : ∃ body rest, cs = body ++ rest ∧ Quoted rest body ∧
    ((∃ behind, rest = '"' :: behind) ∨ BreaksOff rest) := by
  fun_induction stringRestLength? cs with
  | case1 => exact ⟨[], [], rfl, .nil, .inr (.inl rfl)⟩
  | case2 behind => exact ⟨[], _, rfl, .nil, .inl ⟨behind, rfl⟩⟩
  | case3 cs ih =>
    obtain ⟨body, rest, rfl, hquoted, hend⟩ := ih
    exact ⟨_, rest, rfl, .lineBreak hquoted, hend⟩
  | case4 c cs hpair ih =>
    obtain ⟨body, rest, rfl, hquoted, hend⟩ := ih
    refine ⟨_, rest, rfl, .escape (fun hc => ?_) hquoted, hend⟩
    refine Bool.eq_false_iff.2 fun hfeed => ?_
    obtain ⟨d, ds, hds, hd⟩ := startsWith_eq_true hfeed
    rw [beq_iff_eq.1 hd] at hds
    exact hpair ds hc hds
  | case5 cs => exact ⟨[], _, rfl, .nil, .inr (.inr (.inr rfl))⟩
  | case6 cs => exact ⟨[], _, rfl, .nil, .inr (.inr (.inr rfl))⟩
  | case7 c cs hquote _ hslash hreturn hfeed ih =>
    by_cases hlast : c = '\\'
    · subst hlast
      cases cs with
      | nil => exact ⟨[], _, rfl, .nil, .inr (.inr (.inl rfl))⟩
      | cons d ds => exact absurd rfl (hslash d ds rfl)
    · obtain ⟨body, rest, rfl, hquoted, hend⟩ := ih
      have hbreak : isLineBreak c = false := by
        simp only [isLineBreak, Bool.or_eq_false_iff, beq_eq_false_iff_ne]
        exact ⟨hreturn, hfeed⟩
      exact ⟨_, rest, rfl, .plain hquote hlast hbreak hquoted, hend⟩

/-- A string ends at the first quote that no escape takes. -/
theorem stringRestLength?_eq_some (h : stringRestLength? cs = some n) : ∃ body rest,
    cs = body ++ '"' :: rest ∧ n = body.length + 1 ∧ Quoted ('"' :: rest) body := by
  obtain ⟨body, rest, rfl, hquoted, ⟨behind, rfl⟩ | hbroken⟩ := exists_quoted cs
  · have hlength : some (1 + body.length) = some n := hquoted.stringRestLength?_append.symm.trans h
    exact ⟨body, behind, rfl, by rw [← Option.some.inj hlength, Nat.add_comm], hquoted⟩
  · rw [hquoted.stringRestLength?_append, stringRestLength?_of_breaksOff hbroken] at h
    cases h

/-- A string has no end if and only if it is broken off behind what is quoted. -/
theorem stringRestLength?_eq_none : stringRestLength? cs = none ↔
    ∃ body rest, cs = body ++ rest ∧ Quoted rest body ∧ BreaksOff rest := by
  constructor
  · intro h
    obtain ⟨body, rest, rfl, hquoted, ⟨behind, rfl⟩ | hbroken⟩ := exists_quoted cs
    · rw [hquoted.stringRestLength?_append] at h
      cases h
    · exact ⟨body, rest, rfl, hquoted, hbroken⟩
  · rintro ⟨body, rest, rfl, hquoted, hbroken⟩
    rw [hquoted.stringRestLength?_append, stringRestLength?_of_breaksOff hbroken]
    rfl

end Strings

end SystemVerilog
