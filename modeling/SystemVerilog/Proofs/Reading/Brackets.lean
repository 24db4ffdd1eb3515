import SystemVerilog.Proofs.Reading.Readers

/-!
# Brackets

The scans for a closer, for a colon outside all brackets and for a semicolon outside parentheses, over
tokens whose brackets match. `Balanced plain ts` says that the round, square and curly brackets of `ts`
nest, that each question mark between them has its colon, and that every other token is `plain`. Every
scan passes over such a list as a whole (`Passes`), so the partner of a bracket is found exactly.
-/

namespace SystemVerilog

/-! ### Passing over tokens -/

/-- The search `f`, once it has passed over `ts`, goes on as the search `g`. -/
def Passes (f g : List Token → Option Nat) (ts : List Token) : Prop :=
  ∀ rest, f (ts ++ rest) = (g rest).map (· + ts.length)

namespace Passes

variable {f g h : List Token → Option Nat} {ts us : List Token} {t : Token}

theorem nil : Passes f f [] := fun rest => by simp

theorem one (ht : ∀ rest, f (t :: rest) = (g rest).map (· + 1)) : Passes f g [t] := ht

theorem append (hts : Passes f g ts) (hus : Passes g h us) : Passes f h (ts ++ us) := by
  intro rest
  rw [List.append_assoc, hts, hus, Option.map_map, List.length_append]
  congr 1
  funext n
  simp only [Function.comp_apply]
  omega

theorem cons (ht : ∀ rest, f (t :: rest) = (g rest).map (· + 1)) (hts : Passes g h ts) :
    Passes f h (t :: ts) := append (one ht) hts

/-- A search that finds its token at the head behind `ts` answers with the length of `ts`. -/
theorem found (hts : Passes f g ts) {rest : List Token} (hg : g rest = some 0) :
    f (ts ++ rest) = some ts.length := by
  rw [hts, hg, Option.map_some, Nat.zero_add]

/-- A search that finds nothing behind `ts` finds nothing from the start of `ts`. -/
theorem not_found (hts : Passes f g ts) {rest : List Token} (hg : g rest = none) :
    f (ts ++ rest) = none := by
  rw [hts, hg, Option.map_none]

end Passes

/-! ### Closers -/

/-- A search for a closer passes over `ts`, whatever pairs are open. -/
def SkipsPairs (opening closing : TokenKind) (ts : List Token) : Prop :=
  ∀ depth, Passes (distanceToCloser? opening closing (depth + 1))
    (distanceToCloser? opening closing (depth + 1)) ts

section Closers

variable {opening closing : TokenKind} {ts us : List Token} {o c t : Token}

theorem SkipsPairs.nil : SkipsPairs opening closing [] := fun _ => .nil

theorem SkipsPairs.append (hts : SkipsPairs opening closing ts) (hus : SkipsPairs opening closing us) :
    SkipsPairs opening closing (ts ++ us) := fun depth => .append (hts depth) (hus depth)

theorem SkipsPairs.one (ho : t.kind.inFamily opening = false)
    (hc : t.kind.inFamily closing = false) : SkipsPairs opening closing [t] :=
  fun depth => .one fun rest => by rw [distanceToCloser?, if_neg (by simp [ho]), if_neg (by simp [hc])]

theorem SkipsPairs.cons (ht : SkipsPairs opening closing [t]) (hts : SkipsPairs opening closing ts) :
    SkipsPairs opening closing (t :: ts) := ht.append hts

theorem SkipsPairs.of_forall (h : ∀ t ∈ ts, t.kind.inFamily opening = false ∧
    t.kind.inFamily closing = false) : SkipsPairs opening closing ts := by
  induction ts with
  | nil => exact .nil
  | cons t ts ih =>
    exact .cons (.one (h t (by simp)).1 (h t (by simp)).2) (ih fun u hu => h u (by simp [hu]))

theorem SkipsPairs.pair (ho : o.kind.inFamily opening = true) (hc : c.kind.inFamily closing = true)
    (hco : c.kind.inFamily opening = false) (hts : SkipsPairs opening closing ts) :
    SkipsPairs opening closing (o :: (ts ++ [c])) := by
  intro depth
  refine .cons (g := distanceToCloser? opening closing (depth + 2)) (fun rest => ?_)
    (.append (hts (depth + 1)) (.one fun rest => ?_))
  · rw [distanceToCloser?, if_pos ho]
  · rw [distanceToCloser?, if_neg (by simp [hco]), if_pos hc, if_neg (by omega)]
    rfl

/-- The distance from an opener to its closer, behind an interior whose own pairs are closed. -/
theorem distanceToCloser?_pair (ho : o.kind.inFamily opening = true)
    (hc : c.kind.inFamily closing = true) (hco : c.kind.inFamily opening = false)
    (hts : SkipsPairs opening closing ts) (rest : List Token) :
    distanceToCloser? opening closing 0 (o :: (ts ++ c :: rest)) = some (ts.length + 1) := by
  rw [distanceToCloser?, if_pos ho, (hts 0).found, Option.map_some]
  rw [distanceToCloser?, if_neg (by simp [hco]), if_pos hc, if_pos (by omega)]

/-- What stands at the distance that a search for a closer answers with. -/
theorem closer_of_distance {depth n : Nat} (h : distanceToCloser? opening closing depth ts = some n) :
    ∃ us c vs, ts = us ++ c :: vs ∧ us.length = n ∧ c.kind.inFamily closing = true ∧
      c.kind.inFamily opening = false := by
  induction ts generalizing depth n with
  | nil => simp [distanceToCloser?] at h
  | cons t ts ih =>
    have step {d : Nat} (h : (distanceToCloser? opening closing d ts).map (· + 1) = some n) :
        ∃ us c vs, t :: ts = us ++ c :: vs ∧ us.length = n ∧ c.kind.inFamily closing = true ∧
          c.kind.inFamily opening = false := by
      obtain ⟨m, hm, rfl⟩ := Option.map_eq_some_iff.1 h
      obtain ⟨us, c, vs, rfl, rfl, hc, ho⟩ := ih hm
      exact ⟨t :: us, c, vs, rfl, rfl, hc, ho⟩
    rw [distanceToCloser?] at h
    split at h
    · exact step h
    · rename_i ho
      split at h
      · rename_i hc
        split at h
        · obtain rfl := Option.some.inj h
          exact ⟨[], t, ts, rfl, rfl, hc, by simpa using ho⟩
        · exact step h
      · exact step h

/-- A closer that is found is found in front of more tokens too. -/
theorem distanceToCloser?_append {depth n : Nat} (h : distanceToCloser? opening closing depth ts = some n)
    (us : List Token) : distanceToCloser? opening closing depth (ts ++ us) = some n := by
  induction ts generalizing depth n with
  | nil => cases h
  | cons t ts ih =>
    have step {d : Nat} (h : (distanceToCloser? opening closing d ts).map (· + 1) = some n) :
        (distanceToCloser? opening closing d (ts ++ us)).map (· + 1) = some n := by
      obtain ⟨m, hm, rfl⟩ := Option.map_eq_some_iff.1 h
      rw [ih hm, Option.map_some]
    rw [distanceToCloser?] at h
    rw [List.cons_append, distanceToCloser?]
    by_cases ho : t.kind.inFamily opening = true
    · rw [if_pos ho] at h ⊢
      exact step h
    · rw [if_neg ho] at h ⊢
      by_cases hc : t.kind.inFamily closing = true
      · rw [if_pos hc] at h ⊢
        by_cases hd : depth ≤ 1
        · rw [if_pos hd] at h ⊢
          exact h
        · rw [if_neg hd] at h ⊢
          exact step h
      · rw [if_neg hc] at h ⊢
        exact step h

/-- The closer of the pair that the first token opens is not that token. -/
theorem distance_pos_of_opener {n : Nat} (ho : o.kind.inFamily opening = true)
    (h : distanceToCloser? opening closing 0 (o :: ts) = some n) : 0 < n := by
  rw [distanceToCloser?, if_pos ho] at h
  obtain ⟨m, -, rfl⟩ := Option.map_eq_some_iff.1 h
  exact Nat.succ_pos m

end Closers

/-! ### Searches outside brackets -/

/-- A token of the kind that was sought stands at the distance that is found. -/
theorem distanceAtDepth?_found {opening closing kind : TokenKind} {depth level n : Nat} {ts : List Token}
    (h : distanceAtDepth? opening closing kind depth level ts = some n) : ∃ t, ts[n]? = some t ∧ t.kind = kind := by
  induction ts generalizing level n with
  | nil => cases h
  | cons t ts ih =>
    have step {l : Nat} (h : (distanceAtDepth? opening closing kind depth l ts).map (· + 1) = some n) :
        ∃ u, (t :: ts)[n]? = some u ∧ u.kind = kind := by
      obtain ⟨m, hm, rfl⟩ := Option.map_eq_some_iff.1 h
      exact ih hm
    rw [distanceAtDepth?.eq_def] at h
    dsimp only at h
    split at h
    · rename_i hfound
      obtain rfl := Option.some.inj h
      exact ⟨t, rfl, hfound.1⟩
    · split at h
      · exact step h
      · split at h
        · cases level with
          | zero => cases h
          | succ level => exact step h
        · exact step h

theorem distanceAtTop?_found {kind : TokenKind} {level questions n : Nat} {ts : List Token}
    (h : distanceAtTop? kind level questions ts = some n) : ∃ t, ts[n]? = some t ∧ t.kind = kind := by
  induction ts generalizing level questions n with
  | nil => cases h
  | cons t ts ih =>
    have step {l q : Nat} (h : (distanceAtTop? kind l q ts).map (· + 1) = some n) :
        ∃ u, (t :: ts)[n]? = some u ∧ u.kind = kind := by
      obtain ⟨m, hm, rfl⟩ := Option.map_eq_some_iff.1 h
      exact ih hm
    cases level with
    | zero =>
      rw [distanceAtTop?] at h
      split at h
      · exact step h
      · split at h
        · rename_i hfound
          obtain rfl := Option.some.inj h
          exact ⟨t, rfl, hfound⟩
        · split at h
          · exact step h
          · split at h
            · exact step h
            · split at h
              · cases h
              · exact step h
    | succ level =>
      rw [distanceAtTop?] at h
      split at h
      · exact step h
      · split at h
        · exact step h
        · exact step h

/-- A token that is found parts the tokens before it from those behind it. -/
theorem distanceAtTop?_parts {kind : TokenKind} {level questions n : Nat} {ts : List Token}
    (h : distanceAtTop? kind level questions ts = some n) :
    ∃ t, ts = ts.take n ++ t :: ts.drop (n + 1) ∧ (ts.take n).length = n ∧ t.kind = kind := by
  obtain ⟨t, ht, hkind⟩ := distanceAtTop?_found h
  obtain ⟨hlt, hget⟩ := List.getElem?_eq_some_iff.1 ht
  refine ⟨t, ?_, ?_, hkind⟩
  · rw [← hget, List.getElem_cons_drop, List.take_append_drop]
  · rw [List.length_take, Nat.min_eq_left (Nat.le_of_lt hlt)]

/-! ### Balanced brackets -/

/-- The three kinds of brackets. -/
def bracketPairs : List (TokenKind × TokenKind) :=
  [(.op .lParen, .op .rParen), (.op .lBracket, .op .rBracket), (.op .lBrace, .op .rBrace)]

/-- Neither a bracket nor a mark of a conditional. -/
def TokenKind.isFlat (kind : TokenKind) : Bool :=
  !kind.isOpener && !kind.isCloser && kind != .op .questionMark && kind != .op .colon

/-- Brackets nest, question marks have their colons, and all else is `plain`. A square pair may hold
two parts with a colon between them. -/
inductive Balanced (plain : Token → Prop) : List Token → Prop
  | nil : Balanced plain []
  | one {t : Token} : plain t → Balanced plain [t]
  | append {ts us : List Token} : Balanced plain ts → Balanced plain us → Balanced plain (ts ++ us)
  | pair {o c : Token} {ts : List Token} : (o.kind, c.kind) ∈ bracketPairs → Balanced plain ts →
      Balanced plain (o :: (ts ++ [c]))
  | bounds {o m c : Token} {ts us : List Token} : o.kind = .op .lBracket → m.kind = .op .colon →
      c.kind = .op .rBracket → Balanced plain ts → Balanced plain us →
      Balanced plain (o :: (ts ++ m :: (us ++ [c])))
  | choice {q m : Token} {ts : List Token} : q.kind = .op .questionMark → m.kind = .op .colon →
      Balanced plain ts → Balanced plain (q :: (ts ++ [m]))

section Kinds

variable {opening closing o c kind : TokenKind}

/-- A pair of brackets either is the pair that is counted, or is not counted at all. -/
theorem counted_or_neutral (hp : (opening, closing) ∈ bracketPairs) (ho : (o, c) ∈ bracketPairs) :
    (o.inFamily opening = true ∧ c.inFamily closing = true ∧ c.inFamily opening = false) ∨
    (o.inFamily opening = false ∧ o.inFamily closing = false ∧
      c.inFamily opening = false ∧ c.inFamily closing = false) := by
  simp only [bracketPairs, List.mem_cons, Prod.mk.injEq, List.not_mem_nil, or_false] at hp ho
  rcases hp with ⟨rfl, rfl⟩ | ⟨rfl, rfl⟩ | ⟨rfl, rfl⟩ <;>
    rcases ho with ⟨rfl, rfl⟩ | ⟨rfl, rfl⟩ | ⟨rfl, rfl⟩ <;> decide

theorem neutral_of_ne_bracket (hp : (opening, closing) ∈ bracketPairs) (ho : kind.isOpener = false)
    (hc : kind.isCloser = false) : kind.inFamily opening = false ∧ kind.inFamily closing = false := by
  simp only [bracketPairs, List.mem_cons, Prod.mk.injEq, List.not_mem_nil, or_false] at hp
  rcases hp with ⟨rfl, rfl⟩ | ⟨rfl, rfl⟩ | ⟨rfl, rfl⟩ <;>
    refine ⟨beq_false_of_ne ?_, beq_false_of_ne ?_⟩ <;> rintro rfl <;>
    simp [TokenKind.isOpener, TokenKind.isCloser] at ho hc

theorem isFlat_iff : kind.isFlat = true ↔ kind.isOpener = false ∧ kind.isCloser = false ∧
    kind ≠ .op .questionMark ∧ kind ≠ .op .colon := by
  simp [TokenKind.isFlat, and_assoc]

theorem inFamily_of_mem_bracketPairs (hp : (opening, closing) ∈ bracketPairs) :
    opening.inFamily opening = true ∧ closing.inFamily closing = true ∧
      closing.inFamily opening = false := by
  simp only [bracketPairs, List.mem_cons, Prod.mk.injEq, List.not_mem_nil, or_false] at hp
  rcases hp with ⟨rfl, rfl⟩ | ⟨rfl, rfl⟩ | ⟨rfl, rfl⟩ <;> decide

theorem isOpener_of_mem_bracketPairs (h : (o, c) ∈ bracketPairs) :
    o.isOpener = true ∧ c.isOpener = false ∧ c.isCloser = true := by
  simp only [bracketPairs, List.mem_cons, Prod.mk.injEq, List.not_mem_nil, or_false] at h
  rcases h with ⟨rfl, rfl⟩ | ⟨rfl, rfl⟩ | ⟨rfl, rfl⟩ <;> decide

end Kinds

namespace Balanced

variable {plain plain' : Token → Prop} {ts us : List Token} {t : Token}

theorem cons (ht : plain t) (hts : Balanced plain ts) : Balanced plain (t :: ts) :=
  append (.one ht) hts

theorem mono (hts : Balanced plain ts) (h : ∀ t ∈ ts, plain t → plain' t) : Balanced plain' ts := by
  induction hts with
  | nil => exact .nil
  | one ht => exact .one (h _ (by simp) ht)
  | append _ _ ih ih' =>
    exact .append (ih fun t ht => h t (by simp [ht])) (ih' fun t ht => h t (by simp [ht]))
  | pair hp _ ih => exact .pair hp (ih fun t ht => h t (by simp [ht]))
  | bounds ho hm hc _ _ ih ih' =>
    exact .bounds ho hm hc (ih fun t ht => h t (by simp [ht])) (ih' fun t ht => h t (by simp [ht]))
  | choice hq hm _ ih => exact .choice hq hm (ih fun t ht => h t (by simp [ht]))

/-- Every token is plain, a bracket or a mark of a conditional. -/
theorem mem (hts : Balanced plain ts) (ht : t ∈ ts) : plain t ∨ t.kind.isOpener = true ∨
    t.kind.isCloser = true ∨ t.kind = .op .questionMark ∨ t.kind = .op .colon := by
  induction hts with
  | nil => cases ht
  | one hp => exact .inl (List.mem_singleton.1 ht ▸ hp)
  | append _ _ ih ih' => exact (List.mem_append.1 ht).elim ih ih'
  | @pair o c ts hp _ ih =>
    obtain ⟨ho, -, hc⟩ := isOpener_of_mem_bracketPairs hp
    simp only [List.mem_cons, List.mem_append, List.not_mem_nil, or_false] at ht
    rcases ht with rfl | ht | rfl
    · exact .inr (.inl ho)
    · exact ih ht
    · exact .inr (.inr (.inl hc))
  | @bounds o m c ts us ho hm hc _ _ ih ih' =>
    simp only [List.mem_cons, List.mem_append, List.not_mem_nil, or_false] at ht
    rcases ht with rfl | ht | rfl | ht | rfl
    · exact .inr (.inl (by rw [ho]; rfl))
    · exact ih ht
    · exact .inr (.inr (.inr (.inr hm)))
    · exact ih' ht
    · exact .inr (.inr (.inl (by rw [hc]; rfl)))
  | @choice q m ts hq hm _ ih =>
    simp only [List.mem_cons, List.mem_append, List.not_mem_nil, or_false] at ht
    rcases ht with rfl | ht | rfl
    · exact .inr (.inr (.inr (.inl hq)))
    · exact ih ht
    · exact .inr (.inr (.inr (.inr hm)))

variable (flat : ∀ t, plain t → t.kind.isFlat = true)
include flat

/-- A search for a closing bracket passes over balanced brackets. -/
theorem skipsPairs {opening closing : TokenKind} (hp : (opening, closing) ∈ bracketPairs)
    (hts : Balanced plain ts) : SkipsPairs opening closing ts := by
  have neutral {t : Token} (ho : t.kind.isOpener = false) (hc : t.kind.isCloser = false) :
      SkipsPairs opening closing [t] :=
    .one (neutral_of_ne_bracket hp ho hc).1 (neutral_of_ne_bracket hp ho hc).2
  have mark {t : Token} (ht : t.kind = .op .questionMark ∨ t.kind = .op .colon) :
      SkipsPairs opening closing [t] := by
    rcases ht with ht | ht <;> exact neutral (by rw [ht]; rfl) (by rw [ht]; rfl)
  have pair {o c : Token} {us : List Token} (ho : (o.kind, c.kind) ∈ bracketPairs)
      (hus : SkipsPairs opening closing us) : SkipsPairs opening closing (o :: (us ++ [c])) := by
    rcases counted_or_neutral hp ho with ⟨h₁, h₂, h₃⟩ | ⟨h₁, h₂, h₃, h₄⟩
    · exact .pair h₁ h₂ h₃ hus
    · exact .cons (.one h₁ h₂) (.append hus (.one h₃ h₄))
  induction hts with
  | nil => exact .nil
  | one ht =>
    obtain ⟨ho, hc, -, -⟩ := isFlat_iff.1 (flat _ ht)
    exact neutral ho hc
  | append _ _ ih ih' => exact .append ih ih'
  | pair ho _ ih => exact pair ho ih
  | @bounds o m c ts us ho hm hc _ _ ih ih' =>
    rw [show ts ++ m :: (us ++ [c]) = (ts ++ m :: us) ++ [c] by simp]
    exact pair (by rw [ho, hc]; decide) (.append ih (.cons (mark (.inr hm)) ih'))
  | @choice q m ts hq hm _ ih =>
    exact .cons (mark (.inl hq)) (.append ih (mark (.inr hm)))

/-- Inside a bracket a search at the top passes over balanced brackets. -/
theorem passes_inside (kind : TokenKind) (hts : Balanced plain ts) (n questions : Nat) :
    Passes (distanceAtTop? kind (n + 1) questions) (distanceAtTop? kind (n + 1) questions) ts := by
  have neutral {n : Nat} {t : Token} (ho : t.kind.isOpener = false) (hc : t.kind.isCloser = false)
      (rest : List Token) : distanceAtTop? kind (n + 1) questions (t :: rest) =
        (distanceAtTop? kind (n + 1) questions rest).map (· + 1) := by
    rw [distanceAtTop?, if_neg (by simp [ho]), if_neg (by simp [hc])]
  have opener {n : Nat} {t : Token} (ho : t.kind.isOpener = true) (rest : List Token) :
      distanceAtTop? kind (n + 1) questions (t :: rest) =
        (distanceAtTop? kind (n + 2) questions rest).map (· + 1) := by
    rw [distanceAtTop?, if_pos ho]
  have closer {n : Nat} {t : Token} (ho : t.kind.isOpener = false) (hc : t.kind.isCloser = true)
      (rest : List Token) : distanceAtTop? kind (n + 1) questions (t :: rest) =
        (distanceAtTop? kind n questions rest).map (· + 1) := by
    rw [distanceAtTop?, if_neg (by simp [ho]), if_pos hc]
  induction hts generalizing n with
  | nil => exact .nil
  | one ht =>
    obtain ⟨ho, hc, -, -⟩ := isFlat_iff.1 (flat _ ht)
    exact .one (neutral ho hc)
  | append _ _ ih ih' => exact .append (ih n) (ih' n)
  | pair hp _ ih =>
    obtain ⟨h₁, h₂, h₃⟩ := isOpener_of_mem_bracketPairs hp
    exact .cons (opener h₁) (.append (ih (n + 1)) (.one (closer h₂ h₃)))
  | bounds ho hm hc _ _ ih ih' =>
    refine .cons (opener (by rw [ho]; rfl)) (.append (ih (n + 1)) (.cons (neutral ?_ ?_)
      (.append (ih' (n + 1)) (.one (closer ?_ ?_)))))
    all_goals first | (rw [hm]; rfl) | (rw [hc]; rfl)
  | choice hq hm _ ih =>
    refine .cons (neutral ?_ ?_) (.append (ih n) (.one (neutral ?_ ?_)))
    all_goals first | (rw [hq]; rfl) | (rw [hm]; rfl)

/-- A search for a colon outside all brackets and conditionals passes over balanced brackets. -/
theorem passes_top (hts : Balanced plain ts) (questions : Nat) :
    Passes (distanceAtTop? (.op .colon) 0 questions) (distanceAtTop? (.op .colon) 0 questions) ts := by
  have inside {us : List Token} (hus : Balanced plain us) (n q : Nat) := passes_inside flat (.op .colon) hus n q
  have opener {q : Nat} {t : Token} (ho : t.kind.isOpener = true) (rest : List Token) :
      distanceAtTop? (.op .colon) 0 q (t :: rest) =
        (distanceAtTop? (.op .colon) 1 q rest).map (· + 1) := by
    have hne : t.kind ≠ .op .colon ∧ t.kind ≠ .op .questionMark := by
      constructor <;> intro h <;> rw [h] at ho <;> cases ho
    rw [distanceAtTop?, if_neg (by simp [hne.1]), if_neg hne.1, if_neg hne.2, if_pos ho]
  have closer {q n : Nat} {t : Token} (ho : t.kind.isOpener = false) (hc : t.kind.isCloser = true)
      (rest : List Token) : distanceAtTop? (.op .colon) (n + 1) q (t :: rest) =
        (distanceAtTop? (.op .colon) n q rest).map (· + 1) := by
    rw [distanceAtTop?, if_neg (by simp [ho]), if_pos hc]
  induction hts generalizing questions with
  | nil => exact .nil
  | one ht =>
    obtain ⟨ho, hc, hq, hm⟩ := isFlat_iff.1 (flat _ ht)
    refine .one fun rest => ?_
    rw [distanceAtTop?, if_neg (by simp [hm]), if_neg hm, if_neg hq, if_neg (by simp [ho]),
      if_neg (by simp [hc])]
  | append _ _ ih ih' => exact .append (ih questions) (ih' questions)
  | pair hp hts _ =>
    obtain ⟨h₁, h₂, h₃⟩ := isOpener_of_mem_bracketPairs hp
    exact .cons (opener h₁) (.append (inside hts 0 questions) (.one (closer h₂ h₃)))
  | bounds ho hm hc hts hus _ _ =>
    refine .cons (opener (by rw [ho]; rfl)) (.append (inside hts 0 questions)
      (.cons (g := distanceAtTop? (.op .colon) 1 questions) (fun rest => ?_)
        (.append (inside hus 0 questions) (.one (closer ?_ ?_)))))
    · rw [distanceAtTop?, if_neg (by rw [hm]; decide), if_neg (by rw [hm]; decide)]
    all_goals rw [hc]; rfl
  | choice hq hm _ ih =>
    refine .cons (g := distanceAtTop? (.op .colon) 0 (questions + 1)) (fun rest => ?_)
      (.append (ih (questions + 1)) (.one fun rest => ?_))
    · rw [distanceAtTop?, if_neg (by simp [hq]), if_neg (by simp [hq]), if_pos hq]
    · rw [distanceAtTop?, if_pos ⟨hm, by omega⟩, Nat.add_sub_cancel]

/-- A search for a token outside parentheses passes over balanced brackets that do not hold one. -/
theorem passes_depth {kind : TokenKind} (hk : kind.isFlat = true) (hts : Balanced plain ts)
    (hne : ∀ t ∈ ts, t.kind ≠ kind) (level : Nat) :
    Passes (distanceAtDepth? (.op .lParen) (.op .rParen) kind 0 level)
      (distanceAtDepth? (.op .lParen) (.op .rParen) kind 0 level) ts := by
  obtain ⟨hopener, hcloser, hquestion, hcolon⟩ := isFlat_iff.1 hk
  have hp : (.op .lParen, .op .rParen) ∈ bracketPairs := by decide
  have neutral {level : Nat} {t : Token} (ht : t.kind ≠ kind) (ho : t.kind.inFamily (.op .lParen) = false)
      (hc : t.kind.inFamily (.op .rParen) = false) (rest : List Token) :
      distanceAtDepth? (.op .lParen) (.op .rParen) kind 0 level (t :: rest) =
        (distanceAtDepth? (.op .lParen) (.op .rParen) kind 0 level rest).map (· + 1) := by
    rw [distanceAtDepth?.eq_def]
    simp only [ht, ho, hc, false_and, if_false, Bool.false_eq_true]
  have mark {level : Nat} {t : Token} (ht : t.kind ≠ kind) (ho : t.kind.isOpener = false)
      (hc : t.kind.isCloser = false) (rest : List Token) :
      distanceAtDepth? (.op .lParen) (.op .rParen) kind 0 level (t :: rest) =
        (distanceAtDepth? (.op .lParen) (.op .rParen) kind 0 level rest).map (· + 1) :=
    neutral ht (neutral_of_ne_bracket hp ho hc).1 (neutral_of_ne_bracket hp ho hc).2 rest
  have counted {level : Nat} {o c : Token} {us : List Token} (ho : (o.kind, c.kind) ∈ bracketPairs)
      (hus : ∀ level, Passes (distanceAtDepth? (.op .lParen) (.op .rParen) kind 0 level)
        (distanceAtDepth? (.op .lParen) (.op .rParen) kind 0 level) us) :
      Passes (distanceAtDepth? (.op .lParen) (.op .rParen) kind 0 level)
        (distanceAtDepth? (.op .lParen) (.op .rParen) kind 0 level) (o :: (us ++ [c])) := by
    have hoc := isOpener_of_mem_bracketPairs ho
    have hne : o.kind ≠ kind ∧ c.kind ≠ kind := by
      constructor <;> rintro rfl
      · rw [hopener] at hoc
        cases hoc.1
      · rw [hcloser] at hoc
        cases hoc.2.2
    rcases counted_or_neutral hp ho with ⟨h₁, h₂, h₃⟩ | ⟨h₁, h₂, h₃, h₄⟩
    · refine .cons (g := distanceAtDepth? (.op .lParen) (.op .rParen) kind 0 (level + 1)) (fun rest => ?_)
        (.append (hus (level + 1)) (.one fun rest => ?_))
      · rw [distanceAtDepth?.eq_def]
        simp only [hne.1, h₁, false_and, if_false, if_true]
      · rw [distanceAtDepth?, if_neg (by simp [hne.2]), if_neg (by simp [h₃]), if_pos h₂]
    · exact .cons (neutral hne.1 h₁ h₂) (.append (hus level) (.one (neutral hne.2 h₃ h₄)))
  induction hts generalizing level with
  | nil => exact .nil
  | one ht =>
    obtain ⟨ho, hc, -, -⟩ := isFlat_iff.1 (flat _ ht)
    exact .one (mark (hne _ (by simp)) ho hc)
  | append _ _ ih ih' =>
    exact .append (ih (fun t ht => hne t (by simp [ht])) level)
      (ih' (fun t ht => hne t (by simp [ht])) level)
  | pair ho _ ih => exact counted ho (ih fun t ht => hne t (by simp [ht]))
  | @bounds o m c ts us ho hm hc _ _ ih ih' =>
    rw [show ts ++ m :: (us ++ [c]) = (ts ++ m :: us) ++ [c] by simp]
    refine counted (by rw [ho, hc]; decide) fun level =>
      .append (ih (fun t ht => hne t (by simp [ht])) level) (.cons (mark ?_ ?_ ?_)
        (ih' (fun t ht => hne t (by simp [ht])) level))
    · exact hne m (by simp)
    all_goals rw [hm]; rfl
  | @choice q m ts hq hm _ ih =>
    refine .cons (mark (hne q (by simp)) ?_ ?_)
      (.append (ih (fun t ht => hne t (by simp [ht])) level) (.one (mark (hne m (by simp)) ?_ ?_)))
    all_goals first | (rw [hq]; rfl) | (rw [hm]; rfl)

end Balanced

/-! ### Reading the interior of a pair -/

namespace Parser

variable {α : Type} {opening closing : TokenKind} {p : Parser α} {c c' : Cursor} {a : α}
  {o cl : Token} {ts : List Token}

/-- A successful reading of a pair shows the pair, and its interior read by a cursor of its own. -/
theorem enclosed_eq_ok (h : (enclosed opening closing p : Parser α) c = .ok (a, c')) :
    ∃ o ts cl c₁, c.Steps (o :: (ts ++ [cl])) c' ∧ o.kind.inFamily opening = true ∧
      cl.kind.inFamily closing = true ∧
      distanceToCloser? opening closing 0 c.after = some (ts.length + 1) ∧
      p ((c.skip 1).ahead ts.length) = .ok (a, c₁) := by
  obtain ⟨part, c₂, hpart, hp⟩ := bind_eq_ok.1 h
  obtain ⟨n, c₃, hn, hc₃⟩ := bind_eq_ok.1 (show interior opening closing c = .ok (part, c₂) from hpart)
  obtain ⟨⟨c₁, hread⟩, rfl⟩ := within_eq_ok.1 hp
  unfold closerDistance at hn
  cases hc : c.after with
  | nil => simp [hc, unexpectedEnd] at hn
  | cons o us =>
    simp only [hc] at hn
    split at hn
    · rename_i ho
      cases hd : distanceToCloser? opening closing 0 (o :: us) with
      | none => simp [hd] at hn
      | some m =>
        simp only [hd, Except.ok.injEq, Prod.mk.injEq] at hn hc₃
        obtain ⟨rfl, rfl⟩ := hn
        obtain ⟨rfl, rfl⟩ := hc₃
        obtain ⟨vs, cl, ws, heq, rfl, hcl, -⟩ := closer_of_distance hd
        have hpos := distance_pos_of_opener ho hd
        cases vs with
        | nil => simp at hpos
        | cons v vs =>
          obtain ⟨rfl, rfl⟩ := List.cons.inj heq
          refine ⟨o, vs, cl, c₁, ?_, ho, hcl, rfl, hread⟩
          rw [show (o :: vs).length + 1 = (o :: (vs ++ [cl])).length by simp]
          exact .of_after (by simpa using hc)
    · exact absurd hn unexpected_ne_ok

theorem closerDistance_of_pair (h : c.Steps (o :: (ts ++ [cl])) c') (ho : o.kind.inFamily opening = true)
    (hcl : cl.kind.inFamily closing = true) (hco : cl.kind.inFamily opening = false)
    (hts : SkipsPairs opening closing ts) :
    closerDistance opening closing c = .ok (ts.length + 1, c) := by
  have hafter : c.after = o :: (ts ++ cl :: c'.after) := by simp [h.after]
  unfold closerDistance
  simp only [hafter, ho, if_true, distanceToCloser?_pair ho hcl hco hts]

theorem interior_of_pair (h : c.Steps (o :: (ts ++ [cl])) c') (ho : o.kind.inFamily opening = true)
    (hcl : cl.kind.inFamily closing = true) (hco : cl.kind.inFamily opening = false)
    (hts : SkipsPairs opening closing ts) :
    interior opening closing c = .ok ((c.skip 1).ahead ts.length, c') := by
  rw [interior, bind_of_ok (closerDistance_of_pair h ho hcl hco hts), Nat.add_sub_cancel, h.eq_skip]
  simp

/-- A pair whose interior has its own pairs closed is read by reading the interior. -/
theorem enclosed_of_pair (h : c.Steps (o :: (ts ++ [cl])) c') (ho : o.kind.inFamily opening = true)
    (hcl : cl.kind.inFamily closing = true) (hco : cl.kind.inFamily opening = false)
    (hts : SkipsPairs opening closing ts) {c₁ : Cursor}
    (hp : p ((c.skip 1).ahead ts.length) = .ok (a, c₁)) :
    (enclosed opening closing p : Parser α) c = .ok (a, c') := by
  show (interior opening closing >>= fun part => within part p) c = _
  rw [bind_of_ok (interior_of_pair h ho hcl hco hts)]
  exact within_eq_ok.2 ⟨⟨c₁, hp⟩, rfl⟩

/-- The interior of a pair is what a cursor over it has still to read. -/
theorem interior_after (h : c.Steps (o :: (ts ++ [cl])) c') :
    ((c.skip 1).ahead ts.length).after = ts := by
  simp [h.after]

/-- All tokens of a span that was read to its end. -/
theorem steps_to_end (h : c.Steps ts c') (hend : c'.after = []) : c.after = ts := by
  rw [h.after, hend, List.append_nil]

/-- What is read to the end of the interior of a pair is read with the pair around it. -/
theorem yields_enclosed {m : Type → Type} [Monad m] [MonadStateOf Cursor m] [MonadLiftT Parser m] [Reader m]
    {p : m α} {P : α → Prop} (h : c.Steps (o :: (ts ++ [cl])) c') (ho : o.kind.inFamily opening = true)
    (hcl : cl.kind.inFamily closing = true) (hco : cl.kind.inFamily opening = false)
    (hts : SkipsPairs opening closing ts)
    (hread : ∀ c₁ c₂, c₁.Steps ts c₂ → c₂.after = [] → c₁.after.length < c.after.length →
      ∃ a, Reader.Yields p c₁ a c₂ ∧ P a) :
    ∃ a, Reader.Yields (enclosed opening closing p) c a c' ∧ P a := by
  obtain ⟨c₁, hs₁, hend⟩ := h.interior
  have hshort : ((c.skip 1).ahead ts.length).after.length < c.after.length := by
    simp only [interior_after h, h.after, List.length_append, List.length_cons]
    omega
  obtain ⟨a, ha, hP⟩ := hread _ _ hs₁ hend hshort
  exact ⟨a, Reader.bind (Reader.lift (interior_of_pair h ho hcl hco hts)) (yields_within ha), hP⟩

theorem enclosed_reads {P : α → Prop} (h : c.Steps (o :: (ts ++ [cl])) c')
    (ho : o.kind.inFamily opening = true) (hcl : cl.kind.inFamily closing = true)
    (hco : cl.kind.inFamily opening = false) (hts : SkipsPairs opening closing ts)
    (hread : ∀ c₁ c₂, c₁.Steps ts c₂ → c₂.after = [] → c₁.after.length < c.after.length →
      ∃ a, p c₁ = .ok (a, c₂) ∧ P a) :
    ∃ a, (enclosed opening closing p : Parser α) c = .ok (a, c') ∧ P a :=
  yields_enclosed (m := Parser) (p := p) h ho hcl hco hts hread

end Parser

end SystemVerilog
