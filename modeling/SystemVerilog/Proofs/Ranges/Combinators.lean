import SystemVerilog.Proofs.Ranges.Judgements

/-!
# What the combinators lay out

The primitives hold no node. A reader on a part of the span lays out what it does on its own, inside the
tokens that are read for the part; lists lay out their elements one behind the other.
-/

namespace SystemVerilog

open SystemVerilog.Parser

variable {ts : List Token} {c : Cursor} {acc : List Outline} {α β : Type}

/-! ### Primitives -/

section Primitives

variable {p : Parser α} {Q : List Outline → α → Prop}

/-- A parser that only moves forward. -/
theorem Lays.of_skip (h : ∀ a c', p c = .ok (a, c') → ∃ n, c' = c.skip n) :
    Lays ts c p fun _ => [] := by
  intro _ a c' hread
  obtain ⟨n, rfl⟩ := h a c' hread
  exact ⟨[], .skip c n, rfl⟩

/-- A parser that only looks. -/
theorem Lays.look {a : α} (h : p c = .ok (a, c)) : Lays ts c p fun _ => [] :=
  .of_skip fun a' c' hread => by
    obtain ⟨-, rfl⟩ := Prod.mk.inj (Except.ok.inj (h.symm.trans hread))
    exact ⟨0, rfl⟩

theorem Lays.atEnd : Lays ts c Parser.atEnd fun _ => [] := .look rfl

theorem Lays.location : Lays ts c Parser.location fun _ => [] := .look rfl

theorem Lays.current? : Lays ts c Parser.current? fun _ => [] := .look rfl

theorem Lays.currentKind? : Lays ts c Parser.currentKind? fun _ => [] := .look rfl

theorem Lays.peekKind? (n : Nat) : Lays ts c (Parser.peekKind? n) fun _ => [] := .look rfl

theorem Lays.check (kind : TokenKind) : Lays ts c (Parser.check kind) fun _ => [] := .look rfl

theorem Lays.advance? : Lays ts c Parser.advance? fun _ => [] :=
  .of_skip fun a c' h => ⟨1, by cases h; rfl⟩

/-- A parser that reads one token, and only if there is one. -/
theorem Takes.of_skip (h : ∀ a c', p c = .ok (a, c') → ∃ t rest, c.after = t :: rest ∧ c' = c.skip 1) :
    Takes ts c p := by
  refine ⟨.of_skip fun a c' hread => ?_, fun _ a c' hread => ?_⟩
  · obtain ⟨-, -, -, rfl⟩ := h a c' hread
    exact ⟨1, rfl⟩
  · obtain ⟨t, rest, hafter, rfl⟩ := h a c' hread
    rw [Cursor.position_skip, hafter, List.length_cons]
    omega

theorem Takes.demandWith (test : TokenKind → Bool) (expected : String) :
    Takes ts c (Parser.demandWith test expected) :=
  .of_skip fun t c' h => by
    obtain ⟨rest, hafter, -, rfl⟩ := demandWith_eq_ok.1 h
    exact ⟨t, rest, hafter, rfl⟩

theorem Takes.consume : Takes ts c Parser.consume := .demandWith _ _

theorem Takes.expectAs (kind : TokenKind) (expected : String) : Takes ts c (Parser.expectAs kind expected) :=
  .demandWith _ _

theorem Takes.expect (kind : TokenKind) : Takes ts c (Parser.expect kind) := .expectAs _ _

theorem Takes.demandBy (meaning : TokenKind → Option α) (expected : String) :
    Takes ts c (Parser.demandBy meaning expected) :=
  .of_skip fun a c' h => by
    obtain ⟨t, rest, hafter, -, rfl⟩ := demandBy_eq_ok.1 h
    exact ⟨t, rest, hafter, rfl⟩

theorem Takes.name : Takes ts c Parser.name :=
  .of_skip fun text c' h => by
    obtain ⟨t, rest, hafter, -, -, rfl⟩ := name_eq_ok.1 h
    exact ⟨t, rest, hafter, rfl⟩

theorem Takes.comma (expected : String) : Takes ts c (Parser.comma expected) :=
  .of_skip fun u c' h => by
    obtain ⟨t, rest, hafter, -, rfl⟩ := comma_eq_ok.1 h
    exact ⟨t, rest, hafter, rfl⟩

/-- Where there is a token, the next one is read. -/
theorem Takes.advance? (h : c.after ≠ []) : Takes ts c Parser.advance? :=
  .of_skip fun a c' hread => by
    cases hread
    cases hafter : c.after with
    | nil => exact absurd hafter h
    | cons t rest => exact ⟨t, rest, rfl, rfl⟩

theorem Lays.tryBy (meaning : TokenKind → Option α) : Lays ts c (Parser.tryBy meaning) fun _ => [] :=
  .of_skip fun a c' h => by
    unfold Parser.tryBy at h
    split at h <;> cases h
    · exact ⟨1, rfl⟩
    · exact ⟨0, rfl⟩

theorem Lays.eat? (kind : TokenKind) : Lays ts c (Parser.eat? kind) fun _ => [] :=
  .of_skip fun a c' h => by
    unfold Parser.eat? at h
    split at h <;> cases h
    · exact ⟨1, rfl⟩
    · exact ⟨0, rfl⟩

theorem Lays.eat (kind : TokenKind) : Lays ts c (Parser.eat kind) fun _ => [] :=
  .silent (.eat? kind) fun _ _ => .pure rfl

theorem Lays.expectEnd (expected : String) : Lays ts c (Parser.expectEnd expected) fun _ => [] :=
  .of_skip fun u c' h => by
    obtain ⟨-, rfl⟩ := expectEnd_eq_ok.1 h
    exact ⟨0, rfl⟩

/-- What never succeeds lays out anything. -/
theorem Gathers.of_error (h : ∀ a c', p c ≠ .ok (a, c')) : Gathers ts c acc p Q :=
  fun _ a c' hread => absurd hread (h a c')

theorem Gathers.fail (cause : Cause) (location : Location) :
    Gathers ts c acc (Parser.fail cause location) Q := .of_error nofun

theorem Gathers.bottomless : Gathers ts c acc Parser.bottomless Q := .of_error nofun

theorem Gathers.unexpected (expected : String) (found : Token) :
    Gathers ts c acc (Parser.unexpected expected found) Q := .of_error nofun

theorem Forms.of_error {out : α → Outline} (h : ∀ a c', p c ≠ .ok (a, c')) : Forms ts c p out :=
  fun _ a c' hread => absurd hread (h a c')

theorem Gathers.filling (expected : String) (h : Gathers ts c acc p Q) :
    Gathers ts c acc (Parser.filling expected p) Q :=
  fun hc _ _ hread => h hc (filling_eq_ok.1 hread).1

theorem Forms.filling {out : α → Outline} (expected : String) (h : Forms ts c p out) :
    Forms ts c (Parser.filling expected p) out :=
  fun hc _ _ hread => h hc (filling_eq_ok.1 hread).1

end Primitives

/-! ### Parts of the span -/

section Scoped

variable {m : Type → Type} [Monad m] [MonadStateOf Cursor m] [MonadLiftT Parser m] [Reader m]
  {p : m α} {Q : List Outline → α → Prop} {a : α} {c' : Cursor}

/-- A row over tokens ahead, which are read together with what stands around them. -/
theorem Advance.of_ahead {c₁ : Cursor} {os : List Outline} {k n l : Nat}
    (h : Advance ts ((c.skip k).ahead n) c₁ os) (hl : k + n ≤ l) : Advance ts c (c.skip l) os := by
  refine .of_row (h.row.mono ?_ ?_)
  · rw [Cursor.position_ahead, Cursor.position_skip]
    omega
  · have hfinish := h.position_le_finish
    rw [Cursor.finish, Cursor.position_ahead, Cursor.ahead_after, List.length_take,
      Cursor.skip_after, List.length_drop, Cursor.position_skip] at hfinish
    rw [Cursor.position_skip]
    omega

/-- A pair holds what its interior lays out. -/
theorem Builds.enclosed {opening closing : TokenKind} (h : ∀ c₁, Gathers ts c₁ acc p Q) :
    Builds ts c acc (SystemVerilog.enclosed opening closing p) Q := by
  refine ⟨fun hc a c' hread => ?_, fun hc a c' hread => ?_⟩
  · obtain ⟨-, n, c₁, hinner, rfl⟩ := enclosed_inv hread
    obtain ⟨os, hos, hQ⟩ := h _ ((hc.skip 1).ahead (n - 1)) hinner
    exact ⟨os, .of_ahead hos (by omega), hQ⟩
  · obtain ⟨hne, n, c₁, -, rfl⟩ := enclosed_inv hread
    have hpos := List.length_pos_iff.2 hne
    rw [Cursor.position_skip]
    omega

end Scoped

section Semicolon

variable {p : Parser α} {Q : List Outline → α → Prop} {a : α} {c' : Cursor}

/-- A row over what stands before a token that is sought. -/
theorem Gathers.within_ahead (acc : List Outline) {n : Nat} (h : ∀ c₁, Gathers ts c₁ acc p Q) (hc : c.Sees ts)
    {c₁ : Cursor} (hread : p (c.ahead n) = .ok (a, c₁)) {l : Nat} (hl : n ≤ l) :
    ∃ os, Advance ts c (c.skip l) os ∧ Q (acc ++ os) a := by
  obtain ⟨os, hos, hQ⟩ := h _ (hc.ahead n) hread
  exact ⟨os, .of_ahead (k := 0) hos (by omega), hQ⟩

/-- What stands before a token that is sought is read on its own, and then what is behind that token. -/
theorem Gathers.after_ahead {n : Nat} {out : α → List Outline} {f : α → Parser β}
    {R : List Outline → β → Prop} (hp : ∀ c₁, Lays ts c₁ p out)
    (hf : ∀ a c₁, Gathers ts c₁ (acc ++ out a) (f a) R) (hc : c.Sees ts) {b : β}
    (hread : (within (c.ahead n) p >>= f) (c.skip (n + 1)) = .ok (b, c')) :
    ∃ os, Advance ts c c' os ∧ R (acc ++ os) b := by
  obtain ⟨a, c₁, hwithin, hrest⟩ := bind_eq_ok.1 hread
  obtain ⟨⟨c₂, hpart⟩, rfl⟩ := within_eq_ok.1 hwithin
  obtain ⟨_, hpart', rfl⟩ := Gathers.within_ahead [] hp hc hpart (Nat.le_succ n)
  obtain ⟨os, hos, hR⟩ := hf a _ (hc.skip (n + 1)) hrest
  exact ⟨[] ++ out a ++ os, by simpa using hpart'.trans hos, by simpa using hR⟩

/-- What comes of a token that may be sought in vain. -/
theorem Gathers.spanBefore? {find : List Token → Option Nat} {g : Option Cursor → Parser β}
    {R : List Outline → β → Prop} (hnone : Gathers ts c acc (g none) R)
    (hsome : c.Sees ts → ∀ n b c', g (some (c.ahead n)) (c.skip (n + 1)) = .ok (b, c') →
      ∃ os, Advance ts c c' os ∧ R (acc ++ os) b) : Gathers ts c acc (Parser.spanBefore? find >>= g) R := by
  intro hc b c' hread
  obtain ⟨part, c₁, hpart, hrest⟩ := bind_eq_ok.1 hread
  unfold Parser.spanBefore? at hpart
  split at hpart
  · rename_i n _
    obtain ⟨rfl, rfl⟩ := Prod.mk.inj (Except.ok.inj hpart)
    exact hsome hc n b c' hrest
  · obtain ⟨rfl, rfl⟩ := Prod.mk.inj (Except.ok.inj hpart)
    exact hnone hc hrest

/-- What stands before a semicolon is read with it. -/
theorem Builds.beforeSemicolon (h : ∀ c₁, Gathers ts c₁ acc p Q) :
    Builds ts c acc (Parser.beforeSemicolon p) Q := by
  have hinv : ∀ {a c'}, Parser.beforeSemicolon p c = .ok (a, c') → ∃ n c₁,
      distanceTo? (.op .semicolon) c.after = some n ∧ p (c.ahead n) = .ok (a, c₁) ∧ c' = c.skip (n + 1) := by
    intro a c' hread
    obtain ⟨part, c₁, hpart, hwithin⟩ := bind_eq_ok.1 hread
    obtain ⟨n, hn, rfl, rfl⟩ := spanBefore_inv hpart
    obtain ⟨⟨c₂, hp⟩, rfl⟩ := within_eq_ok.1 hwithin
    exact ⟨n, c₂, hn, hp, rfl⟩
  refine ⟨fun hc a c' hread => ?_, fun hc a c' hread => ?_⟩
  · obtain ⟨n, c₁, -, hp, rfl⟩ := hinv hread
    exact Gathers.within_ahead acc h hc hp (Nat.le_succ n)
  · obtain ⟨n, c₁, hn, -, rfl⟩ := hinv hread
    cases hafter : c.after with
    | nil =>
      rw [hafter] at hn
      cases hn
    | cons t rest =>
      rw [Cursor.position_skip, hafter, List.length_cons]
      omega

end Semicolon

/-! ### Lists -/

section Lists

variable {p : Parser α} {separator : Parser Unit} {out : α → List Outline} {expected : String}

theorem Lays.followers (hs : ∀ c, Lays ts c separator fun _ => []) (hp : ∀ c, Lays ts c p out) :
    Lays ts c (Parser.followers separator p) fun as => as.flatMap out := by
  suffices h : ∀ n c, Lays ts c (followersUpTo separator p n) fun as => as.flatMap out from h _ c
  intro n
  induction n with
  | zero =>
    intro c
    refine .silent .atEnd fun done c₁ => ?_
    split
    · exact .pure rfl
    · exact .bottomless
  | succ n ih =>
    intro c
    refine .silent .atEnd fun done c₁ => ?_
    split
    · exact .pure rfl
    · exact .silent (hs c₁) fun _ c₂ => .step (hp c₂) fun a c₃ => .step (ih c₃) fun as c₄ => .pure (by simp)

theorem Lays.listBy (hs : ∀ c, Lays ts c separator fun _ => []) (hp : ∀ c, Lays ts c p out) :
    Lays ts c (Parser.listBy separator p) fun as => as.flatMap out := by
  exact .step (hp c) fun a c₁ => .step (.followers hs hp) fun as c₂ => .pure (by simp)

theorem Lays.entries (hp : ∀ c, Lays ts c p out) :
    Lays ts c (Parser.entries expected p) fun as => as.flatMap out := by
  suffices h : ∀ n c, Lays ts c (entriesUpTo expected p n) fun as => as.flatMap out from h _ c
  intro n
  induction n with
  | zero =>
    intro c
    refine .silent .atEnd fun done c₁ => ?_
    split
    · exact .pure rfl
    · exact .bottomless
  | succ n ih =>
    intro c
    refine .silent .atEnd fun done c₁ => ?_
    split
    · exact .pure rfl
    · refine .step (hp c₁) fun a c₂ => .silent .atEnd fun done c₃ => ?_
      split
      · exact .pure (by simp)
      · exact .silent (Takes.comma expected).lays fun _ c₄ => .step (ih c₄) fun as c₅ => .pure (by simp)

theorem Lays.bracketedUpTo (hp : ∀ c, Lays ts c p out) (n : Nat) :
    Lays ts c (Parser.bracketedUpTo p n) fun as => as.flatMap out := by
  induction n generalizing c with
  | zero =>
    refine .silent (.check _) fun open_ c₁ => ?_
    split
    · exact .bottomless
    · exact .pure rfl
  | succ n ih =>
    refine .silent (.check _) fun open_ c₁ => ?_
    split
    · exact .step (hp c₁) fun a c₂ => .step ih fun as c₃ => .pure (by simp)
    · exact .pure rfl

theorem Lays.bracketed (hp : ∀ c, Lays ts c p out) :
    Lays ts c (Parser.bracketed p) fun as => as.flatMap out := by
  intro hc as c' hread
  have hread' : Parser.bracketedUpTo p c.after.length c = .ok (as, c') := hread
  exact Lays.bracketedUpTo hp c.after.length hc hread'

/-- Where there is a bracket, something is read. -/
theorem Moves.bracketed (hbracket : c.check (.op .lBracket) = true) (hm : Moves ts c p)
    (hp : ∀ c, Lays ts c p out) : Moves ts c (Parser.bracketed p) := by
  intro hc as c' hread
  have hread' : bracketedUpTo p c.after.length c = .ok (as, c') := hread
  cases hafter : c.after with
  | nil =>
    rw [Cursor.check, Cursor.currentKind?, Cursor.current?, hafter] at hbracket
    cases hbracket
  | cons t rest =>
    rw [hafter, List.length_cons, bracketedUpTo, check_bind, hbracket, if_pos rfl] at hread'
    obtain ⟨a, c₁, ha, hrest⟩ := bind_eq_ok.1 hread'
    obtain ⟨bs, c₂, hbs, hpure⟩ := bind_eq_ok.1 hrest
    obtain ⟨rfl, rfl⟩ := pure_eq_ok.1 hpure
    have hadvance := (Lays.bracketedUpTo hp rest.length).advance (((hp c).advance hc ha).sees hc) hbs
    exact Nat.lt_of_lt_of_le (hm hc ha) hadvance.position_le

/-- Lists of nodes. -/
theorem Lays.of_flatMap {q : Parser (List α)} {node : α → Outline}
    (h : Lays ts c q fun as => as.flatMap fun a => [node a]) : Lays ts c q fun as => as.map node :=
  Gathers.mono h fun os as hos => by simpa [List.map_eq_flatMap] using hos

end Lists

end SystemVerilog
