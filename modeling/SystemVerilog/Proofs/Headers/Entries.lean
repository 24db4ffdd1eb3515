import SystemVerilog.Proofs.Narrowing.Declarations

/-!
# The entries of a list

A list is cut at the commas outside its brackets. What an entry reader passes over is undivided, so it is all that
stands before the next of those commas; and since the reader does not look behind its own tokens, it reads the same
from the entry alone. So a list is read by reading each part that is not empty, in order and in full.
-/

namespace SystemVerilog

open SystemVerilog.Parser

/-! ### Cutting at commas -/

/-- The number of brackets that are open behind a token of this kind. -/
def TokenKind.levelBehind (kind : TokenKind) (level : Nat) : Nat :=
  if kind.isOpener then level + 1 else if kind.isCloser then level - 1 else level

/-- The parts of some tokens between the commas outside brackets, `level` brackets being open at the start. -/
def cutAtCommas (level : Nat) : List Token → List (List Token)
  | [] => [[]]
  | t :: ts =>
    if t.kind = .op .comma ∧ level = 0 then [] :: cutAtCommas 0 ts
    else (cutAtCommas (t.kind.levelBehind level) ts).modifyHead (t :: ·)

namespace Cursor

/-- The cursors over the parts of a span with one token between any two of them. -/
def overParts (c : Cursor) : List (List Token) → List Cursor
  | [] => []
  | part :: parts => c.cut part.length :: (c.skip (part.length + 1)).overParts parts

/-- The cursors over the parts of a span between its commas outside brackets, apart from empty ones. -/
def entries (c : Cursor) : List Cursor := (c.overParts (cutAtCommas 0 c.after)).filter fun d => !d.atEnd

end Cursor

/-- Cutting goes on behind the tokens with `level'` brackets open, and they belong to the part they stand in. -/
def CutsPast (level level' : Nat) (ts : List Token) : Prop :=
  ∀ us, cutAtCommas level (ts ++ us) = (cutAtCommas level' us).modifyHead (ts ++ ·)

namespace CutsPast

variable {level level' level'' : Nat} {t : Token} {ts us : List Token}

theorem nil : CutsPast level level [] := by
  intro us
  rw [List.nil_append]
  cases cutAtCommas level us <;> rfl

theorem append (h : CutsPast level level' ts) (h' : CutsPast level' level'' us) :
    CutsPast level level'' (ts ++ us) := by
  intro vs
  rw [List.append_assoc, h, h', List.modifyHead_modifyHead]
  congr 1
  funext part
  exact (List.append_assoc ts us part).symm

theorem one (h : t.kind = .op .comma → level ≠ 0) (hlevel : t.kind.levelBehind level = level') :
    CutsPast level level' [t] := by
  intro us
  rw [List.singleton_append, cutAtCommas, if_neg fun hcut => h hcut.1 hcut.2, hlevel]
  rfl

theorem cons (h : t.kind = .op .comma → level ≠ 0) (hlevel : t.kind.levelBehind level = level')
    (hts : CutsPast level' level'' ts) : CutsPast level level'' (t :: ts) := append (one h hlevel) hts

/-- A pair of brackets with commas only inside. -/
theorem pair {o cl : Token} (hpair : (o.kind, cl.kind) ∈ bracketPairs) (hts : CutsPast (level + 1) (level + 1) ts) :
    CutsPast level level (o :: (ts ++ [cl])) := by
  obtain ⟨ho, hcl, hcl'⟩ := isOpener_of_mem_bracketPairs hpair
  refine .cons (fun hcomma => ?_) (if_pos ho) (.append hts (.one (fun _ => Nat.succ_ne_zero _) ?_))
  · rw [hcomma] at ho
    cases ho
  · rw [TokenKind.levelBehind, hcl, if_neg Bool.false_ne_true, hcl', if_pos rfl, Nat.add_sub_cancel]

end CutsPast

theorem TokenKind.levelBehind_of_isFlat {kind : TokenKind} (h : kind.isFlat = true) (level : Nat) :
    kind.levelBehind level = level := by
  obtain ⟨ho, hc, -, -⟩ := isFlat_iff.1 h
  rw [levelBehind, ho, hc]
  rfl

/-- Inside brackets nothing is cut. -/
theorem Balanced.cutsPast {ts : List Token} (h : Balanced Token.IsFlat ts) (level : Nat) :
    CutsPast (level + 1) (level + 1) ts := by
  have mark {level : Nat} {m : Token} {kind : TokenKind} (hm : m.kind = kind)
      (hkind : kind.levelBehind (level + 1) = level + 1) : CutsPast (level + 1) (level + 1) [m] :=
    .one (fun _ => Nat.succ_ne_zero _) (by rw [hm, hkind])
  induction h generalizing level with
  | nil => exact .nil
  | one ht => exact .one (fun _ => Nat.succ_ne_zero _) (TokenKind.levelBehind_of_isFlat ht _)
  | append _ _ ih ih' => exact .append (ih level) (ih' level)
  | pair hpair _ ih => exact .pair hpair (ih (level + 1))
  | @bounds o m cl ts us ho hm hcl _ _ ih ih' =>
    rw [show ts ++ m :: (us ++ [cl]) = (ts ++ ([m] ++ us)) ++ [cl] by simp]
    exact .pair (by rw [ho, hcl]; decide) (.append (ih (level + 1)) (.append (mark hm rfl) (ih' (level + 1))))
  | choice hq hm _ ih => exact .append (mark hq rfl) (.append (ih level) (mark hm rfl))

/-- What is undivided is not cut. -/
theorem Undivided.cutsPast {ts : List Token} (h : Undivided ts) : CutsPast 0 0 ts := by
  have mark {m : Token} {kind : TokenKind} (hm : m.kind = kind) (hkind : kind.levelBehind 0 = 0)
      (hne : kind ≠ .op .comma) : CutsPast 0 0 [m] :=
    .one (fun hcomma => absurd (hm.symm.trans hcomma) hne) (by rw [hm, hkind])
  induction h with
  | nil => exact .nil
  | one ht =>
    obtain ⟨hflat, hne⟩ := (Bool.and_eq_true _ _).mp ht
    exact .one (fun hcomma => absurd hcomma (bne_iff_ne.1 hne)) (TokenKind.levelBehind_of_isFlat hflat 0)
  | append _ _ ih ih' => exact .append ih ih'
  | pair hpair hts => exact .pair hpair (hts.cutsPast 0)
  | @bounds o m cl ts us ho hm hcl hts hus =>
    have hcolon : CutsPast 1 1 [m] := .one (fun _ => Nat.one_ne_zero) (by rw [hm]; rfl)
    rw [show ts ++ m :: (us ++ [cl]) = (ts ++ ([m] ++ us)) ++ [cl] by simp]
    exact .pair (by rw [ho, hcl]; decide) (.append (hts.cutsPast 0) (.append hcolon (hus.cutsPast 0)))
  | choice hq hm _ ih => exact .append (mark hq rfl (by decide)) (.append ih (mark hm rfl (by decide)))

/-! ### What declarations are read from -/

namespace UndividedAt

variable {α : Type} {c : Cursor} {p : Parser α}

/-- A token that means something and is no operator, or nothing. -/
theorem tryBy {meaning : TokenKind → Option α} (h : ∀ op, meaning (.op op) = none) :
    UndividedAt c (Parser.tryBy meaning) := by
  intro a c' hread
  cases hfound : c.currentKind?.bind meaning with
  | none =>
    rw [Parser.tryBy, hfound] at hread
    cases hread
    exact ⟨[], .refl _, .nil⟩
  | some b =>
    obtain ⟨t, rest, hafter, ht⟩ := Cursor.after_of_currentKind? hfound
    rw [tryBy_of_after hafter ht] at hread
    cases hread
    refine ⟨[t], .one hafter, .one (TokenKind.isBare_of_ne_op fun op hop => ?_)⟩
    rw [hop, h] at ht
    cases ht

theorem eat {kind : TokenKind} (hkind : kind.isBare = true) : UndividedAt c (Parser.eat kind) := by
  intro found c' hread
  cases hcheck : c.check kind with
  | false =>
    rw [eat_of_check hcheck] at hread
    cases hread
    exact ⟨[], .refl _, .nil⟩
  | true =>
    obtain ⟨t, rest, hafter, ht⟩ := Cursor.after_of_check hcheck
    rw [eat_of_after hafter ht] at hread
    cases hread
    exact ⟨[t], .one hafter, .one (ht ▸ hkind)⟩

theorem bracketed (hp : ∀ c, UndividedAt c p) : UndividedAt c (Parser.bracketed p) := by
  suffices h : ∀ n c, UndividedAt c (Parser.bracketedUpTo p n) from fun _ _ hread => h _ c hread
  intro n
  induction n with
  | zero =>
    intro c as c' hread
    rw [bracketedUpTo, check_bind] at hread
    split at hread
    · exact absurd hread bottomless_ne_ok
    · exact UndividedAt.pure _ hread
  | succ n ih =>
    intro c as c' hread
    rw [bracketedUpTo, check_bind] at hread
    split at hread
    · exact UndividedAt.bind (hp c) (fun _ c₁ => .bind (ih c₁) fun _ _ => .pure _) hread
    · exact UndividedAt.pure _ hread

theorem expression : UndividedAt c Parser.expression :=
  fun _ _ hread => undividedAt_expressionWithin (budget c) .compares 0 c hread

/-- The bounds of a dimension have a colon between them, which the brackets around it answer. -/
theorem dimension : UndividedAt c Parser.dimension := by
  refine .tagged fun node c' hread => ?_
  obtain ⟨o, ts, cl, c₁, hsteps, ho, hcl, -, hinner⟩ := enclosed_eq_ok hread
  have hpair : (o.kind, cl.kind) ∈ bracketPairs := mem_bracketPairs_of_inFamily (by decide) ho hcl
  refine ⟨_, hsteps, ?_⟩
  rw [← interior_after hsteps]
  rcases dimensionInterior_eq_ok.1 hinner with ⟨n, left, c₂, right, hn, hleft, hright, -⟩ | ⟨index, -, hindex, -⟩
  · obtain ⟨m, hparts, -, hcolon⟩ := distanceAtTop?_parts hn
    have hbefore := FillsAt.filling UndividedAt.expression _ hleft
    have hbehind := FillsAt.filling UndividedAt.expression _ hright
    rw [Cursor.ahead_after] at hbefore
    rw [Cursor.skip_after] at hbehind
    rw [hparts, List.append_assoc, List.cons_append]
    exact .bounds (eq_of_beq ho) hcolon (eq_of_beq hcl) hbefore hbehind
  · exact .pair hpair (FillsAt.filling UndividedAt.expression _ hindex)

theorem packedBounds : UndividedAt c Parser.packedBounds := by
  intro b c' hread
  rw [Parser.packedBounds, location_bind] at hread
  refine UndividedAt.bind dimension (fun d c₁ => ?_) hread
  cases d with
  | bounds b => exact .pure b
  | size tag index => exact .of_error fun _ _ => fail_ne_ok

theorem typeParts : UndividedAt c Parser.typeParts := by
  refine .bind (.tryBy fun _ => rfl) fun keyword c₁ => .bind (?_ : UndividedAt _ (signingOf keyword))
    fun signing c₂ => .bind (?_ : UndividedAt _ (packedOf keyword)) fun packed _ => .pure _
  · unfold signingOf
    split
    · exact .tryBy fun _ => rfl
    · exact .pure none
  · unfold packedOf
    split
    · exact .bracketed fun _ => packedBounds
    · exact .pure []

theorem dataType : UndividedAt c Parser.dataType := by
  intro type c' hread
  rw [dataType_eq, currentKind?_bind] at hread
  cases hkind : c.currentKind? with
  | none =>
    rw [hkind] at hread
    exact UndividedAt.pure none hread
  | some kind =>
    rw [hkind] at hread
    dsimp only at hread
    split at hread
    · exact UndividedAt.tagged typeParts hread
    · exact UndividedAt.pure none hread

theorem declarator : UndividedAt c Parser.declarator := by
  refine .tagged <| .bind .name fun _ _ => .bind (.bracketed fun _ => dimension) fun _ _ =>
    .bind (.eat rfl) fun found c₁ => ?_
  split
  · exact .bind expression fun _ _ => .pure _
  · exact .pure _

theorem parameterEntry : UndividedAt c Parser.parameterEntry := by
  refine .tagged <| .bind (.bind (.eat rfl) fun found c₁ => ?_) fun _ _ => .bind dataType fun _ _ =>
    .bind declarator fun _ _ => .pure _
  split
  · exact .pure _
  · refine .bind (.eat rfl) fun found c₁ => ?_
    split
    · exact .pure _
    · exact .pure _

theorem portEntry : UndividedAt c Parser.portEntry :=
  .tagged <| .bind (.tryBy fun _ => rfl) fun _ _ => .bind (.tryBy fun _ => rfl) fun _ _ =>
    .bind dataType fun _ _ => .bind declarator fun _ _ => .pure _

end UndividedAt

/-! ### Lists of entries -/

namespace Cursor

variable {c : Cursor} {t : Token} {ts rest : List Token}

theorem entries_of_nil (hafter : c.after = []) : c.entries = [] := by
  have hend : (c.cut 0).atEnd = true := atEnd_eq_true_iff.2 (by rw [cut_after, List.take_zero])
  rw [entries, hafter, cutAtCommas, overParts, overParts, List.length_nil, List.filter_cons_of_neg (by simp [hend])]
  rfl

theorem cut_atEnd_eq_false (hafter : c.after = ts ++ rest) (hts : ts ≠ []) : (c.cut ts.length).atEnd = false := by
  rw [atEnd, cut_after, hafter, List.take_left]
  exact List.isEmpty_eq_false_iff.2 hts

/-- An undivided span is its only entry. -/
theorem entries_of_undivided (hafter : c.after = ts) (hts : ts ≠ []) (hundivided : Undivided ts) :
    c.entries = [c.cut ts.length] := by
  have hcut := hundivided.cutsPast []
  rw [List.append_nil, cutAtCommas, List.modifyHead_cons, List.append_nil] at hcut
  have hmore := cut_atEnd_eq_false (hafter.trans (List.append_nil ts).symm) hts
  rw [entries, hafter, hcut, overParts, overParts, List.filter_cons_of_pos (by rw [hmore]; rfl), List.filter_nil]

/-- What is undivided up to a comma is the first entry. -/
theorem entries_of_comma (hafter : c.after = ts ++ t :: rest) (hts : ts ≠ []) (hundivided : Undivided ts)
    (ht : t.kind = .op .comma) : c.entries = c.cut ts.length :: (c.skip (ts.length + 1)).entries := by
  have hcut := hundivided.cutsPast (t :: rest)
  rw [cutAtCommas, if_pos ⟨ht, rfl⟩, List.modifyHead_cons, List.append_nil] at hcut
  have hrest : (c.skip (ts.length + 1)).after = rest := by
    rw [skip_after, hafter, ← List.drop_drop, List.drop_left]
    rfl
  have hmore := cut_atEnd_eq_false hafter hts
  rw [entries, entries, hafter, hcut, overParts, List.filter_cons_of_pos (by rw [hmore]; rfl), hrest]

/-- All of the span is read by the parser, as a value. -/
def ReadsAs {α : Type} (c : Cursor) (p : Parser α) (a : α) : Prop := ∃ c', p c = .ok (a, c') ∧ c'.after = []

end Cursor

section Entries

variable {α : Type} {p : Parser α} {expected : String}

/-- An entry is read on its own as it is read in the list. -/
theorem readsAs_of_read (hundivided : ∀ c, UndividedAt c p) (hnarrows : ∀ bound c, NarrowsAt bound 1 c p p)
    {c c₁ : Cursor} {a : α} (h : p c = .ok (a, c₁)) :
    ∃ ts, c.Steps ts c₁ ∧ ts ≠ [] ∧ Undivided ts ∧ (c.cut ts.length).ReadsAs p a := by
  obtain ⟨ts, hts, hwhole⟩ := hundivided c h
  obtain ⟨k, hk, hlen, hskip, hcut⟩ := hnarrows ts.length c h
  obtain rfl : k = ts.length := by
    have hlength := hts.length
    have hleft := congrArg (fun c => c.after.length) hskip
    simp only [Cursor.skip_after, List.length_drop] at hleft
    omega
  exact ⟨ts, hts, List.ne_nil_of_length_pos hk, hwhole, _, hcut _ (Nat.le_refl _) (Nat.le_refl _) hlen,
    Cursor.cut_skip_after _ _⟩

/-- A list of entries is read by reading each entry on its own, in order and in full. -/
theorem readsAs_of_listed (hundivided : ∀ c, UndividedAt c p) (hnarrows : ∀ bound c, NarrowsAt bound 1 c p p)
    {c : Cursor} {as : List α} (h : Listed expected p c as) :
    List.Forall₂ (fun d a => d.ReadsAs p a) c.entries as := by
  induction h with
  | done hend =>
    rw [Cursor.entries_of_nil hend]
    exact .nil
  | last hread hend =>
    obtain ⟨ts, hts, hne, hwhole, hreads⟩ := readsAs_of_read hundivided hnarrows hread
    have hafter := hts.after
    rw [hend, List.append_nil] at hafter
    rw [Cursor.entries_of_undivided hafter hne hwhole]
    exact .cons hreads .nil
  | more hread hmark _ ih =>
    obtain ⟨ts, hts, hne, hwhole, hreads⟩ := readsAs_of_read hundivided hnarrows hread
    obtain ⟨t, rest, hnext, ht, rfl⟩ := comma_eq_ok.1 hmark
    have hafter := hts.after
    rw [hnext] at hafter
    rw [Cursor.entries_of_comma hafter hne hwhole ht, ← Cursor.skip_skip, ← hts.eq_skip]
    exact .cons hreads ih

end Entries

end SystemVerilog
