import SystemVerilog.Proofs.Headers.Inheritance
import SystemVerilog.Proofs.Termination.Declarations

/-!
# Elements and commas

A list of elements is cut at the commas outside its brackets. Names in a header without declarations, declarators,
genvars and expressions are one more than these commas. The entries of a module header and the connections of an
instance may be followed by one more comma, behind which no element is missed: there they are as many as the commas.
-/

namespace SystemVerilog

open SystemVerilog.Parser

/-! ### Counting commas -/

/-- The number of commas outside brackets, `level` brackets being open at the start. -/
def commasOutside (level : Nat) : List Token → Nat
  | [] => 0
  | t :: ts =>
    if t.kind = .op .comma ∧ level = 0 then commasOutside 0 ts + 1 else commasOutside (t.kind.levelBehind level) ts

/-- Whether nothing stands behind the last comma. -/
def lastPartEmpty (ts : List Token) : Bool := ts.getLast?.all fun t => t.kind == .op .comma

section Counting

variable {t : Token} {ts us : List Token}

/-- Each comma makes one more part. -/
theorem length_cutAtCommas (level : Nat) (ts : List Token) :
    (cutAtCommas level ts).length = commasOutside level ts + 1 := by
  induction ts generalizing level with
  | nil => rfl
  | cons t ts ih =>
    rw [cutAtCommas, commasOutside]
    split
    · rw [List.length_cons, ih]
    · rw [List.length_modifyHead, ih]

theorem commasOutside_comma (ht : t.kind = .op .comma) (ts : List Token) :
    commasOutside 0 (t :: ts) = commasOutside 0 ts + 1 := by rw [commasOutside, if_pos ⟨ht, rfl⟩]

/-- What is undivided adds no comma. -/
theorem Undivided.commasOutside_append (h : Undivided ts) (us : List Token) :
    commasOutside 0 (ts ++ us) = commasOutside 0 us := by
  have hparts := congrArg List.length (h.cutsPast us)
  rw [List.length_modifyHead, length_cutAtCommas, length_cutAtCommas] at hparts
  exact Nat.succ.inj hparts

theorem Undivided.commasOutside_eq_zero (h : Undivided ts) : commasOutside 0 ts = 0 := by
  have happend := h.commasOutside_append []
  rwa [List.append_nil] at happend

theorem lastPartEmpty_append (ts : List Token) (hus : us ≠ []) : lastPartEmpty (ts ++ us) = lastPartEmpty us := by
  rw [lastPartEmpty, List.getLast?_append_of_ne_nil ts hus, lastPartEmpty]

/-- What stands behind a comma tells whether the last part is empty. -/
theorem lastPartEmpty_comma (ht : t.kind = .op .comma) : lastPartEmpty (ts ++ t :: us) = lastPartEmpty us := by
  rw [lastPartEmpty_append ts (List.cons_ne_nil t us)]
  cases us with
  | nil => simp [lastPartEmpty, ht]
  | cons u us => exact lastPartEmpty_append [t] (List.cons_ne_nil u us)

/-- An undivided part that is not empty ends in no comma. -/
theorem Undivided.lastPartEmpty_eq_false (h : Undivided ts) (hne : ts ≠ []) : lastPartEmpty ts = false := by
  have last (front : List Token) {m : Token} (hm : m.kind ≠ .op .comma) : lastPartEmpty (front ++ [m]) = false := by
    rw [lastPartEmpty_append front (List.cons_ne_nil m [])]
    simpa [lastPartEmpty] using hm
  induction h with
  | nil => exact absurd rfl hne
  | one ht => exact last [] (bne_iff_ne.1 ((Bool.and_eq_true _ _).mp ht).2)
  | @append ts us _ _ ih ih' =>
    by_cases hus : us = []
    · subst hus
      rw [List.append_nil] at hne ⊢
      exact ih hne
    · rw [lastPartEmpty_append ts hus]
      exact ih' hus
  | @pair o cl ts hpair _ =>
    obtain ⟨-, -, hcl⟩ := isOpener_of_mem_bracketPairs hpair
    refine last (o :: ts) fun hcomma => ?_
    rw [hcomma] at hcl
    cases hcl
  | @bounds o m cl ts us _ _ hcl _ _ =>
    rw [show o :: (ts ++ m :: (us ++ [cl])) = (o :: (ts ++ m :: us)) ++ [cl] by simp]
    exact last _ (by rw [hcl]; decide)
  | @choice q m ts _ hm _ _ => exact last (q :: ts) (by rw [hm]; decide)

end Counting

/-! ### Elements -/

section Elements

variable {α : Type} {p : Parser α} {c c' : Cursor} {as : List α} {expected : String}

/-- What the parser reads is a token or more, with no comma outside its brackets. -/
def ReadsElement (p : Parser α) : Prop := ∀ ⦃c a c'⦄, p c = .ok (a, c') → ∃ ts, c.Steps ts c' ∧ ts ≠ [] ∧ Undivided ts

theorem ReadsElement.of_ends (hundivided : ∀ c, UndividedAt c p) (hends : ∀ c, EndsAt 1 c p p) : ReadsElement p := by
  intro c a c' hread
  obtain ⟨ts, hts, hwhole⟩ := hundivided c hread
  refine ⟨ts, hts, ?_, hwhole⟩
  rintro rfl
  have hlt := (hends c).shorter hread
  rw [hts.of_nil] at hlt
  exact Nat.lt_irrefl _ hlt

/-- Elements behind commas are as many as the commas, and the last one is not missing. -/
theorem Parser.Led.length (hp : ReadsElement p) {n : Nat} (h : Led (comma expected) p n c as c') :
    as.length = commasOutside 0 c.after ∧ (c.after ≠ [] → lastPartEmpty c.after = false) := by
  induction h with
  | done hend => exact ⟨by rw [hend]; rfl, absurd hend⟩
  | @more n c c₁ c₂ c' a as _ hmark hread _ ih =>
    obtain ⟨t, rest, hafter, ht, rfl⟩ := comma_eq_ok.1 hmark
    obtain ⟨ts, hts, hne, hwhole⟩ := hp hread
    have hrest : rest = ts ++ c₂.after := by
      rw [← hts.after, Cursor.skip_after, hafter]
      rfl
    rw [hafter, hrest, commasOutside_comma ht, hwhole.commasOutside_append, List.length_cons, ih.1]
    refine ⟨rfl, fun _ => ?_⟩
    rw [← List.nil_append (t :: _), lastPartEmpty_comma ht]
    by_cases hend : c₂.after = []
    · rw [hend, List.append_nil]
      exact hwhole.lastPartEmpty_eq_false hne
    · rw [lastPartEmpty_append ts hend]
      exact ih.2 hend

/-- Elements with commas between them are one more than the commas. -/
theorem length_of_listBy (hp : ReadsElement p) (h : listBy (comma expected) p c = .ok (as, c')) :
    as.length = commasOutside 0 c.after + 1 ∧ lastPartEmpty c.after = false := by
  obtain ⟨a, c₁, hread, hmore⟩ := bind_eq_ok.1 h
  obtain ⟨as, c₂, hfollowers, hpure⟩ := bind_eq_ok.1 hmore
  obtain ⟨rfl, rfl⟩ := pure_eq_ok.1 hpure
  obtain ⟨ts, hts, hne, hwhole⟩ := hp hread
  obtain ⟨hlength, hlast⟩ := (followersUpTo_eq_ok.1 hfollowers).length hp
  rw [hts.after, hwhole.commasOutside_append, List.length_cons, hlength]
  refine ⟨rfl, ?_⟩
  by_cases hend : c₁.after = []
  · rw [hend, List.append_nil]
    exact hwhole.lastPartEmpty_eq_false hne
  · rw [lastPartEmpty_append ts hend]
    exact hlast hend

/-- Entries are one more than the commas, unless nothing stands behind the last one. -/
theorem Parser.Listed.length (hp : ReadsElement p) (h : Listed expected p c as) :
    as.length + (lastPartEmpty c.after).toNat = commasOutside 0 c.after + 1 := by
  induction h with
  | done hend =>
    rw [hend]
    rfl
  | last hread hend =>
    obtain ⟨ts, hts, hne, hwhole⟩ := hp hread
    rw [hts.after, hend, List.append_nil, hwhole.commasOutside_eq_zero, hwhole.lastPartEmpty_eq_false hne]
    rfl
  | @more c c₁ c₂ a as hread hmark _ ih =>
    obtain ⟨ts, hts, hne, hwhole⟩ := hp hread
    obtain ⟨t, rest, hnext, ht, rfl⟩ := comma_eq_ok.1 hmark
    rw [Cursor.skip_after, hnext, List.drop_one, List.tail_cons] at ih
    rw [hts.after, hnext, lastPartEmpty_comma ht, hwhole.commasOutside_append, commasOutside_comma ht, List.length_cons]
    omega

end Elements

/-! ### What the lists are made of -/

theorem undividedAt_connection (c : Cursor) : UndividedAt c Parser.connection := by
  have hvalue (c : Cursor) : FillsAt c connectedValue := by
    intro value c' hread
    rw [connectedValue, atEnd_bind] at hread
    split at hread
    · rename_i hend
      rw [Cursor.atEnd_eq_true_iff.1 hend]
      exact .nil
    · exact FillsAt.bind_of_fills (.filling UndividedAt.expression _) hread
  refine .tagged <| .bind (.eat rfl) fun named c₁ => ?_
  split
  · exact .bind .name fun _ _ => .bind (.enclosed (by decide) hvalue) fun _ _ => .pure _
  · exact .bind .expression fun _ _ => .pure _

namespace ReadsElement

theorem name : ReadsElement Parser.name := of_ends (fun _ => .name) fun _ => .name

theorem declarator : ReadsElement Parser.declarator := of_ends (fun _ => .declarator) fun _ => .declarator

theorem parameterEntry : ReadsElement Parser.parameterEntry :=
  of_ends (fun _ => .parameterEntry) fun _ => .parameterEntry

theorem portEntry : ReadsElement Parser.portEntry := of_ends (fun _ => .portEntry) fun _ => .portEntry

theorem connection : ReadsElement Parser.connection := of_ends undividedAt_connection fun _ => .connection

/-- With any budget, an expression that is read holds a token. -/
theorem expressionWithin (n floor : Nat) : ReadsElement (Parser.expressionWithin n .compares floor) := by
  intro c e c' hread
  obtain ⟨ts, hts, hwhole⟩ := undividedAt_expressionWithin n .compares floor c hread
  obtain ⟨k, hk, hlen, hskip, -⟩ := NarrowsAt.expressionWithin n (Nat.le_refl 0) .compares floor hread
  refine ⟨ts, hts, ?_, hwhole⟩
  rintro rfl
  have hleft := congrArg (fun c => c.after.length) (hts.of_nil.symm.trans hskip)
  simp only [Cursor.skip_after, List.length_drop] at hleft
  omega

end ReadsElement

/-! ### How many elements the lists have -/

/-- The elements of the comma lists, told by the commas of their span outside brackets. -/
structure CommaCounts (c : Cursor) : Prop where
  -- an element stands behind each comma
  portNames ⦃names c'⦄ (read : portNames c = .ok (names, c')) :
    names.length = commasOutside 0 c.after + 1 ∧ lastPartEmpty c.after = false
  declarators ⦃declared c'⦄ (read : declarators c = .ok (declared, c')) :
    declared.length = commasOutside 0 c.after + 1 ∧ lastPartEmpty c.after = false
  genvars ⦃names c'⦄ (read : listBy (comma "',' or ';'") name c = .ok (names, c')) :
    names.length = commasOutside 0 c.after + 1 ∧ lastPartEmpty c.after = false
  expressions ⦃n es c'⦄ (some : c.after ≠ []) (read : listOf (expressionWithin n .compares) c = .ok (es, c')) :
    es.length = commasOutside 0 c.after + 1 ∧ lastPartEmpty c.after = false
  -- nothing may stand behind the last comma
  parameters ⦃groups c'⦄ (read : headerParameters c = .ok (groups, c')) :
    (groups.flatMap ParameterGroup.parameters).length + (lastPartEmpty c.after).toNat = commasOutside 0 c.after + 1
  ports ⦃groups c'⦄ (read : headerPorts c = .ok (groups, c')) :
    (groups.flatMap PortGroup.ports).length + (lastPartEmpty c.after).toNat = commasOutside 0 c.after + 1
  connections ⦃expected connected c'⦄ (read : entries expected connection c = .ok (connected, c')) :
    connected.length + (lastPartEmpty c.after).toNat = commasOutside 0 c.after + 1

theorem commaCounts (c : Cursor) : CommaCounts c where
  portNames names c' read := by
    refine length_of_listBy (.of_ends (fun _ => .tagged <| .bind .name fun _ _ => .pure _) fun _ => ?_) read
    exact .tagged <| .lead .name fun _ _ _ => .pure _
  declarators declared c' read := length_of_listBy .declarator read
  genvars names c' read := length_of_listBy .name read
  expressions n es c' some read := by
    rw [listOf, atEnd_bind, if_neg fun hend => some (Cursor.atEnd_eq_true_iff.1 hend)] at read
    exact length_of_listBy (.expressionWithin n 0) read
  parameters groups c' read := by
    obtain ⟨es, hes, rfl⟩ := headerParameters_eq_ok read
    rw [(ParameterEntry.tracks_groups es).1]
    exact (listed_of_entries hes).length .parameterEntry
  ports groups c' read := by
    obtain ⟨es, hes, htracks⟩ := headerPorts_eq_ok read
    rw [htracks.1]
    exact (listed_of_entries hes).length .portEntry
  connections expected connected c' read := (listed_of_entries read).length .connection

/-- `input a,` declares one port, but `a,` are no names of ports. -/
example :
    let token (kind : TokenKind) (text : String) : Token := ⟨⟨kind, text⟩, 0, .origin, .origin⟩
    let name := token .identifier "a"
    let comma := token (.op .comma) ","
    let declared : Cursor := ⟨.origin, 0, [], [token (.word .kwInput) "input", name, comma]⟩
    let named : Cursor := ⟨.origin, 0, [], [name, comma]⟩
    ((headerPorts declared).toOption.map fun r => (r.1.flatMap PortGroup.ports).length) = some 1 ∧
      (portNames named).toOption = none ∧ commasOutside 0 declared.after = 1 := ⟨rfl, rfl, rfl⟩

end SystemVerilog
