import SystemVerilog.Grammar.Body
import SystemVerilog.Proofs.Narrowing.Statements
import SystemVerilog.Proofs.Reading.Modules
import SystemVerilog.Proofs.Reading.Regions

/-!
# Items do not depend on what stands behind them

What an item reader reads from a span it reads from every shorter span that holds it. A skipped region reaches to
the directive that closes it, and an instance is known by two tokens, of which it has both.
-/

namespace SystemVerilog

open SystemVerilog.Parser

/-- The end of a region is found in the first tokens if they hold it. -/
theorem distanceToRegionEnd?_take {inner k n : Nat} {ts : List Token} :
    distanceToRegionEnd? inner (ts.take n) = some k ↔ distanceToRegionEnd? inner ts = some k ∧ k < n := by
  rw [distanceToRegionEnd?_eq_some_iff, distanceToRegionEnd?_eq_some_iff]
  constructor
  · rintro ⟨skipped, u, rest, htake, rfl, hopen, hu⟩
    refine ⟨⟨skipped, u, rest ++ ts.drop n, ?_, rfl, hopen, hu⟩, ?_⟩
    · rw [← List.cons_append, ← List.append_assoc, ← htake, List.take_append_drop]
    · have hlength := congrArg List.length htake
      rw [List.length_take, List.length_append, List.length_cons] at hlength
      omega
  · rintro ⟨⟨skipped, u, rest, rfl, rfl, hopen, hu⟩, hn⟩
    obtain ⟨l, rfl⟩ : ∃ l, n = skipped.length + (l + 1) := ⟨n - skipped.length - 1, by omega⟩
    exact ⟨skipped, u, rest.take l, by rw [List.take_length_add_append, List.take_succ_cons], rfl, hopen, hu⟩

namespace NarrowsAt

variable {bound : Nat} {c : Cursor}

/-! ### Directives -/

theorem notice (n : Notice) : NarrowsAt bound 0 c (SystemVerilog.notice n) (SystemVerilog.notice n) := by
  rintro u c' ⟨ns, ns', hread⟩
  obtain ⟨⟨⟩, rfl⟩ := Prod.mk.inj (Except.ok.inj (Prod.mk.inj hread).1)
  exact ⟨0, Nat.le_refl 0, Nat.zero_le _, rfl, fun _ _ _ _ => yields_notice n _⟩

theorem demandBy {α : Type} (meaning : TokenKind → Option α) (expected : String) :
    NarrowsAt bound 1 c (Parser.demandBy meaning expected) (Parser.demandBy meaning expected) :=
  of_first fun hread => by
    obtain ⟨t, rest, hafter, hmeaning, hc'⟩ := demandBy_eq_ok.1 hread
    exact ⟨t, rest, hafter, hc', fun rest' => demandBy_eq_ok.2 ⟨t, rest', rfl, hmeaning, rfl⟩⟩

theorem stringArgument (expected : String) :
    NarrowsAt bound 0 c (Parser.stringArgument expected) (Parser.stringArgument expected) :=
  .step (expectAs _ _).uncounted fun _ _ => .pure _

theorem timeValue : NarrowsAt bound 0 c Parser.timeValue Parser.timeValue := by
  refine .step (expectAs _ _).uncounted fun token _ => ?_
  split
  · exact .of_error fun _ _ => fail_ne_ok
  · exact .step (demandBy _ _).uncounted fun _ _ => .pure _

/-- A search that finds in the first tokens what it finds at all. -/
theorem spanBefore? {find : List Token → Option Nat}
    (hfind : ∀ {ts n k}, find (ts.take n) = some k ↔ find ts = some k ∧ k < n) :
    NarrowsAt bound 0 c (Parser.spanBefore? find) (Parser.spanBefore? find) := by
  intro part c' hread
  cases hfound : find c.after with
  | none =>
    have hspan : Parser.spanBefore? find c = .ok (none, c) := by rw [Parser.spanBefore?, hfound]
    obtain ⟨rfl, rfl⟩ := Prod.mk.inj (Except.ok.inj (Eq.trans hread.symm hspan))
    refine ⟨0, Nat.le_refl 0, Nat.zero_le _, rfl, fun n _ _ _ => ?_⟩
    have hcut : find (c'.cut n).after = none := Option.eq_none_iff_forall_ne_some.2 fun k hk => by
      rw [Cursor.cut_after, hfind, hfound] at hk
      cases hk.1
    show Parser.spanBefore? find (c'.cut n) = _
    rw [Parser.spanBefore?, hcut]
    rfl
  | some k =>
    have hspan : Parser.spanBefore? find c = .ok (some (c.ahead k), c.skip (k + 1)) := by
      rw [Parser.spanBefore?, hfound]
    obtain ⟨rfl, rfl⟩ := Prod.mk.inj (Except.ok.inj (Eq.trans hread.symm hspan))
    have hlt : k < c.after.length := (hfind.1 (by rw [List.take_length]; exact hfound)).2
    refine ⟨k + 1, Nat.zero_le _, hlt, rfl, fun n hn _ _ => ?_⟩
    have hcut : find (c.cut n).after = some k := hfind.2 ⟨hfound, hn⟩
    show Parser.spanBefore? find (c.cut n) = _
    rw [Parser.spanBefore?, hcut]
    dsimp only
    rw [Cursor.cut_ahead (Nat.le_of_lt hn)]

/-- A region that is skipped is kept by the cut, and with it the directive that closes it. -/
theorem conditionalRegion (negated : Bool) (here : Location) :
    NarrowsAt bound 0 c (SystemVerilog.conditionalRegion negated here)
      (SystemVerilog.conditionalRegion negated here) := by
  refine .step (lift name.uncounted) fun macroName _ =>
    .step (lift (spanBefore? distanceToRegionEnd?_take)) fun part? _ => ?_
  cases part? with
  | none => exact lift (.of_error fun _ _ => fail_ne_ok)
  | some part => exact .step (notice _) fun _ _ => .pure _

theorem directiveArguments (token : Token) :
    NarrowsAt bound 0 c (SystemVerilog.directiveArguments token) (SystemVerilog.directiveArguments token) := by
  unfold SystemVerilog.directiveArguments
  dsimp only
  split
  · exact .pure _
  · exact .pure _
  · exact .pure _
  · exact .step (lift (stringArgument _)) fun _ _ => .pure _
  · exact .step (lift (stringArgument _)) fun _ _ => .pure _
  · exact .pure _
  · exact .pure _
  · exact .step (lift (stringArgument _)) fun _ _ => .pure _
  · exact .step (lift timeValue) fun _ _ => .step (lift (expectAs _ _).uncounted) fun _ _ =>
      .step (lift timeValue) fun _ _ => .pure _
  · exact .step (lift (demandWith _ _).uncounted) fun _ _ => .pure _
  · exact .step (lift (demandBy _ _).uncounted) fun _ _ => .pure _
  · exact .pure _
  · exact conditionalRegion _ _
  · exact conditionalRegion _ _
  all_goals exact lift (.of_error fun _ _ => fail_ne_ok)

theorem directive : NarrowsAt bound 1 c SystemVerilog.directive SystemVerilog.directive :=
  .tagged <| .lead (lift (expectAs _ _)) fun token _ => .step (directiveArguments token) fun _ _ => .pure _

/-! ### Items without items inside -/

theorem alwaysBlock (kind : AlwaysKind) : NarrowsAt bound 1 c (Parser.alwaysBlock kind) (Parser.alwaysBlock kind) := by
  have hsensitivity {bound : Nat} {c : Cursor} : NarrowsAt bound 0 c optionalSensitivity optionalSensitivity :=
    .check (fun _ => .lead sensitivity fun _ _ => .pure _) (.pure none)
  exact .tagged <| .lead (demandWith _ _) fun _ _ => .step hsensitivity fun _ _ =>
    .step statement.uncounted fun _ _ => .pure _

theorem initialBlock : NarrowsAt bound 1 c Parser.initialBlock Parser.initialBlock :=
  .tagged <| .lead (expectAs _ _) fun _ _ => .step statement.uncounted fun _ _ => .pure _

theorem emptyItem (h : c.after ≠ []) : NarrowsAt bound 1 c Parser.emptyItem Parser.emptyItem :=
  .tagged <| .lead (advance? h) fun _ _ => .pure _

/-- The name that an instance starts with is not the semicolon that ends it. -/
theorem instantiation (h : c.check .identifier = true) :
    NarrowsAt bound 2 c Parser.instantiation Parser.instantiation := by
  refine .tagged (beforeSemicolon_of _ fun n hn => ?_)
  cases n with
  | zero =>
    obtain ⟨t, rest, hafter, hkind⟩ := Cursor.after_of_kind (beq_iff_eq.1 h)
    have hfirst : (t.kind == .op .semicolon) = true := by
      obtain ⟨_, hfirst, -⟩ := List.findIdx?_eq_some_iff_getElem.1 hn
      simpa only [hafter, List.getElem_cons_zero] using hfirst
    rw [hkind] at hfirst
    cases hfirst
  | succ n => exact Nat.le_add_left 2 n

/-- An instance holds the two tokens that tell it, and a cut without the second tells of none. -/
theorem startsInstantiation {m : Type → Type} [Monad m] [MonadStateOf Cursor m] [MonadLiftT Parser m] [Reader m]
    {α : Type} {f g : Bool → m α} (hstarts : c.check .identifier = true → NarrowsAt bound 2 c (f true) (g true))
    (helse : NarrowsAt bound 1 c (f false) (g false)) :
    NarrowsAt bound 1 c (monadLift Parser.startsInstantiation >>= f) (monadLift Parser.startsInstantiation >>= g) := by
  let second (k : Option TokenKind) : Bool := k == some .identifier || k == some (.op .sharp)
  let test (c : Cursor) : Bool := c.check .identifier && second (c.peekKind? 1)
  have htest (c : Cursor) : Parser.startsInstantiation c = .ok (test c, c) := rfl
  have hlong {n : Nat} (hn : 1 < n) : test (c.cut n) = test c := by
    dsimp only [test]
    rw [Cursor.cut_check (Nat.zero_lt_of_lt hn), Cursor.cut_peekKind? hn]
  cases hfound : test c with
  | true =>
    have hreads : NarrowsAt bound 2 c (monadLift Parser.startsInstantiation >>= f)
        (monadLift Parser.startsInstantiation >>= g) := by
      refine look htest (fun _ _ hn => hlong hn) (absurd · (Nat.succ_ne_zero 1)) ?_
      rw [hfound]
      exact hstarts (Bool.and_eq_true_iff.1 hfound).1
    exact hreads.mono (Nat.le_refl bound) (Nat.le_succ 1)
  | false =>
    refine look htest (fun n hn _ => ?_) (absurd · Nat.one_ne_zero) (by rw [hfound]; exact helse)
    obtain rfl | hn := Nat.eq_or_lt_of_le hn
    · rw [hfound]
      have hnone : (c.cut 1).peekKind? 1 = none := by
        rw [Cursor.peekKind?, Cursor.peek?, Cursor.cut_after, List.getElem?_take, if_neg (Nat.lt_irrefl 1)]
        rfl
      dsimp only [test]
      rw [hnone]
      exact Bool.and_false _
    · exact hlong hn

/-! ### Generate constructs -/

section Nested

variable {item item' : NestedItem}

/-- Behind `begin`, the items of a scope are read up to the word that closes it. -/
theorem generateBlockOf_begin (hi : ∀ c, NarrowsAt (bound - 1) 1 c item item')
    (hbegin : c.check (.word .kwBegin) = true) :
    NarrowsAt bound 1 c (SystemVerilog.generateBlockOf item) (SystemVerilog.generateBlockOf item') := by
  refine .tagged <| look (fun _ => rfl) (fun _ hn _ => Cursor.cut_check hn _) (absurd · Nat.one_ne_zero) ?_
  rw [hbegin, if_pos rfl, if_pos rfl]
  refine .lead (.enclosed_of_keeps fun _ => ?_) fun _ _ => .step (lift (endLabel _)) fun _ _ => .pure _
  exact .bind (.lift (.of_lays fun _ => .blockLabel)) fun _ _ => .bind (.untilEnd fun c => (hi c).keeps) fun _ _ =>
    .pure _

/-- A bare scope ends where its item ends. -/
theorem generateBlockOf_bare (hi : NarrowsAt bound 1 c item item') (hbare : c.check (.word .kwBegin) = false) :
    NarrowsAt bound 1 c (SystemVerilog.generateBlockOf item) (SystemVerilog.generateBlockOf item') := by
  refine .tagged <| look (fun _ => rfl) (fun _ hn _ => Cursor.cut_check hn _) (absurd · Nat.one_ne_zero) ?_
  rw [hbare, if_neg Bool.false_ne_true, if_neg Bool.false_ne_true]
  exact .lead hi fun _ _ => .pure _

theorem generateBlockOf (hi : ∀ c, NarrowsAt bound 1 c item item') :
    NarrowsAt bound 1 c (SystemVerilog.generateBlockOf item) (SystemVerilog.generateBlockOf item') := by
  cases hcheck : c.check (.word .kwBegin) with
  | true => exact generateBlockOf_begin (fun c => (hi c).mono (Nat.sub_le bound 1) (Nat.le_refl 1)) hcheck
  | false => exact generateBlockOf_bare (hi c) hcheck

variable (hi : ∀ c, NarrowsAt (bound - 1) 1 c item item')

include hi

theorem generateRegionOf :
    NarrowsAt bound 1 c (SystemVerilog.generateRegionOf item) (SystemVerilog.generateRegionOf item') :=
  .tagged <| .enclosed_of_keeps fun _ => .bind (.untilEnd fun c => (hi c).keeps) fun _ _ => .pure _

theorem generateIfOf : NarrowsAt bound 1 c (SystemVerilog.generateIfOf item) (SystemVerilog.generateIfOf item') := by
  refine .tagged <| .lead (lift (demandWith _ _)) fun _ _ => .step (lift condition.uncounted) fun _ _ =>
    .step (generateBlockOf hi).uncounted fun _ _ => .step (lift (eat _)) fun _ _ => ?_
  split
  · exact .step (generateBlockOf hi).uncounted fun _ _ => .pure _
  · exact .pure _

theorem generateForOf :
    NarrowsAt bound 1 c (SystemVerilog.generateForOf item) (SystemVerilog.generateForOf item') :=
  .tagged <| .lead (lift (demandWith _ _)) fun _ _ => .step (lift loopHeader.uncounted) fun _ _ =>
    .step (generateBlockOf hi).uncounted fun _ _ => .pure _

theorem generateCaseOf :
    NarrowsAt bound 1 c (SystemVerilog.generateCaseOf item) (SystemVerilog.generateCaseOf item') :=
  .tagged <| .enclosed_of_keeps fun _ => .bind (.lift condition.keeps) fun _ _ =>
    .bind (.caseItems fun _ => (generateBlockOf hi).keeps) fun _ _ => .pure _

/-! ### Any item -/

theorem wordItemOf {word : Keyword} {token : Token} (hword : c.currentKind? = some (.word word)) :
    NarrowsAt bound 1 c (SystemVerilog.wordItemOf item word token) (SystemVerilog.wordItemOf item' word token) := by
  unfold SystemVerilog.wordItemOf
  split
  · exact .lead (lift (alwaysBlock _)) fun _ _ => .pure _
  · split
    · exact .lead (lift (.tagged (beforeSemicolon _))) fun _ _ => .pure _
    · split
      · exact .lead (lift (.tagged (beforeSemicolon _))) fun _ _ => .pure _
      · split
        · exact .lead (lift (.tagged (beforeSemicolon _))) fun _ _ => .pure _
        · exact .lead (lift (.tagged (beforeSemicolon _))) fun _ _ => .pure _
        · exact .lead (lift (.tagged (beforeSemicolon _))) fun _ _ => .pure _
        · exact .lead (lift (.tagged (beforeSemicolon _))) fun _ _ => .pure _
        · exact .lead (lift initialBlock) fun _ _ => .pure _
        · exact .lead (generateBlockOf_begin hi (by rw [Cursor.check, hword]; rfl)) fun _ _ => .pure _
        · exact generateRegionOf hi
        · exact generateIfOf hi
        · exact generateForOf hi
        · exact generateCaseOf hi
        · exact lift (.of_error fun _ _ => fail_ne_ok)

theorem bodyItemOf : NarrowsAt bound 1 c (SystemVerilog.bodyItemOf item) (SystemVerilog.bodyItemOf item') := by
  refine look (fun _ => rfl) (fun _ hn _ => Cursor.cut_current? hn) (absurd · Nat.one_ne_zero) ?_
  cases hcurrent : c.current? with
  | none => exact lift (.of_error fun _ _ => unexpectedEnd_ne_ok)
  | some token =>
    obtain ⟨rest, hafter⟩ := List.head?_eq_some_iff.1 hcurrent
    have hne : c.after ≠ [] := List.ne_nil_iff_exists_cons.2 ⟨token, rest, hafter⟩
    refine startsInstantiation (fun hidentifier => ?_) ?_
    · exact (lift (instantiation hidentifier)).bind fun _ _ => .pure _
    · rw [if_neg Bool.false_ne_true, if_neg Bool.false_ne_true]
      split
      · exact wordItemOf hi (Cursor.currentKind?_of_after hafter ‹_›)
      · exact .lead directive fun _ _ => .pure _
      · exact lift (emptyItem hne)
      · exact lift (.of_error fun _ _ => fail_ne_ok)

end Nested

/-- A budget of as many nestings as a cut has tokens is enough for what is read from it. -/
theorem bodyItemWithin (budget : Nat) {budget' : Nat} (h : bound ≤ budget') :
    NarrowsAt bound 1 c (SystemVerilog.bodyItemWithin budget) (SystemVerilog.bodyItemWithin budget') := by
  induction budget generalizing bound c budget' with
  | zero => exact fun _ _ hread => absurd (Reader.lift_inv hread) bottomless_ne_ok
  | succ budget ih =>
    cases budget' with
    | zero => exact (bodyItemOf fun _ => ih (Nat.le_refl _)).starved (by omega)
    | succ budget' => exact bodyItemOf fun _ => ih (by omega)

theorem bodyItem : NarrowsAt (m := Recorder) bound 1 c SystemVerilog.bodyItem SystemVerilog.bodyItem :=
  get_length (m := Recorder) (p := fun n => SystemVerilog.bodyItemWithin (n + 1))
    (q := fun n => SystemVerilog.bodyItemWithin (n + 1)) fun _ _ => bodyItemWithin _ (Nat.le_succ _)

end NarrowsAt

end SystemVerilog
