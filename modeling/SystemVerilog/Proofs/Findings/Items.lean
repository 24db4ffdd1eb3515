import SystemVerilog.Proofs.Findings.Judgement

/-!
# The findings of items

A directive reports itself, and every other item the directives in it: each is come by once and in the order
of the source, also where a generate case is read whose default stands between its items. So it is for
modules and for whole sources.
-/

namespace SystemVerilog

open SystemVerilog.Parser

variable {ts : List Token} {source : Source} {c : Cursor}

/-! ### Directives -/

/-- What is noticed appends what the value calls for. -/
def Notes {α : Type} (source : Source) (p : Recorder α) (out : α → List Diagnostic) : Prop :=
  ∀ ⦃c ns a c' ns'⦄, p.Runs c ns a c' ns' →
    Diagnostic.ofNotices source ns' = Diagnostic.ofNotices source ns ++ out a

namespace Notes

variable {α β : Type} {out : β → List Diagnostic}

theorem pure {b : β} (h : out b = []) : Notes source (Pure.pure b) out := by
  intro c ns b' c' ns' hrun
  obtain ⟨rfl, rfl, rfl⟩ := hrun.pure_inv
  rw [h, List.append_nil]

theorem silent {p : Parser α} {f : α → Recorder β} (hf : ∀ a, Notes source (f a) out) :
    Notes source ((monadLift p : Recorder α) >>= f) out := by
  intro c ns b c' ns' hrun
  obtain ⟨a, c₁, ns₁, hrunp, hrunf⟩ := hrun.bind_inv
  obtain ⟨-, rfl⟩ := hrunp.lift_inv
  exact hf a hrunf

theorem fail (cause : Cause) (place : Location) : Notes source (monadLift (Parser.fail cause place : Parser β)) out :=
  fun _ _ _ _ _ hrun => absurd hrun.lift_inv.1 fail_ne_ok

end Notes

theorem notes_conditionalRegion (negated : Bool) (place : Location) :
    Notes source (conditionalRegion negated place) (DirectiveKind.findings source place) := by
  refine .silent fun macroName => .silent fun part => ?_
  split
  · exact .fail _ _
  · intro c ns kind c' ns' hrun
    obtain ⟨u, c₁, ns₁, hnotice, hpure⟩ := hrun.bind_inv
    obtain ⟨-, rfl⟩ := hnotice.notice_inv
    obtain ⟨rfl, -, rfl⟩ := hpure.pure_inv
    exact Diagnostic.ofNotices_append _ _

theorem notes_directiveArguments (t : Token) :
    Notes source (directiveArguments t) (DirectiveKind.findings source t.location) := by
  unfold directiveArguments
  dsimp only
  split
  case h_4 | h_5 | h_8 => exact .silent fun _ => .pure rfl
  case h_9 => exact .silent fun _ => .silent fun _ => .silent fun _ => .pure rfl
  case h_10 | h_11 => exact .silent fun _ => .pure rfl
  case h_13 | h_14 => exact notes_conditionalRegion _ _
  case h_15 | h_16 | h_17 | h_18 | h_19 | h_20 | h_21 => exact .fail _ _
  all_goals exact .pure rfl

/-- A directive reports itself. -/
theorem Reports.directive : Reports ts source c SystemVerilog.directive fun ds d => ds = [d] := by
  intro hc ns d c' ns' hrun
  refine ⟨[d], ⟨(Forms.directive hc hrun.gives).advance, List.forall_mem_singleton.2 (directive_stands hc hrun)⟩,
    ?_, rfl⟩
  obtain ⟨t, rest, kind, hafter, -, harguments, rfl⟩ := hrun.directive_inv
  have hplace : c.location = t.location := by rw [Cursor.location, hafter]
  rw [notes_directiveArguments t harguments, ← hplace, List.flatMap_singleton]
  rfl

/-! ### Generate constructs -/

section Nested

variable {nested : NestedItem}

/-- The directives of an item are reported, in the order of the source. -/
abbrev ReportsItem (ts : List Token) (source : Source) (c : Cursor) (p : Recorder (BodyItem Site)) : Prop :=
  Reports ts source c p fun ds item => ds.Perm item.directives

abbrev ReportsBlock (ts : List Token) (source : Source) (c : Cursor) (p : Recorder Scope) : Prop :=
  Reports ts source c p fun ds b => ds.Perm (BodyItem.directivesBlock b)

theorem Reports.generateBlockOf (hi : ∀ c, ReportsItem ts source c nested) :
    ReportsBlock ts source c (generateBlockOf nested) := by
  refine .tagged <| .silent (.check _) fun opens c₁ => ?_
  cases opens with
  | true =>
    refine .bind (R := fun ds r => ds.Perm (r.2.flatMap BodyItem.directives)) ?_ fun r ds _ hds =>
      .silent (.endLabel _) fun _ _ => .pure fun _ => ?_
    · exact .enclosed fun _ => .silent .blockLabel fun _ _ => .last (.untilEnd hi) fun _ _ hds => hds.perm
    · rw [List.append_nil, BodyItem.directivesBlock, BodyItem.directivesAll_eq]
      exact hds
  | false =>
    refine .last (hi _) fun ds item hds _ => ?_
    rw [BodyItem.directivesBlock, BodyItem.directivesAll, BodyItem.directivesAll, List.append_nil]
    exact hds

theorem Reports.generateRegionOf (hi : ∀ c, ReportsItem ts source c nested) :
    ReportsItem ts source c (generateRegionOf nested) := by
  refine .tagged <| .enclosed fun _ => .last (.untilEnd hi) fun ds items hds _ => ?_
  rw [BodyItem.directives, BodyItem.directivesAll_eq]
  exact hds.perm

theorem Reports.generateIfOf (hi : ∀ c, ReportsItem ts source c nested) :
    ReportsItem ts source c (generateIfOf nested) := by
  refine .tagged <| .silent Takes.consume.lays fun _ _ => .silent Builds.condition.gathers fun _ _ =>
    .bind (.generateBlockOf hi) fun thenBlock ds _ hds => .silent (.eat _) fun _ _ => ?_
  split
  · exact .last (.generateBlockOf hi) fun ds' elseBlock hds' _ => hds.append hds'
  · exact .pure fun _ => hds.append_right []

theorem Reports.generateForOf (hi : ∀ c, ReportsItem ts source c nested) :
    ReportsItem ts source c (generateForOf nested) :=
  .tagged <| .silent Takes.consume.lays fun _ _ => .silent Forms.loopHeader.lays fun _ _ =>
    .last (.generateBlockOf hi) fun _ _ hds _ => hds

/-- The directives that are come by, together with those of the default that was read before them, are those
of the value; the default may have come between its items. -/
theorem Reports.caseItemsUpTo {p : Recorder Scope} (hp : ∀ c, ReportsBlock ts source c p) (n : Nat)
    (fallback : Option Scope) : Reports ts source c (caseItemsUpTo p n fallback) fun ds found =>
      (BodyItem.directivesOption fallback ++ ds).Perm
        (BodyItem.directivesItems found.1 ++ BodyItem.directivesOption found.2) := by
  induction n generalizing c fallback with
  | zero =>
    refine .silent .atEnd fun _ _ => ?_
    split
    · exact .pure (by simp [BodyItem.directivesItems])
    · exact .of_error fun _ _ => bottomless_ne_ok
  | succ n ih =>
    refine .silent .atEnd fun _ _ => ?_
    split
    · exact .pure (by simp [BodyItem.directivesItems])
    · refine .bind (R := fun ds isDefault => ds = [] ∧ (isDefault = true → fallback = none))
        (.lift (.defaultLabel _) fun _ _ h => ⟨rfl, by simpa using h.2⟩) fun isDefault ds _ hlabel => ?_
      obtain ⟨rfl, hfirst⟩ := hlabel
      split
      · rename_i hdefault
        rw [hfirst hdefault]
        exact .bind (hp _) fun only ds _ hds => (ih (some only)).mono fun ds' found hperm =>
          (hds.append_right ds').trans hperm
      · refine .bind (R := fun ds item => ds.Perm (BodyItem.directivesBlock item.body)) ?_ fun item ds _ hds => ?_
        · exact .tagged <| .silent .caseLabels fun _ _ => .last (hp _) fun _ _ hds _ => hds
        · refine .last (ih fallback) fun ds' found hperm => ?_
          rw [BodyItem.directivesItems, List.append_assoc]
          have hmiddle : (BodyItem.directivesOption fallback ++ (ds ++ ds')).Perm
              (ds ++ (BodyItem.directivesOption fallback ++ ds')) := List.perm_append_comm_assoc ..
          exact hmiddle.trans (hds.append hperm)

theorem Reports.caseItems {p : Recorder Scope} (hp : ∀ c, ReportsBlock ts source c p) :
    Reports ts source c (caseItems p) fun ds found =>
      ds.Perm (BodyItem.directivesItems found.1 ++ BodyItem.directivesOption found.2) :=
  .at_cursor fun _ => .caseItemsUpTo hp _ none

theorem Reports.generateCaseOf (hi : ∀ c, ReportsItem ts source c nested) :
    ReportsItem ts source c (generateCaseOf nested) :=
  .tagged <| .enclosed fun _ => .silent Builds.condition.gathers fun _ _ =>
    .last (.caseItems fun _ => .generateBlockOf hi) fun _ _ hds _ => hds

/-! ### Any item -/

/-- An item that holds no directive is read by a parser. -/
theorem Reports.item_of {α : Type} {p : Parser α} {out : α → Outline} {f : α → BodyItem Site}
    (hp : ∀ c, Forms ts c p out) (hf : ∀ a, (f a).directives = []) :
    ReportsItem ts source c (do return f (← p)) :=
  .silent (hp c).lays fun a _ => .pure (hf a ▸ .nil)

theorem Reports.wordItemOf (hi : ∀ c, ReportsItem ts source c nested) (word : Keyword) (t : Token) :
    ReportsItem ts source c (wordItemOf nested word t) := by
  unfold SystemVerilog.wordItemOf
  split
  · exact .item_of (fun _ => .alwaysBlock _) fun _ => rfl
  · split
    · exact .item_of (fun _ => .portDeclaration) fun _ => rfl
    · split
      · exact .item_of (fun _ => .signalDeclaration) fun _ => rfl
      · split
        · exact .item_of (fun _ => .parameterDeclaration) fun _ => rfl
        · exact .item_of (fun _ => .parameterDeclaration) fun _ => rfl
        · exact .item_of (fun _ => .genvarDeclaration) fun _ => rfl
        · exact .item_of (fun _ => .continuousAssign) fun _ => rfl
        · exact .item_of (fun _ => .initialBlock) fun _ => rfl
        · exact .last (.generateBlockOf hi) fun _ _ hds => hds
        · exact .generateRegionOf hi
        · exact .generateIfOf hi
        · exact .generateForOf hi
        · exact .generateCaseOf hi
        · exact .of_error fun _ _ => fail_ne_ok

theorem Reports.bodyItemOf (hi : ∀ c, ReportsItem ts source c nested) :
    ReportsItem ts source c (bodyItemOf nested) := by
  refine .silent .current? fun found c₁ => ?_
  split
  · exact .of_error fun _ _ => unexpectedEnd_ne_ok
  · refine .silent (.look rfl) fun starts c₂ => ?_
    split
    · exact .item_of (fun _ => .instantiation) fun _ => rfl
    · split
      · exact .wordItemOf hi _ _
      · exact .last .directive fun _ _ hds => .of_eq hds
      · refine .lift (S := fun _ item => item.directives = []) (fun _ item c' hread => ?_) fun _ item h => h ▸ .nil
        cases hread
        exact ⟨[], .skip c₂ 1, rfl⟩
      · exact .of_error fun _ _ => fail_ne_ok

end Nested

theorem Reports.bodyItemWithin (budget : Nat) : ReportsItem ts source c (bodyItemWithin budget) := by
  induction budget generalizing c with
  | zero => exact .of_error fun _ _ => bottomless_ne_ok
  | succ budget ih => exact .bodyItemOf fun _ => ih

theorem Reports.bodyItem : ReportsItem ts source c bodyItem :=
  .at_cursor fun _ => .bodyItemWithin _

/-! ### Modules and sources -/

theorem Reports.moduleBody (depth : Depth) :
    Reports ts source c (moduleBody depth) fun ds body => ds.Perm (body.flatMap BodyItem.directives) := by
  cases depth with
  | headers => exact .pure .nil
  | bodies => exact (Reports.untilEnd fun _ => .bodyItem).mono fun _ _ h => h.perm

/-- That a module has been read is no finding. -/
theorem Reports.moduleItem (depth : Depth) :
    Reports ts source c (moduleItem depth) fun ds m => ds.Perm m.directives := by
  intro hc ns m c' ns' hrun
  obtain ⟨n, header, c₁, body, c₂, ns₁, -, hheader, hbody, hlabel, rfl, rfl⟩ := hrun.moduleItem_inv
  obtain ⟨k, rfl⟩ := (Lays.moduleHeader.advance (hc.ahead n) hheader).moved
  obtain ⟨ds, hds, hfound, hperm⟩ := Reports.moduleBody depth (((hc.ahead n)).skip k) hbody
  obtain ⟨l, rfl⟩ := ((Lays.endLabel _).advance (hc.skip (n + 1)) hlabel).moved
  have hpart : Crosses ts c (c.skip (n + 1)) ds :=
    ⟨.of_ahead (k := 0) ((Advance.skip (c.ahead n) k).trans hds.advance) (by omega), hds.stands⟩
  refine ⟨ds, ?_, ?_, hperm⟩
  · have hall := hpart.trans (.skip (c.skip (n + 1)) l)
    rwa [List.append_nil] at hall
  · rw [Diagnostic.ofNotices_append, hfound]
    exact List.append_nil _

theorem Reports.item (depth : Depth) :
    Reports ts source c (item depth) fun ds i => ds.Perm i.directives := by
  refine .silent .current? fun found c₁ => ?_
  split
  · exact .of_error fun _ _ => unexpectedEnd_ne_ok
  · split
    · exact .last (.moduleItem depth) fun _ _ hds => hds
    · exact .last .directive fun _ _ hds => .of_eq hds
    · exact .of_error fun _ _ => fail_ne_ok

theorem Reports.items (depth : Depth) :
    Reports ts source c (items depth) (Reports.Each fun ds i => ds.Perm i.directives) :=
  .untilEnd fun _ => .item depth

/-- The findings of a source are those of the directives in its items, item by item and in the order in which
they stand. -/
theorem Arena.findings_of_read {arena : Arena} {depth : Depth} {unit : SourceUnit}
    (h : (arena.read depth).result = .ok unit) : ∃ ds c',
      Crosses (Cursor.root arena.tokens).after (Cursor.root arena.tokens) c' ds ∧
      Reports.Each (fun ds i => ds.Perm i.directives) ds unit.items ∧
      Diagnostic.ofNotices source (arena.read depth).notices = ds.flatMap (Directive.findings source) := by
  unfold Arena.read at h ⊢
  split at h
  · rename_i is c' notices hread
    cases h
    obtain ⟨ds, hds, hfound, heach⟩ := Reports.items depth (Cursor.sees_root arena.tokens) hread
    exact ⟨ds, c', hds, heach, hfound⟩
  · cases h

end SystemVerilog
