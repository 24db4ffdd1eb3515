import Mathlib.Data.List.Forall2
import SystemVerilog.Proofs.Findings.Regions
import SystemVerilog.Proofs.Ranges.Items
import SystemVerilog.Proofs.Tree.Directives
import SystemVerilog.Report.Diagnostic

/-!
# What readers report

Each conditional region that is skipped gives rise to one finding. `Reports ts source c p Q` says that what
the recorder `p` finds at the cursor `c` are the findings of some directives, which stand one behind the other
in what is read and are related to the value. The rules follow the combinators, as those about rows do.
-/

namespace SystemVerilog

open SystemVerilog.Parser

variable {source : Source}

/-! ### Findings of directives -/

/-- The findings of a directive of this kind at a place: one if it skips a region. -/
def DirectiveKind.findings (source : Source) (place : Location) : DirectiveKind Site → List Diagnostic
  | .conditional _ macroName skipped => [.ofSkipped source macroName skipped.range.length place]
  | _ => []

/-- The findings of a directive. -/
def Directive.findings (source : Source) (d : Directive Site) : List Diagnostic :=
  d.kind.findings source d.tag.location

theorem Diagnostic.ofNotices_append (ns ns' : List Notice) :
    Diagnostic.ofNotices source (ns ++ ns') = Diagnostic.ofNotices source ns ++ Diagnostic.ofNotices source ns' :=
  List.filterMap_append

/-! ### The judgement -/

/-- The cursor `c` has moved forward to `c'` over some directives, and their regions are found where they
stand. -/
structure Crosses (ts : List Token) (c c' : Cursor) (ds : List (Directive Site)) : Prop where
  advance : Advance ts c c' (ds.map Directive.outline)
  stands : ∀ d ∈ ds, d.Stands ts

namespace Crosses

variable {ts : List Token} {c c' c'' : Cursor} {ds ds' : List (Directive Site)}

theorem skip (c : Cursor) (n : Nat) : Crosses ts c (c.skip n) [] := ⟨.skip c n, nofun⟩

theorem sees (h : Crosses ts c c' ds) (hc : c.Sees ts) : c'.Sees ts := h.advance.sees hc

theorem trans (h : Crosses ts c c' ds) (h' : Crosses ts c' c'' ds') : Crosses ts c c'' (ds ++ ds') := by
  refine ⟨?_, List.forall_mem_append.2 ⟨h.stands, h'.stands⟩⟩
  rw [List.map_append]
  exact h.advance.trans h'.advance

end Crosses

/-- The findings made while reading are those of some directives, in the order in which they stand. -/
def Reports {α : Type} (ts : List Token) (source : Source) (c : Cursor) (p : Recorder α)
    (Q : List (Directive Site) → α → Prop) : Prop :=
  c.Sees ts → ∀ ⦃ns a c' ns'⦄, p.Runs c ns a c' ns' → ∃ ds, Crosses ts c c' ds ∧
    Diagnostic.ofNotices source ns' = Diagnostic.ofNotices source ns ++ ds.flatMap (Directive.findings source) ∧
    Q ds a

namespace Reports

variable {ts : List Token} {c : Cursor} {α β : Type} {p : Recorder α} {f : α → Recorder β}
  {R R' : List (Directive Site) → α → Prop} {Q : List (Directive Site) → β → Prop}

theorem pure {a : α} (h : R [] a) : Reports ts source c (Pure.pure a) R := by
  intro _ ns b c' ns' hrun
  obtain ⟨rfl, rfl, rfl⟩ := hrun.pure_inv
  exact ⟨[], .skip _ 0, (List.append_nil _).symm, h⟩

theorem bind (hp : Reports ts source c p R)
    (hf : ∀ a ds c₁, R ds a → Reports ts source c₁ (f a) fun ds' b => Q (ds ++ ds') b) :
    Reports ts source c (p >>= f) Q := by
  intro hc ns b c' ns' hrun
  obtain ⟨a, c₁, ns₁, hrunp, hrunf⟩ := hrun.bind_inv
  obtain ⟨ds, hds, hfound, hR⟩ := hp hc hrunp
  obtain ⟨ds', hds', hfound', hQ⟩ := hf a ds c₁ hR (hds.sees hc) hrunf
  refine ⟨ds ++ ds', hds.trans hds', ?_, hQ⟩
  rw [hfound', hfound, List.append_assoc, List.flatMap_append]

theorem mono (h : Reports ts source c p R) (hR : ∀ ds a, R ds a → R' ds a) : Reports ts source c p R' := by
  intro hc ns a c' ns' hrun
  obtain ⟨ds, hds, hfound, hQ⟩ := h hc hrun
  exact ⟨ds, hds, hfound, hR ds a hQ⟩

/-- A parser finds nothing. -/
theorem lift {p : Parser α} {S : List Outline → α → Prop} (hp : Gathers ts c [] p S)
    (h : ∀ os a, S os a → R [] a) : Reports ts source c (monadLift p) R := by
  intro hc ns a c' ns' hrun
  obtain ⟨hread, rfl⟩ := hrun.lift_inv
  obtain ⟨os, hos, hS⟩ := hp hc hread
  obtain ⟨n, rfl⟩ := hos.moved
  exact ⟨[], .skip c n, (List.append_nil _).symm, h os a hS⟩

/-- A parser comes before what reports something. -/
theorem silent {p : Parser α} {out : α → List Outline} (hp : Lays ts c p out)
    (hf : ∀ a c₁, Reports ts source c₁ (f a) Q) : Reports ts source c ((monadLift p : Recorder α) >>= f) Q := by
  refine .bind (.lift (R := fun ds _ => ds = []) hp fun _ _ _ => rfl) fun a ds c₁ hds => ?_
  subst hds
  exact hf a c₁

/-- What never succeeds reports anything. -/
theorem of_error {p : Parser α} (h : ∀ a c', p c ≠ .ok (a, c')) : Reports ts source c (monadLift p) R :=
  fun _ _ a c' _ hrun => absurd hrun.lift_inv.1 (h a c')

/-- Where the cursor stands is looked at before something is reported. -/
theorem at_cursor {f : Cursor → Recorder β} (hf : ∀ d, Reports ts source c (f d) Q) :
    Reports ts source c ((MonadState.get : Recorder Cursor) >>= f) Q := by
  intro hc ns b c' ns' hrun
  obtain ⟨d, c₁, ns₁, hget, hrest⟩ := hrun.bind_inv
  obtain ⟨rfl, rfl, rfl⟩ := hget.get_inv
  exact hf _ hc hrest

/-- What is read last reports all that is left to report. -/
theorem last {g : α → β} (hp : Reports ts source c p R) (h : ∀ ds a, R ds a → Q ds (g a)) :
    Reports ts source c (p >>= fun a => Pure.pure (g a)) Q :=
  .bind hp fun a ds _ hds => .pure (by rw [List.append_nil]; exact h ds a hds)

/-- The site of what was read is no finding. -/
theorem tagged {p : Recorder (Site → α)} (h : Reports ts source c p fun ds node => ∀ site, R ds (node site)) :
    Reports ts source c (SystemVerilog.tagged p) R := by
  intro hc ns a c' ns' hrun
  obtain ⟨node, hnode, rfl⟩ := hrun.tagged_inv
  obtain ⟨ds, hds, hfound, hR⟩ := h hc hnode
  exact ⟨ds, hds, hfound, hR _⟩

/-- A pair reports what its interior does. -/
theorem enclosed {opening closing : TokenKind} (h : ∀ c₁, Reports ts source c₁ p R) :
    Reports ts source c (SystemVerilog.enclosed opening closing p) R := by
  intro hc ns a c' ns' hrun
  obtain ⟨n, c₁, hinner, rfl⟩ := hrun.enclosed_inv
  obtain ⟨ds, hds, hfound, hR⟩ := h _ ((hc.skip 1).ahead (n - 1)) hinner
  exact ⟨ds, ⟨.of_ahead hds.advance (by omega), hds.stands⟩, hfound, hR⟩

/-! ### Lists -/

/-- The directives are those of the elements, element by element. -/
def Each (R : List (Directive Site) → α → Prop) (ds : List (Directive Site)) (as : List α) : Prop :=
  ∃ found, List.Forall₂ R found as ∧ ds = found.flatten

theorem Each.nil : Each R [] [] := ⟨[], .nil, rfl⟩

theorem Each.cons {a : α} {as : List α} {ds ds' : List (Directive Site)} (h : R ds a) (hs : Each R ds' as) :
    Each R (ds ++ ds') (a :: as) := by
  obtain ⟨found, hfound, rfl⟩ := hs
  exact ⟨ds :: found, .cons h hfound, rfl⟩

/-- If the directives of each element are known up to their order, so are those of all. -/
theorem Each.perm {out : α → List (Directive Site)} {ds : List (Directive Site)} {as : List α}
    (h : Each (fun ds a => ds.Perm (out a)) ds as) : ds.Perm (as.flatMap out) := by
  obtain ⟨found, hfound, rfl⟩ := h
  induction hfound with
  | nil => exact .nil
  | cons hperm _ ih =>
    rw [List.flatten_cons, List.flatMap_cons]
    exact hperm.append ih

theorem untilEndUpTo (hp : ∀ c, Reports ts source c p R) (n : Nat) :
    Reports ts source c (SystemVerilog.untilEndUpTo p n) (Each R) := by
  induction n generalizing c with
  | zero =>
    refine .silent .atEnd fun _ _ => ?_
    split
    · exact .pure .nil
    · exact .of_error fun _ _ => bottomless_ne_ok
  | succ n ih =>
    refine .silent .atEnd fun _ _ => ?_
    split
    · exact .pure .nil
    · exact .bind (hp _) fun a ds _ hds => .last ih fun ds' as hds' => .cons hds hds'

theorem untilEnd (hp : ∀ c, Reports ts source c p R) : Reports ts source c (SystemVerilog.untilEnd p) (Each R) :=
  .at_cursor fun _ => .untilEndUpTo hp _

end Reports

end SystemVerilog
