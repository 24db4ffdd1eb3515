import SystemVerilog.Proofs.Ranges.Rows
import SystemVerilog.Proofs.Reading.Regions

/-!
# Where regions are found

A directive that skips a region is read from the tokens of the region: the directive that opens it, the name of
a macro, what is skipped, and the directive that closes it. So the place of the region among the tokens can be
told from the sites in the tree.
-/

namespace SystemVerilog

open SystemVerilog.Parser

/-- What the token of a directive names. -/
def directiveName (t : Token) : String := String.ofList (t.text.toList.dropWhile (· == '\x60'))

/-- A directive that skips a region starts at an opening directive with the name of a macro behind it, skips
what follows up to a closing directive before which no other region is open, and ends with that directive. -/
def Directive.Stands (ts : List Token) (d : Directive Site) : Prop :=
  ∀ negated macroName skipped, d.kind = .conditional negated macroName skipped → ∃ t u region v rest,
    ts.drop d.tag.range.start = t :: u :: (region ++ v :: rest) ∧
    t.kind = .directive ∧ (directiveName t = "ifdef" ∨ directiveName t = "ifndef") ∧
    t.location = d.tag.location ∧ u.kind.isName = true ∧ u.text = macroName ∧
    regionsOpen? 0 region = some 0 ∧ closesRegion v = true ∧
    skipped.range = ⟨d.tag.range.start + 2, d.tag.range.start + 2 + region.length⟩ ∧
    d.tag.range.stop = d.tag.range.start + region.length + 3

variable {c c' : Cursor} {ns ns' : List Notice} {kind : DirectiveKind Site} {negated : Bool}

namespace Recorder.Runs

theorem conditionalRegion_inv {here : Location}
    (h : Runs (SystemVerilog.conditionalRegion negated here) c ns kind c' ns') : ∃ u region v rest,
      c.after = u :: (region ++ v :: rest) ∧ u.kind.isName = true ∧ regionsOpen? 0 region = some 0 ∧
      closesRegion v = true ∧
      kind = .conditional negated u.text (siteOf ((c.skip 1).ahead region.length)) ∧
      c' = c.skip (region.length + 2) := by
  obtain ⟨text, c₁, ns₁, hname, hrest⟩ := h.bind_inv
  obtain ⟨hread, rfl⟩ := hname.lift_inv
  obtain ⟨u, behind, hafter, hu, rfl, rfl⟩ := name_eq_ok.1 hread
  obtain ⟨found, c₂, ns₂, hspan, hnotice⟩ := hrest.bind_inv
  obtain ⟨hfind, rfl⟩ := hspan.lift_inv
  have hbehind : (c.skip 1).after = behind := by
    rw [Cursor.skip_after, hafter]
    rfl
  unfold spanBefore? at hfind
  split at hfind
  · rename_i n hn
    obtain ⟨rfl, rfl⟩ := Prod.mk.inj (Except.ok.inj hfind)
    rw [hbehind] at hn
    obtain ⟨region, v, rest, rfl, rfl, hopen, hv⟩ := distanceToRegionEnd?_eq_some_iff.1 hn
    obtain ⟨w, c₃, ns₃, hkept, hpure⟩ := hnotice.bind_inv
    obtain ⟨rfl, -⟩ := hkept.notice_inv
    obtain ⟨rfl, rfl, -⟩ := hpure.pure_inv
    refine ⟨u, region, v, rest, hafter, hu, hopen, hv, rfl, ?_⟩
    rw [Cursor.skip_skip, Nat.add_comm 1]
  · obtain ⟨rfl, rfl⟩ := Prod.mk.inj (Except.ok.inj hfind)
    exact absurd hnotice.lift_inv.1 fail_ne_ok

/-- Of all directives, only the two that open a region skip one. -/
theorem directiveArguments_inv {t : Token} {macroName : String} {skipped : Site}
    (h : Runs (directiveArguments t) c ns (.conditional negated macroName skipped) c' ns') :
    (directiveName t = "ifdef" ∨ directiveName t = "ifndef") ∧
      Runs (SystemVerilog.conditionalRegion negated t.location) c ns (.conditional negated macroName skipped)
        c' ns' := by
  unfold directiveArguments at h
  dsimp only at h
  split at h
  case h_4 | h_5 | h_8 | h_10 | h_11 =>
    obtain ⟨_, _, _, -, hpure⟩ := h.bind_inv
    cases hpure.pure_inv.1
  case h_9 =>
    obtain ⟨_, _, _, -, hunit⟩ := h.bind_inv
    obtain ⟨_, _, _, -, hslash⟩ := hunit.bind_inv
    obtain ⟨_, _, _, -, hpure⟩ := hslash.bind_inv
    cases hpure.pure_inv.1
  case h_13 hname =>
    obtain ⟨u, region, v, rest, -, -, -, -, heq, -⟩ := h.conditionalRegion_inv
    obtain ⟨rfl, -, -⟩ := DirectiveKind.conditional.inj heq
    exact ⟨.inl hname, h⟩
  case h_14 hname =>
    obtain ⟨u, region, v, rest, -, -, -, -, heq, -⟩ := h.conditionalRegion_inv
    obtain ⟨rfl, -, -⟩ := DirectiveKind.conditional.inj heq
    exact ⟨.inr hname, h⟩
  case h_15 | h_16 | h_17 | h_18 | h_19 | h_20 | h_21 => exact absurd h.lift_inv.1 fail_ne_ok
  all_goals cases h.pure_inv.1

end Recorder.Runs

/-- Where a directive is read, its region, if it has one, is found among the tokens. -/
theorem directive_stands {ts : List Token} {d : Directive Site} (hc : c.Sees ts)
    (h : Recorder.Runs directive c ns d c' ns') : d.Stands ts := by
  intro negated macroName skipped hkind
  obtain ⟨t, behind, kind, hafter, ht, harguments, rfl⟩ := h.directive_inv
  obtain rfl : kind = _ := hkind
  obtain ⟨hname, hregion⟩ := harguments.directiveArguments_inv
  obtain ⟨u, region, v, rest, hbehind, hu, hopen, hv, heq, rfl⟩ := hregion.conditionalRegion_inv
  obtain ⟨-, rfl, rfl⟩ := DirectiveKind.conditional.inj heq
  have hall : c.after = t :: u :: (region ++ v :: rest) := by
    rw [Cursor.skip_after, hafter, List.drop_succ_cons, List.drop_zero] at hbehind
    rw [hafter, hbehind]
  have hplace : c.location = t.location := by rw [Cursor.location, hafter]
  have hlength : c.after.length = region.length + rest.length + 3 := by
    rw [hall, List.length_cons, List.length_cons, List.length_append, List.length_cons]
    omega
  have hstart : ((c.skip 1).skip 1).position = c.position + 2 := by
    rw [Cursor.skip_skip, Cursor.position_skip]
    omega
  have hstop : ((c.skip 1).skip (region.length + 2)).position = c.position + region.length + 3 := by
    rw [Cursor.skip_skip, Cursor.position_skip]
    omega
  have hbounds : (((c.skip 1).skip 1).ahead region.length).bounds =
      ⟨c.position + 2, c.position + 2 + region.length⟩ := by
    have hfinish : (((c.skip 1).skip 1).ahead region.length).finish = c.position + 2 + region.length := by
      rw [Cursor.finish, Cursor.position_ahead, hstart, Cursor.ahead_after, List.length_take, Cursor.skip_after,
        Cursor.skip_after, List.length_drop, List.length_drop]
      omega
    rw [Cursor.bounds, hfinish]
    exact congrArg (TokenRange.mk · _) hstart
  obtain ⟨more, hmore⟩ := hc
  refine ⟨t, u, region, v, rest ++ more, ?_, ht, hname, hplace.symm, hu, rfl, hopen, hv, hbounds, hstop⟩
  show ts.drop c.position = _
  rw [← hmore, hall]
  simp

end SystemVerilog
