import SystemVerilog.Proofs.Reading.Runs

/-!
# Skipped regions

A conditional region ends at the first closing directive before which as many regions are closed as are
opened in it. Whatever else stands in it, it is skipped whole, and the notice tells how much was skipped.
-/

namespace SystemVerilog

open SystemVerilog.Parser

/-! ### Nesting -/

/-- How many regions are open behind a token, if so many are open before it; none if it closes a region that
is not open. -/
def openBehind? (depth : Nat) (t : Token) : Option Nat :=
  if opensRegion t then some (depth + 1)
  else if closesRegion t then
    match depth with
    | 0 => none
    | depth + 1 => some depth
  else some depth

/-- How many regions are open behind some tokens, if so many are open before them. -/
def regionsOpen? (depth : Nat) (ts : List Token) : Option Nat := ts.foldlM openBehind? depth

theorem regionsOpen?_cons {depth : Nat} {t : Token} {ts : List Token} :
    regionsOpen? depth (t :: ts) = (openBehind? depth t).bind fun d => regionsOpen? d ts := List.foldlM_cons

theorem opensRegion_of_closesRegion {t : Token} (h : closesRegion t = true) : opensRegion t = false := by
  have htext : t.text = "\x60endif" := by simp_all [closesRegion]
  simp [opensRegion, htext]

theorem openBehind?_eq_none_iff {depth : Nat} {t : Token} :
    openBehind? depth t = none ↔ depth = 0 ∧ closesRegion t = true := by
  unfold openBehind?
  by_cases hc : closesRegion t = true
  · rw [opensRegion_of_closesRegion hc, hc]
    cases depth <;> simp
  · simp only [hc]
    split <;> simp

theorem distanceToRegionEnd?_cons {inner : Nat} {t : Token} {ts : List Token} :
    distanceToRegionEnd? inner (t :: ts) =
      (openBehind? inner t).elim (some 0) fun depth => (distanceToRegionEnd? depth ts).map (· + 1) := by
  conv => lhs; unfold distanceToRegionEnd?
  unfold openBehind?
  split
  · rfl
  · split
    · cases inner <;> rfl
    · rfl

/-- The end of a region is the closing directive before which no other region is open any more. -/
theorem distanceToRegionEnd?_eq_some_iff {inner n : Nat} {ts : List Token} :
    distanceToRegionEnd? inner ts = some n ↔ ∃ skipped u rest, ts = skipped ++ u :: rest ∧ skipped.length = n ∧
      regionsOpen? inner skipped = some 0 ∧ closesRegion u = true := by
  induction ts generalizing inner n with
  | nil => simp [distanceToRegionEnd?]
  | cons t ts ih =>
    rw [distanceToRegionEnd?_cons]
    cases hbehind : openBehind? inner t with
    | none =>
      obtain ⟨rfl, hc⟩ := openBehind?_eq_none_iff.1 hbehind
      constructor
      · rintro ⟨⟩
        exact ⟨[], t, ts, rfl, rfl, rfl, hc⟩
      · rintro ⟨skipped, u, rest, heq, rfl, hopen, -⟩
        cases skipped with
        | nil => rfl
        | cons t' skipped =>
          obtain ⟨rfl, -⟩ := List.cons.inj heq
          rw [regionsOpen?_cons, hbehind] at hopen
          cases hopen
    | some depth =>
      rw [Option.elim_some, Option.map_eq_some_iff]
      constructor
      · rintro ⟨m, hm, rfl⟩
        obtain ⟨skipped, u, rest, rfl, rfl, hopen, hu⟩ := ih.1 hm
        exact ⟨t :: skipped, u, rest, rfl, rfl, by rwa [regionsOpen?_cons, hbehind], hu⟩
      · rintro ⟨skipped, u, rest, heq, rfl, hopen, hu⟩
        cases skipped with
        | nil =>
          obtain ⟨rfl, rfl⟩ := List.cons.inj heq
          obtain rfl : inner = 0 := Option.some.inj hopen
          rw [openBehind?_eq_none_iff.2 ⟨rfl, hu⟩] at hbehind
          cases hbehind
        | cons t' skipped =>
          obtain ⟨rfl, rfl⟩ := List.cons.inj heq
          rw [regionsOpen?_cons, hbehind] at hopen
          exact ⟨skipped.length, ih.2 ⟨skipped, u, rest, rfl, rfl, hopen, hu⟩, rfl⟩

/-! ### Skipping -/

theorem Cursor.length_bounds_ahead (c : Cursor) (n : Nat) : (c.ahead n).bounds.length = min n c.after.length := by
  simp [bounds, TokenRange.length, ahead, finish, position]

theorem runs_conditionalRegion {c : Cursor} {macroName u : Token} {skipped rest : List Token}
    (hafter : c.after = macroName :: (skipped ++ u :: rest)) (hname : macroName.kind.isName = true)
    (hnested : regionsOpen? 0 skipped = some 0) (hu : closesRegion u = true) (negated : Bool) (here : Location)
    (ns : List Notice) : Recorder.Runs (conditionalRegion negated here) c ns
      (.conditional negated macroName.text (siteOf ((c.skip 1).ahead skipped.length))) (c.skip (skipped.length + 2))
      (ns ++ [.regionSkipped macroName.text skipped.length here]) := by
  have hread : name c = .ok (macroName.text, c.skip 1) := name_eq_ok.2 ⟨macroName, _, hafter, hname, rfl, rfl⟩
  have hbehind : (c.skip 1).after = skipped ++ u :: rest := by rw [Cursor.skip_after, hafter]; rfl
  have hend : distanceToRegionEnd? 0 (c.skip 1).after = some skipped.length :=
    distanceToRegionEnd?_eq_some_iff.2 ⟨skipped, u, rest, hbehind, rfl, hnested, hu⟩
  have hspan : spanBefore? (distanceToRegionEnd? 0) (c.skip 1) =
      .ok (some ((c.skip 1).ahead skipped.length), c.skip (skipped.length + 2)) := by
    rw [spanBefore?, hend]
    dsimp only
    rw [Cursor.skip_skip, Nat.add_comm 1]
  have hlength : ((c.skip 1).ahead skipped.length).bounds.length = skipped.length := by
    rw [Cursor.length_bounds_ahead, hbehind, List.length_append]
    omega
  have hnotice : Recorder.Runs
      (notice (.regionSkipped macroName.text ((c.skip 1).ahead skipped.length).bounds.length here))
      (c.skip (skipped.length + 2)) ns () (c.skip (skipped.length + 2))
      (ns ++ [.regionSkipped macroName.text skipped.length here]) := by
    rw [hlength]
    exact .notice _ _ _
  exact .bind (.lift hread ns) <| .bind (.lift hspan ns) <| .bind hnotice (.pure _ _ _)

/-- A region is skipped up to the directive that closes it, whatever stands in it, and one notice is kept. -/
theorem directive_region {c : Cursor} {t macroName u : Token} {skipped rest : List Token}
    (hafter : c.after = t :: macroName :: (skipped ++ u :: rest)) (ht : opensRegion t = true)
    (hname : macroName.kind.isName = true) (hnested : regionsOpen? 0 skipped = some 0) (hu : closesRegion u = true)
    (ns : List Notice) : ∃ negated, Recorder.Runs directive c ns
      ⟨⟨c.location, ⟨c.position, c.position + (skipped.length + 3)⟩⟩,
        .conditional negated macroName.text (siteOf ((c.skip 2).ahead skipped.length))⟩
      (c.skip (skipped.length + 3)) (ns ++ [.regionSkipped macroName.text skipped.length t.location]) := by
  have hkind : t.kind = .directive := by simp_all [opensRegion]
  have htext : t.text = "\x60ifdef" ∨ t.text = "\x60ifndef" := by simp_all [opensRegion]
  have hbehind : (c.skip 1).after = macroName :: (skipped ++ u :: rest) := by rw [Cursor.skip_after, hafter]; rfl
  have harguments (negated : Bool) : Recorder.Runs (conditionalRegion negated t.location) (c.skip 1) ns
      (.conditional negated macroName.text (siteOf ((c.skip 2).ahead skipped.length))) (c.skip (skipped.length + 3))
      (ns ++ [.regionSkipped macroName.text skipped.length t.location]) := by
    have hrun := runs_conditionalRegion hbehind hname hnested hu negated t.location ns
    rwa [Cursor.skip_skip, Cursor.skip_skip, Nat.add_comm 1 (_ + 2)] at hrun
  have hposition : (c.skip (skipped.length + 3)).position = c.position + (skipped.length + 3) := by
    have hlength : c.after.length = skipped.length + rest.length + 3 := by
      rw [hafter, List.length_cons, List.length_cons, List.length_append, List.length_cons]
      omega
    unfold Cursor.position
    rw [Cursor.skip_start, Cursor.skip_before, List.length_append, List.length_reverse, List.length_take, hlength]
    omega
  have hdirective {kind : DirectiveKind Site} (h : Recorder.Runs (directiveArguments t) (c.skip 1) ns kind
      (c.skip (skipped.length + 3)) (ns ++ [.regionSkipped macroName.text skipped.length t.location])) :
      Recorder.Runs directive c ns ⟨⟨c.location, ⟨c.position, c.position + (skipped.length + 3)⟩⟩, kind⟩
        (c.skip (skipped.length + 3)) (ns ++ [.regionSkipped macroName.text skipped.length t.location]) := by
    rw [← hposition]
    exact .directive hafter hkind h
  rcases htext with htext | htext
  · refine ⟨false, hdirective ?_⟩
    rw [directiveArguments, htext]
    exact harguments false
  · refine ⟨true, hdirective ?_⟩
    rw [directiveArguments, htext]
    exact harguments true

end SystemVerilog
