import SystemVerilog.Proofs.Concatenation.Items
import SystemVerilog.Proofs.Findings.Items

/-!
# Reading headers alone

Where bodies are not looked at, a source is read as before but for the bodies of its modules, which stay
empty: a module is isolated by its words before its body is read, and the body is read inside that span. What
is found then are the directives between the modules.
-/

namespace SystemVerilog

open SystemVerilog.Parser

/-- An item without the body of a module. -/
def Item.bodiless {α : Type} : Item α → Item α
  | design m => design { m with body := [] }
  | directive d => directive d

variable {c c' : Cursor}

/-! ### Items in step -/

theorem Cursor.followedBy_nil (c : Cursor) : c.followedBy [] = c := by
  rw [followedBy, List.append_nil]

/-- What is noticed has no bearing on what is read. -/
theorem yields_of_local {α : Type} {p : Recorder α} {a : α} (hp : Local [] p) (h : Reader.Gives p c a c') :
    Reader.Yields p c a c' := by
  have hyields := hp h
  rwa [Cursor.followedBy_nil, Cursor.followedBy_nil] at hyields

/-- An item that is read with its body is read without it. -/
theorem yields_bodiless {i : Item Site} (h : Reader.Gives (item .bodies) c i c') :
    Reader.Yields (item .headers) c i.bodiless c' := by
  rcases item_inv h with ⟨hword, m, hm, rfl⟩ | ⟨hdirective, d, hd, rfl⟩
  · obtain ⟨n, header, c₁, body, c₂, hn, hheader, -, hlabel, rfl⟩ := moduleItem_inv hm
    exact yields_item_design hword (yields_moduleItem hn hheader (Reader.pure [] c₁) hlabel)
  · exact yields_item_directive hdirective (yields_of_local .directive hd)

theorem Chain.map {α β : Type} {step : Cursor → α → Cursor → Prop} {step' : Cursor → β → Cursor → Prop}
    {g : α → β} {as : List α} (h : Chain step c as c') (hstep : ∀ c a c', step c a c' → step' c (g a) c') :
    Chain step' c (as.map g) c' := by
  induction h with
  | done hend => exact .done hend
  | next hne ha _ ih => exact .next hne (hstep _ _ _ ha) ih

theorem Arena.read_headers {arena : Arena} {unit : SourceUnit} (h : (arena.read .bodies).result = .ok unit) :
    (arena.read .headers).result = .ok { unit with items := unit.items.map Item.bodiless } := by
  obtain ⟨is, c', hgives, rfl⟩ := Arena.read_eq_ok h
  have hchain := (chain_of_untilEnd hgives).map fun _ _ _ => yields_bodiless
  have hfew : (is.map Item.bodiless).length ≤ (Cursor.root arena.tokens).after.length := by
    rw [List.length_map]
    exact length_le_of_untilEnd hgives
  exact Arena.read_of_yields (yields_untilEnd hchain hfew)

/-! ### Findings in step -/

/-- Without bodies, the directives of items are those that stand between the modules. -/
theorem each_bodiless {ds : List (Directive Site)} {is : List (Item Site)}
    (h : Reports.Each (fun ds i => ds.Perm i.directives) ds (is.map Item.bodiless)) :
    ds = is.filterMap Item.directive? := by
  obtain ⟨found, hfound, rfl⟩ := h
  induction is generalizing found with
  | nil =>
    cases hfound
    rfl
  | cons i is ih =>
    obtain ⟨ds, found, hds, hrest, rfl⟩ := List.forall₂_cons_right_iff.1 hfound
    rw [List.flatten_cons, ih found hrest]
    cases i with
    | design m => rw [List.perm_nil.1 hds, List.filterMap_cons_none rfl, List.nil_append]
    | directive d =>
      rw [List.perm_singleton.1 hds]
      rfl

/-- If a source is read with its bodies, it is read without them, and all items but the bodies are the same. The
findings are then those of the directives between the modules, out of those that are made, item by item, when
the bodies are read. -/
theorem readText_headers (text : String) (options : ReadOptions) :
    let source := options.source text
    let full := readText text { options with depth := .bodies }
    let brief := readText text { options with depth := .headers }
    (∀ unit, full.result = .ok unit →
      brief.result = .ok { unit with items := unit.items.map Item.bodiless } ∧
      ∃ found : List (List (Directive Site)), List.Forall₂ (fun ds i => ds.Perm i.directives) found unit.items ∧
        Diagnostic.ofNotices source full.notices = found.flatten.flatMap (Directive.findings source) ∧
        Diagnostic.ofNotices source brief.notices =
          (unit.items.filterMap Item.directive?).flatMap (Directive.findings source)) ∧
    ∀ e, brief.result = .error e → ∃ e', full.result = .error e' := by
  intro source full brief
  have hsuccess : ∀ unit, full.result = .ok unit →
      brief.result = .ok { unit with items := unit.items.map Item.bodiless } ∧
      ∃ found : List (List (Directive Site)), List.Forall₂ (fun ds i => ds.Perm i.directives) found unit.items ∧
        Diagnostic.ofNotices source full.notices = found.flatten.flatMap (Directive.findings source) ∧
        Diagnostic.ofNotices source brief.notices =
          (unit.items.filterMap Item.directive?).flatMap (Directive.findings source) := by
    intro unit hfull
    obtain ⟨tokens, htokens, hread⟩ := readText_eq_ok hfull
    have hfullread : full = (Arena.ofTokens source tokens).read .bodies := readText_of_tokens htokens
    have hbriefread : brief = (Arena.ofTokens source tokens).read .headers := readText_of_tokens htokens
    have hheaders := Arena.read_headers hread
    obtain ⟨ds, -, -, ⟨found, hfound, rfl⟩, hnoticed⟩ := Arena.findings_of_read hread
    obtain ⟨ds', -, -, heach, hnoticed'⟩ := Arena.findings_of_read hheaders
    obtain rfl := each_bodiless heach
    rw [hfullread, hbriefread]
    exact ⟨hheaders, found, hfound, hnoticed, hnoticed'⟩
  refine ⟨hsuccess, fun e he => ?_⟩
  cases hfull : full.result with
  | error e' => exact ⟨e', rfl⟩
  | ok unit =>
    rw [(hsuccess unit hfull).1] at he
    cases he

/-- A region between the modules and one in a body: without bodies only the first is found. -/
theorem readText_headers_regions :
    let text := "\x60ifdef A\n\x60endif\nmodule m;\n\x60ifndef B wire w; \x60endif\nendmodule"
    let source := ReadOptions.source {} text
    ∃ unit, (readText text {}).result = .ok unit ∧
      (readText text { depth := .headers }).result = .ok { unit with items := unit.items.map Item.bodiless } ∧
      (Diagnostic.ofNotices source (readText text {}).notices).map (fun d => d.location) = [⟨1, 1⟩, ⟨4, 1⟩] ∧
      Diagnostic.ofNotices source (readText text { depth := .headers }).notices =
        (unit.items.filterMap Item.directive?).flatMap (Directive.findings source) := by
  intro text source
  have hplaces : (Diagnostic.ofNotices source (readText text {}).notices).map (fun d => d.location) =
      [⟨1, 1⟩, ⟨4, 1⟩] := by decide +kernel
  have hread : (readText text {}).result.toOption.isSome = true := by decide +kernel
  cases hresult : (readText text {}).result with
  | error e =>
    rw [hresult] at hread
    cases hread
  | ok unit =>
    obtain ⟨hbrief, -, -, -, hfound⟩ := (readText_headers text {}).1 unit hresult
    exact ⟨unit, rfl, hbrief, hplaces, hfound⟩

end SystemVerilog
