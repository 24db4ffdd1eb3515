import SystemVerilog.Proofs.Reading.Runs

/-!
# How modules and directives are put together

A module is read from a part of the span that ends before its closing word and from the label behind that
word; a directive is read from its token and what that token calls for. Each reader is opened by one lemma
and put together again by another, so that no proof about whole sources has to open it anew.
-/

namespace SystemVerilog

open SystemVerilog.Parser

variable {c c' : Cursor}

/-! ### Directives -/

theorem directive_inv {d : Directive Site} (h : Reader.Gives directive c d c') :
    ∃ t rest kind, c.after = t :: rest ∧ t.kind = .directive ∧
      Reader.Gives (directiveArguments t) (c.skip 1) kind c' ∧
      d = ⟨⟨c.location, c'.rangeFrom c.position⟩, kind⟩ := by
  obtain ⟨ns, ns', hrun⟩ := h
  obtain ⟨t, rest, kind, hafter, hkind, harguments, hd⟩ := Recorder.Runs.directive_inv hrun
  exact ⟨t, rest, kind, hafter, hkind, harguments.gives, hd⟩

theorem yields_directive {t : Token} {rest : List Token} {kind : DirectiveKind Site} (hafter : c.after = t :: rest)
    (hkind : t.kind = .directive) (h : Reader.Yields (directiveArguments t) (c.skip 1) kind c') :
    Reader.Yields directive c ⟨⟨c.location, c'.rangeFrom c.position⟩, kind⟩ c' :=
  yields_tagged (Reader.bind (Reader.lift (expect_eq_ok.2 ⟨rest, hafter, hkind, rfl⟩)) <|
    Reader.bind h (Reader.pure _ c')) rfl

/-! ### Modules -/

/-- The header and the body stand before the closing word, the label behind it. -/
theorem moduleItem_inv {depth : Depth} {m : Module Site} (h : Reader.Gives (moduleItem depth) c m c') :
    ∃ n header c₁ body c₂, closerDistance (.word .kwModule) (.word .kwEndModule) c = .ok (n, c) ∧
      moduleHeader (c.ahead n) = .ok (header, c₁) ∧ Reader.Gives (moduleBody depth) c₁ body c₂ ∧
      endLabel (some header.name) (c.skip (n + 1)) = .ok ((), c') ∧
      m = ⟨⟨c.location, c'.rangeFrom c.position⟩, header.name, header.params, header.ports, body⟩ := by
  obtain ⟨ns, ns', hrun⟩ := h
  obtain ⟨n, header, c₁, body, c₂, ns₁, hn, hheader, hbody, hlabel, hm, -⟩ := Recorder.Runs.moduleItem_inv hrun
  exact ⟨n, header, c₁, body, c₂, hn, hheader, hbody.gives, hlabel, hm⟩

theorem yields_notice (n : Notice) (c : Cursor) : Reader.Yields (notice n) c () c := fun ns => ⟨ns ++ [n], rfl⟩

theorem yields_moduleItem {depth : Depth} {n : Nat} {header : ModuleHeader} {c₁ c₂ : Cursor}
    {body : List (BodyItem Site)} (hn : closerDistance (.word .kwModule) (.word .kwEndModule) c = .ok (n, c))
    (hheader : moduleHeader (c.ahead n) = .ok (header, c₁))
    (hbody : Reader.Yields (moduleBody depth) c₁ body c₂)
    (hlabel : endLabel (some header.name) (c.skip (n + 1)) = .ok ((), c')) :
    Reader.Yields (moduleItem depth) c
      ⟨⟨c.location, c'.rangeFrom c.position⟩, header.name, header.params, header.ports, body⟩ c' :=
  yields_tagged (Reader.bind (Reader.lift (bind_eq_ok.2 ⟨n, c, hn, rfl⟩)) <|
    Reader.bind (yields_within (Reader.bind (Reader.lift hheader) (Reader.bind hbody (Reader.pure _ c₂)))) <|
      Reader.bind (Reader.lift hlabel) <| Reader.bind (yields_notice _ c') (Reader.pure _ c')) rfl

/-! ### Items of a source -/

/-- An item is a module or a directive, as its first token says. -/
theorem item_inv {depth : Depth} {i : Item Site} (h : Reader.Gives (item depth) c i c') :
    (c.check (.word .kwModule) = true ∧ ∃ m, Reader.Gives (moduleItem depth) c m c' ∧ i = .design m) ∨
      c.check .directive = true ∧ ∃ d, Reader.Gives directive c d c' ∧ i = .directive d := by
  obtain ⟨token, c₁, hcurrent, hread⟩ := Reader.bind_inv h
  obtain ⟨rfl, rfl⟩ := Prod.mk.inj (Except.ok.inj (Reader.lift_inv hcurrent))
  cases hafter : c.after with
  | nil =>
    rw [Cursor.current?, hafter] at hread
    exact absurd (Reader.lift_inv hread) unexpectedEnd_ne_ok
  | cons t rest =>
    rw [Cursor.current?, hafter] at hread
    dsimp only [List.head?] at hread
    split at hread
    · rename_i hkind
      obtain ⟨m, c₂, hm, hpure⟩ := Reader.bind_inv hread
      obtain ⟨rfl, rfl⟩ := Reader.pure_inv hpure
      exact .inl ⟨Cursor.check_of_after hafter hkind, m, hm, rfl⟩
    · rename_i hkind
      obtain ⟨d, c₂, hd, hpure⟩ := Reader.bind_inv hread
      obtain ⟨rfl, rfl⟩ := Reader.pure_inv hpure
      exact .inr ⟨Cursor.check_of_after hafter hkind, d, hd, rfl⟩
    · exact absurd (Reader.lift_inv hread) fail_ne_ok

theorem yields_item_design {depth : Depth} {m : Module Site} (hc : c.check (.word .kwModule) = true)
    (h : Reader.Yields (moduleItem depth) c m c') : Reader.Yields (item depth) c (.design m) c' := by
  obtain ⟨t, rest, hafter, hkind⟩ := Cursor.after_of_check hc
  refine Reader.bind (a := some t) (Reader.lift (by rw [current?, Cursor.current?, hafter]; rfl)) ?_
  dsimp only
  rw [hkind]
  exact Reader.bind h (Reader.pure _ c')

theorem yields_item_directive {depth : Depth} {d : Directive Site} (hc : c.check .directive = true)
    (h : Reader.Yields directive c d c') : Reader.Yields (item depth) c (.directive d) c' := by
  obtain ⟨t, rest, hafter, hkind⟩ := Cursor.after_of_check hc
  refine Reader.bind (a := some t) (Reader.lift (by rw [current?, Cursor.current?, hafter]; rfl)) ?_
  dsimp only
  rw [hkind]
  exact Reader.bind h (Reader.pure _ c')

end SystemVerilog
