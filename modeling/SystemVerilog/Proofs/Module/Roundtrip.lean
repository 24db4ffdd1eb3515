import SystemVerilog.Proofs.Module.Complete
import SystemVerilog.Proofs.Module.Written
import SystemVerilog.Proofs.Statement.Roundtrip

/-!
# Canonical sources are read back

A canonical list of modules and directives that is written down in any style is read back as it is, and so
is every text whose tokens, comments apart, spell it, whatever blanks and comments stand between them.
-/

namespace SystemVerilog

variable {text : String} {options : ReadOptions}

/-- A text whose tokens spell canonical items is read as these items. -/
theorem readText_of_spells {is : List (Item Unit)} {ts : List Token}
    (h : (options.source text).tokens = .ok (ts ++ [(options.source text).endMark]))
    (hspell : SpellsEach Item.Spells is (uncommented ts)) (hcan : ∀ i ∈ is, i.Canonical)
    (hdepth : options.depth = .bodies) :
    ∃ unit, (readText text options).result = .ok unit ∧ unit.items.map Item.erase = is := by
  obtain ⟨c', hs, hend⟩ := Arena.root_steps (options.source text) ts
  obtain ⟨items, hread, hmap⟩ :=
    items_complete hs hspell hcan (Source.faithful_of_mem_uncommented h) hend
  rw [readText_of_tokens h, hdepth]
  exact ⟨_, Arena.read_of_yields hread, hmap⟩

/-- Canonical modules and directives are read back from their text in every style, and from every text
whose tokens spell them. -/
theorem module_roundtrip {is : List (Item Unit)} (hcan : ∀ i ∈ is, i.Canonical) (text : String)
    (options : ReadOptions) (hdepth : options.depth = .bodies) :
    ((∀ i ∈ is, i.Lexical) → ∀ style, text = written (is.flatMap (Item.marks style)) →
      ∃ unit, (readText text options).result = .ok unit ∧ unit.items.map Item.erase = is) ∧
    ∀ ts, (options.source text).tokens = .ok (ts ++ [(options.source text).endMark]) →
      SpellsEach Item.Spells is (uncommented ts) →
      ∃ unit, (readText text options).result = .ok unit ∧ unit.items.map Item.erase = is := by
  refine ⟨fun hlex style htext => ?_, fun ts htokens hspell => readText_of_spells htokens hspell hcan hdepth⟩
  have hlexable := Item.lexable_marks style hlex hcan
  have htext : (options.source text).text = written (is.flatMap (Item.marks style)) := htext
  obtain ⟨ts, htokens, hreal⟩ := tokens_written htext hlexable.lexes
  refine readText_of_spells htokens ?_ hcan hdepth
  rw [uncommented_of_realizes hlexable hreal]
  exact Item.spells_of_realizes hreal hlex hcan

/-- A default net type, and a module that has a parameter, a port and a continuous assignment and inherits
its words where it can. -/
theorem module_roundtrip_parameter :
    let w : ParameterGroup Unit := ⟨(), false, none, [⟨(), "W", [], some (.literal () .integer "4")⟩]⟩
    let a : PortGroup Unit := ⟨(), .input, some .kwWire, none, [⟨(), "a", [], none⟩]⟩
    let b : Expr Unit := .assignment () .assign (.identifier () "b") (.identifier () "a")
    let m : Module Unit := ⟨(), "m", [w], .ansi [a], [.assign ⟨(), none, [b]⟩, .empty ()]⟩
    let is : List (Item Unit) := [.directive ⟨(), .defaultNettype "none"⟩, .design m]
    let text := "\x60default_nettype none module m # ( W = 4 , ) ( input wire a , ) ; " ++
      "assign b = a ; ; endmodule : m"
    (∀ i ∈ is, i.Canonical) ∧
      ∃ unit, (readText text {}).result = .ok unit ∧ unit.items.map Item.erase = is := by
  intro w a b m is text
  have hplain {e : Expr Unit} (h : e.systemNames = []) : e.Unblocked ∧ Unscoped e.systemNames := by
    refine ⟨fun name hname => ?_, fun name hname => ?_⟩ <;> rw [h] at hname <;> cases hname
  have hcan : ∀ i ∈ is, i.Canonical := by
    have hparams : w.Canonical := ⟨nofun, List.cons_ne_nil _ _, List.forall_mem_singleton.2 ⟨nofun, fun e he => by
      cases he
      exact ⟨⟨trivial, (hplain rfl).1⟩, (hplain rfl).2⟩⟩⟩
    have hports : a.Canonical := ⟨fun k hk => by cases hk; rfl, nofun, List.cons_ne_nil _ _,
      List.forall_mem_singleton.2 ⟨nofun, nofun⟩⟩
    have hassign : (⟨(), none, [b]⟩ : ContinuousAssign Unit).Canonical := ⟨nofun, List.cons_ne_nil _ _,
      List.forall_mem_singleton.2 ⟨rfl, ⟨by decide, trivial, trivial⟩, hplain rfl⟩⟩
    refine List.forall_mem_cons.2 ⟨trivial, List.forall_mem_singleton.2 ⟨?_, ?_, hassign, trivial, trivial⟩⟩
    · exact List.forall_mem_singleton.2 hparams
    · exact ⟨List.cons_ne_nil _ _, List.forall_mem_singleton.2 hports⟩
  have hlex : ∀ i ∈ is, i.Lexical := by
    have hname : ∀ name ∈ ["m", "W", "a", "b"], isNameText name = true := by decide
    have hfour : IsLiteral .integer "4" := ⟨⟨'4', [], rfl, rfl, rfl⟩, fun _ => rfl⟩
    have hdecl {name : String} (hname : isNameText name = true) (value : Option (Expr Unit))
        (hvalue : ∀ e, value = some e → e.Lexical) :
        LexicalDeclared (none : Option (DataType Unit)) [⟨(), name, [], value⟩] :=
      ⟨nofun, List.forall_mem_singleton.2 ⟨hname, nofun, hvalue⟩⟩
    refine List.forall_mem_cons.2 ⟨⟨by decide, .inl (by decide)⟩,
      List.forall_mem_singleton.2 ⟨hname "m" (by simp), ?_, ?_, ⟨nofun, ?_⟩, trivial, trivial⟩⟩
    · exact List.forall_mem_singleton.2 (hdecl (hname "W" (by simp)) _ fun e he => by
        cases he
        exact List.forall_mem_singleton.2 hfour)
    · exact List.forall_mem_singleton.2 (hdecl (hname "a" (by simp)) _ nofun)
    · exact List.forall_mem_singleton.2 (List.forall_mem_cons.2 ⟨trivial, List.forall_mem_cons.2
        ⟨hname "b" (by simp), List.forall_mem_singleton.2 (hname "a" (by simp))⟩⟩)
  exact ⟨hcan, (module_roundtrip hcan text {} rfl).1 hlex ⟨⟨true, true, false, false⟩, true, false, true⟩
    (by decide)⟩

end SystemVerilog
