import SystemVerilog.Proofs.Expression.Extension
import SystemVerilog.Proofs.Expression.Written
import SystemVerilog.Proofs.Layout.Independence
import SystemVerilog.Proofs.Reading.Units
import SystemVerilog.Proofs.Rereading.Expressions
import SystemVerilog.Proofs.Rereading.Texts
import SystemVerilog.Proofs.Roots.Items

/-!
# The text of a node is read as the node

Every expression in the tree of a source, whatever it is a part of, is read again from its own text: the text holds
the writing of its tokens, and these tokens alone are read as the expression. Behind its text, an operator and an
operand stand at its right edge.
-/

namespace SystemVerilog

open SystemVerilog.Parser Correspondence

variable {source : Source} {unit : SourceUnit} {e : Expr Site}

/-- The tokens that an expression is read again from are those of its range. -/
theorem Expr.Rereads.inv {ts : List Token} (h : e.Rereads ts) :
    e.tag.range.start < e.tag.range.stop ∧ e.tag.range.stop ≤ ts.length ∧
      ∃ c c', c.position = e.tag.range.start ∧ c.after = (ts.take e.tag.range.stop).drop e.tag.range.start ∧
        expression c = .ok (e, c') ∧ c'.after = [] := by
  obtain ⟨c, c', hc, hrange, hread, hend⟩ := h
  have hexact := (Forms.expression hc hread).exact
  have hlt : e.tag.range.start < e.tag.range.stop := by
    rw [← Expr.site_outline]
    exact hexact.nonempty
  have hle : e.tag.range.stop ≤ ts.length := by
    rw [← Expr.site_outline]
    exact hexact.stop_le
  refine ⟨hlt, hle, c, c', by rw [hrange], ?_, hread, hend⟩
  have hlength : e.tag.range.stop - e.tag.range.start = c.after.length := by
    rw [hrange]
    exact Nat.add_sub_cancel_left ..
  rw [List.drop_take, hlength, hrange]
  exact List.prefix_iff_eq_take.1 hc

/-- Tokens that are written as those of an expression are read as the expression. Its ranges are those in the whole
tree, counted from the start of the expression. -/
theorem Expr.Rereads.reads_writing {ts us : List Token} {d : Cursor} (h : e.Rereads ts) (hordered : Ordered ts)
    (hordered' : Ordered us) (hwriting : SameWriting ((ts.take e.tag.range.stop).drop e.tag.range.start) us)
    (hafter : d.after = us) (hposition : d.position = 0) : ∃ e' d',
      filling "end of expression" expression d = .ok (e', d') ∧
      e'.map (fun site => site.range.shifted e.tag.range.start) = e.map Site.range := by
  obtain ⟨-, -, c, c', hstart, hown, hread, hend⟩ := h.inv
  have hsublist : ((ts.take e.tag.range.stop).drop e.tag.range.start).Sublist ts :=
    (List.drop_sublist _ _).trans (List.take_sublist _ _)
  have halike := alike_layout hwriting (hordered.sublist hsublist) hordered' hown hafter
    (show c.position = d.position + e.tag.range.start by rw [hstart, hposition, Nat.zero_add])
  obtain ⟨e', d', hread', hsame, -⟩ :=
    (Agrees.filling "end of expression" .expression halike).gives (filling_eq_ok.2 ⟨hread, hend⟩)
  exact ⟨e', d', hread', hsame.eq.symm⟩

/-- Where no delay is written, an expression that is read again from its tokens is canonical, and tokens that are
written as its own spell it. -/
theorem Expr.Rereads.spells_writing {ts us : List Token} (h : e.Rereads ts) (hordered : Ordered ts)
    (hordered' : Ordered us) (hwriting : SameWriting ((ts.take e.tag.range.stop).drop e.tag.range.start) us)
    (hundelayed : ∀ t ∈ (ts.take e.tag.range.stop).drop e.tag.range.start, t.kind ≠ .op .sharp) :
    e.erase.Canonical .compares ∧ e.erase.Spells us := by
  let d : Cursor := ⟨.origin, 0, [], us⟩
  obtain ⟨e', d', hread, hsame⟩ := h.reads_writing (d := d) hordered hordered' hwriting rfl rfl
  have hus : ∀ t ∈ us, t.kind ≠ .op .sharp := by
    intro t ht
    have hmem : t.toLexeme ∈ us.map Token.toLexeme := List.mem_map_of_mem ht
    rw [← hwriting.lexemes] at hmem
    obtain ⟨u, hu, hlexeme⟩ := List.mem_map.1 hmem
    have hkind : u.kind = t.kind := congrArg Lexeme.kind hlexeme
    exact hkind ▸ hundelayed u hu
  obtain ⟨hcanonical, hspells⟩ := (expression_exact _ d hus _).1 ⟨e', d', hread, rfl⟩
  -- none of these hangs on the tags
  rw [Expr.erase, Expr.canonical_map, ← Expr.canonical_map (fun site => site.range.shifted e.tag.range.start), hsame,
    Expr.canonical_map] at hcanonical
  rw [Expr.erase, Expr.spells_map, ← Expr.spells_map (fun site => site.range.shifted e.tag.range.start), hsame,
    Expr.spells_map] at hspells
  exact ⟨(Expr.canonical_map ..).2 hcanonical, (Expr.spells_map ..).2 hspells⟩

/-- Where no delay is written in an expression that is read again from its tokens, an operator and an operand behind
its text are read at its right edge. -/
theorem Expr.Rereads.extended {x : Expr Unit} {op : BinaryOp} (harena : Arena.ofSource source = .ok unit.toArena)
    (h : e.Rereads unit.code)
    (hundelayed : ∀ t ∈ (unit.code.take e.tag.range.stop).drop e.tag.range.start, t.kind ≠ .op .sharp)
    (hx : x.Canonical .compares) (hlexical : x.Lexical) (hlt : op.power < x.level) (options : ReadOptions) :
    ∃ arena e', Arena.ofSource
        (options.source (unit.nodeText e.tag ++ String.ofList (spread (.fixed op.kind :: x.marks)))) = .ok arena ∧
      arena.expression = .ok e' ∧ e'.erase = e.erase.extended op x := by
  obtain ⟨hstart, hstop, -⟩ := h.inv
  have hms : Lexable (.fixed op.kind :: x.marks) := .cons (.binaryOp op) (Expr.lexable_marks hlexical)
  obtain ⟨arena, us, vs, hpart, hcode, hwriting, hbehind⟩ :=
    SourceUnit.textOf_followed harena hstart hstop options hms
  obtain ⟨-, hordered, -⟩ := Arena.code_of_ofSource harena
  obtain ⟨-, hordered', hroot⟩ := Arena.code_of_ofSource hpart
  have hfront : Ordered us := hordered'.sublist (hcode ▸ List.sublist_append_left us vs)
  obtain ⟨hcanonical, hspells⟩ := h.spells_writing hordered hfront hwriting hundelayed
  obtain ⟨t, ws, rfl, ht, hws⟩ := hbehind.fixed
  obtain ⟨tree, c', hread, herase⟩ := expression_extended "end of expression" hcanonical hspells hx hlt
    (ht ▸ op.kind_mem) (Expr.spells_of_realizes hws hlexical) (hroot.trans hcode)
  exact ⟨arena, tree, hpart, Arena.readWith_eq_ok.2 ⟨c', filling_eq_ok.1 hread⟩, herase⟩

/-- Every expression in the tree of a text, but a non-blocking assignment, is read again from its own tokens. -/
theorem readText_rereads {text : String} {options : ReadOptions} (h : (readText text options).result = .ok unit)
    (he : e ∈ unit.expressionNodes) (hassigns : e.assigns? ≠ some .nonBlocking) : e.Rereads unit.code := by
  obtain ⟨-, hrooted⟩ := readText_rooted h
  obtain ⟨root, hroot, hwalk⟩ := List.mem_flatMap.1 he
  obtain ⟨c, c', budget, reading, floor, hc, hread⟩ := hrooted root hroot
  exact (expressionWithin_restored budget hc.sees hread).2 e hwalk hassigns

/-- Every expression in the tree of a text, but a non-blocking assignment, is read again from its own text under
any options. The text holds the lexemes of its tokens, and the tree is the same; its ranges are those in the whole
tree, counted from the start of the expression. -/
theorem readText_nodes {text : String} {options : ReadOptions} (h : (readText text options).result = .ok unit)
    (he : e ∈ unit.expressionNodes) (hassigns : e.assigns? ≠ some .nonBlocking) (options' : ReadOptions) :
    ∃ arena e', Arena.ofSource (options'.source (unit.nodeText e.tag)) = .ok arena ∧
      arena.code.map Token.toLexeme =
        ((unit.tokens.take e.tag.range.stop).drop e.tag.range.start).map Token.toLexeme ∧
      arena.expression = .ok e' ∧
      e'.map (fun site => site.range.shifted e.tag.range.start) = e.map Site.range := by
  obtain ⟨harena, -⟩ := readText_rooted h
  have hrereads := readText_rereads h he hassigns
  obtain ⟨hlt, hle, -⟩ := hrereads.inv
  obtain ⟨arena, hpart, hwriting⟩ := SourceUnit.textOf_writing harena hlt hle options'
  obtain ⟨-, hordered, -⟩ := Arena.code_of_ofSource harena
  obtain ⟨-, hordered', hroot⟩ := Arena.code_of_ofSource hpart
  obtain ⟨e', d', hread, hsame⟩ := hrereads.reads_writing hordered hordered' hwriting hroot rfl
  refine ⟨arena, e', hpart, ?_, ?_, hsame⟩
  · obtain ⟨front, -, -, -, htokens, hcode⟩ := Arena.ofSource_inv harena
    have hfront : unit.tokens.take e.tag.range.stop = unit.code.take e.tag.range.stop := by
      rw [htokens, ← hcode]
      exact List.take_append_of_le_length hle
    rw [hfront, hwriting.lexemes]
  · exact Arena.readWith_eq_ok.2 ⟨d', filling_eq_ok.1 hread⟩

/-- The system call on the right of a non-blocking assignment, with a comment and a comparison among its arguments. -/
theorem readText_nodes_call :
    let text := "module m;\n  initial #10ns x <= $display(s /* t */, a[1] ? b : c <= d);\nendmodule"
    let options : ReadOptions := { ending := .crlf }
    ∃ unit e, (readText text {}).result = .ok unit ∧ e ∈ unit.expressionNodes ∧ e.assigns? ≠ some .nonBlocking ∧
      unit.nodeText e.tag = "$display(s /* t */, a[1] ? b : c <= d)" ∧
      ∃ arena e', Arena.ofSource (options.source (unit.nodeText e.tag)) = .ok arena ∧
        arena.code.map Token.toLexeme =
          ((unit.tokens.take e.tag.range.stop).drop e.tag.range.start).map Token.toLexeme ∧
        arena.expression = .ok e' ∧
        e'.map (fun site => site.range.shifted e.tag.range.start) = e.map Site.range := by
  intro text options
  have hread : ((readText text {}).result.toOption.bind fun unit =>
      unit.expressionNodes[3]?.map fun e => (unit.nodeText e.tag, e.assigns?)) =
      some ("$display(s /* t */, a[1] ? b : c <= d)", none) := by decide +kernel
  cases hresult : (readText text {}).result with
  | error e =>
    rw [hresult] at hread
    cases hread
  | ok unit =>
    rw [hresult] at hread
    obtain ⟨e, he, heq⟩ := Option.map_eq_some_iff.1 hread
    obtain ⟨htext, hassigns⟩ := Prod.mk.inj heq
    have hmem : e ∈ unit.expressionNodes := List.mem_of_getElem? he
    have hne : e.assigns? ≠ some .nonBlocking := by simp [hassigns]
    exact ⟨unit, e, rfl, hmem, hne, htext, readText_nodes hresult hmem hne options⟩

end SystemVerilog
