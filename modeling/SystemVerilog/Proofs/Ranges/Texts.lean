import SystemVerilog.Grammar.Unit
import SystemVerilog.Proofs.Lexing.Reprinting
import SystemVerilog.Proofs.Lexing.Spelled
import SystemVerilog.Proofs.Ranges.Tiling

/-!
# Trees account for their source

The ranges of a source unit fit its tokens: every node is exact, the items tile the tokens, and so do the
items of every module body. The text of the source is the texts of its items with nothing but blanks and
comments around them.
-/

namespace SystemVerilog

open SystemVerilog.Parser

/-! ### Blanks and comments -/

/-- The text of one comment. -/
def IsComment (cs : List Char) : Prop := ∃ kind, scanComment cs = .ok (some (kind, cs.length))

/-- Only blanks and comments. -/
inductive Filler : List Char → Prop
  | nil : Filler []
  | blank {c : Char} {cs : List Char} : isBlank c = true → Filler cs → Filler (c :: cs)
  | comment {text cs : List Char} : IsComment text → Filler cs → Filler (text ++ cs)

namespace Filler

variable {g g' : List Char}

theorem append (h : Filler g) (h' : Filler g') : Filler (g ++ g') := by
  induction h with
  | nil => exact h'
  | blank hc _ ih => exact .blank hc ih
  | @comment text cs htext _ ih =>
    rw [List.append_assoc]
    exact .comment htext ih

theorem of_blank (h : Blank g) : Filler g := by
  induction g with
  | nil => exact .nil
  | cons c g ih => exact .blank (h c (List.mem_cons_self ..)) (ih fun d hd => h d (List.mem_cons_of_mem c hd))

theorem of_comment {l : Lexeme} (hscan : l.Scans) (hl : l.kind.isComment = true) : Filler l.text.toList := by
  obtain ⟨c, cs, htext, -, hlead⟩ := hscan
  have hfound := scanLexeme_eq_ok.1 hlead
  rw [List.append_nil] at hfound
  have hcomment : IsComment l.text.toList := by
    rw [htext]
    rcases scanText_eq_some hfound with h | h | h | h | h | h
    · exact ⟨l.kind, h⟩
    · rw [scanString_kind h] at hl
      cases hl
    · rw [scanNumber_kind h] at hl
      cases hl
    · rw [scanDirective_kind h] at hl
      cases hl
    · have hop := scanOperator_kind h
      cases hkind : l.kind <;> simp_all [TokenKind.isComment, TokenKind.isOperator]
    · rw [scanWord_kind h, TokenKind.ofWord] at hl
      split at hl <;> cases hl
  have hfiller := Filler.comment hcomment .nil
  rwa [List.append_nil] at hfiller

end Filler

namespace Laid

variable {gap : List Char → Prop} {offset : Nat} {ts us vs : List Token} {cs g : List Char}

/-- What stands before a layout belongs to its first gap. -/
theorem filled (hg : Filler g) (h : Laid Filler (offset + byteLength g) ts cs) :
    Laid Filler offset ts (g ++ cs) := by
  cases h with
  | done hg' => exact .done (hg.append hg')
  | @next _ g' cs t ts hg' hoffset hne hlaid =>
    rw [← List.append_assoc]
    refine .next (hg.append hg') ?_ hne hlaid
    rw [hoffset, byteLength_append, Nat.add_assoc]

/-- Without its comments, a text is laid out with blanks and comments in the gaps. -/
theorem uncommented (h : Laid Blank offset ts cs) (hscans : ∀ t ∈ ts, t.toLexeme.Scans) :
    Laid Filler offset (ts.filter fun t => !t.kind.isComment) cs := by
  induction h with
  | done hg => exact .done (.of_blank hg)
  | @next offset g cs t ts hg hoffset hne hlaid ih =>
    obtain ⟨hscan, hrest⟩ := List.forall_mem_cons.1 hscans
    have htail := ih hrest
    by_cases ht : t.kind.isComment = true
    · rw [List.filter_cons_of_neg (by simp [ht]), ← List.append_assoc]
      refine filled ((Filler.of_blank hg).append (.of_comment hscan ht)) ?_
      have hend : offset + byteLength (g ++ t.text.toList) = t.endOffset := by
        rw [endOffset_eq, hoffset, byteLength_append, Nat.add_assoc]
      rw [hend]
      exact htail
    · rw [List.filter_cons_of_pos (by simp [ht])]
      exact .next (.of_blank hg) hoffset hne htail

end Laid

/-! ### Texts of nodes -/

/-- A part of a text is found by its offsets. -/
theorem Source.slice_of_chars {source : Source} {left mid right : List Char}
    (h : source.chars = left ++ (mid ++ right)) :
    (source.slice (byteLength left) (byteLength left + byteLength mid)).toList = mid := by
  rw [slice, byteSlice, if_pos (Nat.le_add_right _ _), h, dropBytes_byteLength_append, Option.bind_some,
    Nat.add_sub_cancel_left, takeBytes_byteLength_append, Option.getD_some, String.toList_ofList]

/-- The text of a range of tokens runs from the first of them to the last. -/
theorem SourceUnit.textOf_eq_slice {unit : SourceUnit} {range : TokenRange} {first last : Token}
    (hlt : range.start < range.stop) (hfirst : unit.tokens[range.start]? = some first)
    (hlast : unit.tokens[range.stop - 1]? = some last) :
    unit.textOf range = unit.source.slice first.offset last.endOffset := by
  have hnonempty : range.isEmpty = false := by
    have hpos : range.length ≠ 0 := Nat.sub_ne_zero_of_lt hlt
    simpa [TokenRange.isEmpty] using hpos
  rw [textOf, hnonempty, hfirst, hlast]
  rfl

section Woven

variable {unit : SourceUnit} {ts : List Token} {mark : Token} {offset : Nat} {before cs : List Char}

/-- The first exact node over the rest of the tokens covers a part of the rest of the text. -/
theorem SourceUnit.textOf_covered (htokens : unit.tokens = ts ++ [mark]) {o : Outline} (ho : o.Exact ts)
    (hbefore : byteLength before = offset) (hchars : unit.source.chars = before ++ cs)
    (hlaid : Laid Filler offset (ts.drop o.start) cs) : ∃ g mid rest, cs = g ++ (mid ++ rest) ∧ Filler g ∧
      (unit.textOf o.site.range).toList = mid ∧
      Laid Filler (byteLength (before ++ g ++ mid)) (ts.drop o.stop) rest := by
  have hlt : o.start < o.stop := ho.nonempty
  have hle : o.stop ≤ ts.length := ho.stop_le
  obtain ⟨first, hfirst⟩ : ∃ first, ts[o.start]? = some first :=
    ⟨_, List.getElem?_eq_getElem (Nat.lt_of_lt_of_le hlt hle)⟩
  obtain ⟨last, hlast⟩ : ∃ last, ts[o.stop - 1]? = some last := ⟨_, List.getElem?_eq_getElem (by omega)⟩
  have hlength : 0 < o.stop - o.start := by omega
  have hhead : ((ts.drop o.start).take (o.stop - o.start)).head? = some first := by
    rw [List.head?_take, if_neg (by omega), List.head?_drop, hfirst]
  have hend : ((ts.drop o.start).take (o.stop - o.start)).getLast? = some last := by
    have hindex : o.start + (o.stop - o.start - 1) = o.stop - 1 := by omega
    rw [List.getLast?_take, if_neg (by omega), List.getElem?_drop, hindex, hlast, Option.some_or]
  rw [← List.take_append_drop (o.stop - o.start) (ts.drop o.start), List.drop_drop,
    Nat.add_sub_cancel' (Nat.le_of_lt hlt)] at hlaid
  obtain ⟨g, mid, rest, rfl, hg, hoffset, hstop, -, hmore⟩ := hlaid.covered .nil hhead hend
  have hleft : first.offset = byteLength (before ++ g) := by rw [byteLength_append, hbefore, hoffset]
  have hright : last.endOffset = byteLength (before ++ g) + byteLength mid := by rw [hstop, hleft]
  refine ⟨g, mid, rest, rfl, hg, ?_, ?_⟩
  · have hget {i : Nat} {t : Token} (h : ts[i]? = some t) : unit.tokens[i]? = some t := by
      obtain ⟨hi, -⟩ := List.getElem?_eq_some_iff.1 h
      rw [htokens, List.getElem?_append_left hi, h]
    have hstart : unit.tokens[o.site.range.start]? = some first := hget hfirst
    have hfinish : unit.tokens[o.site.range.stop - 1]? = some last := hget hlast
    rw [textOf_eq_slice hlt hstart hfinish, hleft, hright]
    exact Source.slice_of_chars (by rw [hchars, List.append_assoc])
  · rw [byteLength_append, ← hright]
    exact hmore

/-- Where nodes tile the rest of the tokens, their texts make up the rest of the text. -/
theorem SourceUnit.woven_of_tiles (htokens : unit.tokens = ts ++ [mark]) {os : List Outline} {a : Nat}
    (htiles : Tiles a ts.length os) (hexact : ∀ o ∈ os, o.Exact ts) (hbefore : byteLength before = offset)
    (hchars : unit.source.chars = before ++ cs) (hlaid : Laid Filler offset (ts.drop a) cs) :
    ∃ gaps last, gaps.length = os.length ∧ (∀ g ∈ gaps, Filler g) ∧ Filler last ∧
      cs = (List.zipWith (fun g o => g ++ (unit.textOf o.site.range).toList) gaps os).flatten ++ last := by
  induction os generalizing a offset before cs with
  | nil =>
    obtain rfl : a = ts.length := htiles
    rw [List.drop_length] at hlaid
    cases hlaid with
    | done hg => exact ⟨[], cs, rfl, by simp, hg, by simp⟩
  | cons o os ih =>
    obtain ⟨rfl, hrest⟩ := htiles
    obtain ⟨ho, hos⟩ := List.forall_mem_cons.1 hexact
    obtain ⟨g, mid, rest, rfl, hg, htext, hmore⟩ := textOf_covered htokens ho hbefore hchars hlaid
    obtain ⟨gaps, last, hlength, hgaps, hlast, rfl⟩ :=
      ih hrest hos rfl (show unit.source.chars = before ++ g ++ mid ++ rest by simp [hchars]) hmore
    exact ⟨g :: gaps, last, by simp [hlength], List.forall_mem_cons.2 ⟨hg, hgaps⟩, hlast, by simp [htext]⟩

end Woven

/-! ### Whole sources -/

/-- The tokens that the items of a unit are read from. -/
def SourceUnit.code (unit : SourceUnit) : List Token := unit.tokens.filter fun t => t.kind != .eof

/-- How the tree of a unit fits its tokens and its text. -/
structure SourceUnit.Ranged (unit : SourceUnit) (depth : Depth) : Prop where
  /-- Every node covers some tokens, starts where its location says, and holds its children apart. -/
  exact : ∀ i ∈ unit.items, i.outline.Exact unit.code
  tiled : Tiles 0 unit.code.length (unit.items.map Item.outline)
  bodies : depth = .bodies → ∀ m ∈ unit.modules, ∃ first closing, BodyTiled unit.tokens m first closing
  /-- The text is the texts of the items with blanks and comments around them. -/
  woven : ∃ gaps last, gaps.length = unit.items.length ∧ (∀ g ∈ gaps, Filler g) ∧ Filler last ∧
    unit.source.chars =
      (List.zipWith (fun g i => g ++ (unit.nodeText i.tag).toList) gaps unit.items).flatten ++ last

theorem SourceUnit.code_ofTokens {source : Source} {ts : List Token} {mark : Token} (hmark : mark.kind = .eof)
    (heof : ∀ t ∈ ts, t.kind ≠ .eof) (is : List (Item Site)) :
    SourceUnit.code ⟨Arena.ofTokens source (ts ++ [mark]), is⟩ = uncommented ts :=
  Arena.front_ofTokens hmark heof

theorem Item.site_outline (i : Item Site) : i.outline.site = i.tag := by
  cases i <;> rfl

/-- What is read of the tokens of a source is ranged. -/
theorem Arena.ranged_of_read {source : Source} {tokens : List Token} {depth : Depth} {unit : SourceUnit}
    (htokens : source.tokens = .ok tokens)
    (hread : ((Arena.ofTokens source tokens).read depth).result = .ok unit) : unit.Ranged depth := by
  obtain ⟨front, rfl, hlaid, heof, -⟩ := tokens_eq_ok htokens
  obtain ⟨-, hscans⟩ := Source.scans_of_mem_tokens htokens
  -- the tokens without comments, in front of the end mark
  let ts := uncommented front
  have hmark : source.endMark.kind = .eof := rfl
  have harena : (ofTokens source (front ++ [source.endMark])).tokens = ts ++ [source.endMark] :=
    tokens_ofTokens hmark
  unfold Arena.read at hread
  split at hread
  · rename_i found c' notices hitems
    cases hread
    have hgives : Reader.Gives (items depth) (Cursor.root (ofTokens source (front ++ [source.endMark])).tokens)
        found c' := ⟨[], notices, hitems⟩
    generalize hroot : Cursor.root (ofTokens source (front ++ [source.endMark])).tokens = root at hgives
    have hafter : root.after = ts := by
      rw [← hroot]
      exact Cursor.root_after harena hmark
    have hposition : root.position = 0 := by
      rw [← hroot]
      rfl
    have hsees : root.Sees ts := by
      rw [← hafter, ← hroot]
      exact Cursor.sees_root _
    have hchain : Chain (Reader.Gives (item depth)) root found c' := chain_of_untilEnd hgives
    have hexact : ∀ i ∈ found, i.outline.Exact ts := by
      intro i hi
      obtain ⟨n, c₁, hread⟩ := hchain.exists_of_mem (fun _ => .item depth) hsees hi
      exact (Forms.item depth (hsees.skip n) hread).exact
    have htiles : Tiles 0 ts.length (found.map Item.outline) := by
      obtain ⟨n, hmoved⟩ := hchain.moved (fun _ => .item depth) hsees
      have hend : c'.position = ts.length := by
        rw [Cursor.position_of_after_eq_nil hchain.after_eq_nil, hmoved, Cursor.finish_skip, Cursor.finish,
          hposition, hafter, Nat.zero_add]
      rw [← hposition, ← hend]
      exact hchain.tiles (fun _ => .item depth) hsees
    let unit : SourceUnit := ⟨ofTokens source (front ++ [source.endMark]), found⟩
    have hcode : unit.code = ts := SourceUnit.code_ofTokens hmark heof found
    constructor
    case exact => rwa [hcode]
    case tiled => rwa [hcode]
    case bodies =>
      rintro rfl m hm
      obtain ⟨i, hi, him⟩ := List.mem_filterMap.1 hm
      cases i with
      | design m' =>
        obtain rfl := Option.some.inj him
        obtain ⟨n, c₁, hread⟩ := hchain.exists_of_mem (fun _ => .item .bodies) hsees hi
        exact bodyTiled_of_moduleItem harena hmark (by rw [hroot]) (moduleItem_of_item hread)
      | directive d => cases him
    case woven =>
      have hfiller : Laid Filler 0 (ts.drop 0) source.chars := hlaid.uncommented hscans
      obtain ⟨gaps, last, hlength, hgaps, hlast, hwoven⟩ :=
        SourceUnit.woven_of_tiles (show unit.tokens = ts ++ [source.endMark] from harena) htiles
          (List.forall_mem_map.2 hexact) byteLength_nil (show unit.source.chars = [] ++ source.chars from rfl) hfiller
      refine ⟨gaps, last, by rw [hlength, List.length_map], hgaps, hlast, ?_⟩
      rw [List.zipWith_map_right] at hwoven
      simp only [Item.site_outline] at hwoven
      exact hwoven
  · cases hread

/-- The tree of every text that is read fits its tokens and its text. -/
theorem readText_ranged {text : String} {options : ReadOptions} {unit : SourceUnit}
    (h : (readText text options).result = .ok unit) : unit.Ranged options.depth := by
  obtain ⟨tokens, htokens, hread⟩ := readText_eq_ok h
  exact Arena.ranged_of_read htokens hread

/-- A module between comments, with a label behind it. -/
theorem readText_ranged_module :
    let text := "// m\nmodule m(input a); wire w; ;\nendmodule : m /* end */"
    ∃ unit, (readText text {}).result = .ok unit ∧ unit.items.map (fun i => i.tag.range) = [⟨0, 14⟩] ∧
      unit.Ranged .bodies := by
  intro text
  have hread : ((readText text {}).result.toOption.map fun unit => unit.items.map fun i => i.tag.range) =
      some [⟨0, 14⟩] := by decide +kernel
  cases hresult : (readText text {}).result with
  | error e =>
    rw [hresult] at hread
    cases hread
  | ok unit =>
    rw [hresult] at hread
    exact ⟨unit, rfl, Option.some.inj hread, readText_ranged hresult⟩

end SystemVerilog
