import SystemVerilog.Proofs.Ranges.Items
import SystemVerilog.Proofs.Reading.Units

/-!
# Items tile the tokens

The elements that are read up to the end of a span follow each other without a gap. So the items of a
source tile its tokens, and the items of a module body those between the header and the closing word.
-/

namespace SystemVerilog

open SystemVerilog.Parser

/-- Outlines that follow each other from the place `a` to the place `b` without a gap or an overlap. -/
def Tiles (a b : Nat) : List Outline → Prop
  | [] => a = b
  | o :: os => o.start = a ∧ Tiles o.stop b os

/-! ### Elements up to the end -/

section Chain

variable {m : Type → Type} [Monad m] [MonadStateOf Cursor m] [MonadLiftT Parser m] [Reader m]
  {α : Type} {p : m α} {c c' : Cursor} {as : List α}

namespace Chain

variable {ts : List Token} {out : α → Outline}

theorem moved (hp : ∀ c, Forms ts c p out) (hc : c.Sees ts) (h : Chain (Reader.Gives p) c as c') :
    ∃ n, c' = c.skip n := by
  induction h with
  | done => exact ⟨0, rfl⟩
  | next _ ha _ ih =>
    have hspans := hp _ hc ha
    obtain ⟨m, rfl⟩ := hspans.moved
    obtain ⟨n, rfl⟩ := ih (hspans.advance.sees hc)
    exact ⟨m + n, Cursor.skip_skip m n _⟩

/-- Elements that are nodes tile what is read. -/
theorem tiles (hp : ∀ c, Forms ts c p out) (hc : c.Sees ts) (h : Chain (Reader.Gives p) c as c') :
    Tiles c.position c'.position (as.map out) := by
  induction h with
  | done => exact rfl
  | next _ ha _ ih =>
    have hspans := hp _ hc ha
    refine ⟨hspans.start, ?_⟩
    rw [hspans.stop]
    exact ih (hspans.advance.sees hc)

/-- Every element is read at some place of the span. -/
theorem exists_of_mem (hp : ∀ c, Forms ts c p out) (hc : c.Sees ts) (h : Chain (Reader.Gives p) c as c') {a : α}
    (ha : a ∈ as) : ∃ n c₁, Reader.Gives p (c.skip n) a c₁ := by
  induction h with
  | done => cases ha
  | @next c c₁ c' b as _ hb _ ih =>
    rcases List.mem_cons.1 ha with rfl | hmem
    · exact ⟨0, c₁, hb⟩
    · have hspans := hp _ hc hb
      obtain ⟨m, rfl⟩ := hspans.moved
      obtain ⟨n, c₂, hread⟩ := ih (hspans.advance.sees hc) hmem
      refine ⟨m + n, c₂, ?_⟩
      rwa [← Cursor.skip_skip]

end Chain

end Chain

/-! ### Module bodies -/

variable {ts : List Token} {c c' : Cursor}

namespace Cursor

theorem skip_min (n : Nat) (c : Cursor) : c.skip (min n c.after.length) = c.skip n := by
  fun_induction skip n c <;> simp_all [skip, Nat.succ_min_succ]

theorem finish_skip (n : Nat) (c : Cursor) : (c.skip n).finish = c.finish := by
  rw [finish, finish, position_skip, skip_after, List.length_drop]
  omega

theorem position_of_after_eq_nil (h : c.after = []) : c.position = c.finish := by
  rw [finish, h, List.length_nil, Nat.add_zero]

end Cursor

/-- The semicolon behind a header is the token read last. -/
theorem moduleHeader_inv {header : ModuleHeader} (hc : c.Sees ts)
    (h : Parser.moduleHeader c = .ok (header, c')) :
    ∃ c₁, Advance ts c c₁ header.outlines ∧ c'.position = c₁.position + 1 ∧
      ts[c₁.position]?.map (fun t => t.kind) = some (.op .semicolon) := by
  obtain ⟨word, c₁, hword, h₁⟩ := bind_eq_ok.1 h
  obtain ⟨name, c₂, hname, h₂⟩ := bind_eq_ok.1 h₁
  obtain ⟨params, c₃, hparams, h₃⟩ := bind_eq_ok.1 h₂
  obtain ⟨ports, c₄, hports, h₄⟩ := bind_eq_ok.1 h₃
  obtain ⟨mark, c₅, hmark, hpure⟩ := bind_eq_ok.1 h₄
  obtain ⟨rfl, rfl⟩ := pure_eq_ok.1 hpure
  have hadvance₁ := (Takes.expect _).lays.advance hc hword
  have hadvance₂ := Takes.name.lays.advance (hadvance₁.sees hc) hname
  have hlead := hadvance₁.trans hadvance₂
  have hadvance₃ := Lays.moduleParameters.advance (hlead.sees hc) hparams
  have hadvance₄ := Lays.modulePorts.advance (hadvance₃.sees (hlead.sees hc)) hports
  have hall : Advance ts c c₄ _ := hlead.trans (hadvance₃.trans hadvance₄)
  obtain ⟨rest, hafter, hkind, rfl⟩ := expectAs_eq_ok.1 hmark
  refine ⟨c₄, hall, ?_, ?_⟩
  · rw [Cursor.position_skip, hafter, List.length_cons]
    omega
  · rw [(hall.sees hc).current hafter, Option.map_some, hkind]

/-- The items of a module body tile the tokens from `first`, which is just behind the semicolon of the
header, to the word at `closing` that closes the module. -/
structure BodyTiled (tokens : List Token) (m : Module Site) (first closing : Nat) : Prop where
  /-- Up to the closing word, the tokens of the module are read as its header first. -/
  header : ∃ c, Parser.moduleHeader
    (((Cursor.root tokens).skip m.tag.range.start).ahead (closing - m.tag.range.start)) =
      .ok (⟨m.name, m.params, m.ports⟩, c) ∧ c.position = first
  semicolon : 0 < first ∧ tokens[first - 1]?.map (fun t => t.kind) = some (.op .semicolon)
  /-- The nodes of the header lie before its semicolon. -/
  before : ∀ o ∈ m.params.map ParameterGroup.outline ++ m.ports.outlines, o.stop < first
  /-- The closing word balances the one that opens the module. -/
  balanced : distanceToCloser? (.word .kwModule) (.word .kwEndModule) 0
    (tokens.drop m.tag.range.start) = some (closing - m.tag.range.start)
  closed : tokens[closing]?.map (fun t => t.kind) = some (.word .kwEndModule)
  nested : m.tag.range.start < first ∧ first ≤ closing ∧ closing < m.tag.range.stop
  tiled : Tiles first closing (m.body.map BodyItem.outline)

section Source

variable {tokens : List Token} {mark : Token}

/-- A cursor that has moved over the tokens of a source is known by its place. -/
theorem Cursor.skip_root (htokens : tokens = ts ++ [mark]) (hmark : mark.kind = .eof) {k : Nat}
    (hc : c = (Cursor.root tokens).skip k) :
    c.after = ts.drop c.position ∧ (Cursor.root tokens).skip c.position = c := by
  have hroot := Cursor.root_after htokens hmark
  have hposition : c.position = min k (Cursor.root tokens).after.length := by
    rw [hc, Cursor.position_skip]
    exact Nat.zero_add _
  have hskip : (Cursor.root tokens).skip c.position = c := by rw [hposition, Cursor.skip_min, hc]
  refine ⟨?_, hskip⟩
  rw [← congrArg Cursor.after hskip, Cursor.skip_after, hroot]

/-- A module among the items is read as a module. -/
theorem moduleItem_of_item {depth : Depth} {m : Module Site}
    (h : Reader.Gives (item depth) c (.design m) c') : Reader.Gives (moduleItem depth) c m c' := by
  rcases item_inv h with ⟨-, m', hm, heq⟩ | ⟨-, d, -, heq⟩
  · cases heq
    exact hm
  · cases heq

theorem bodyTiled_of_moduleItem (htokens : tokens = ts ++ [mark]) (hmark : mark.kind = .eof) {k : Nat}
    {m : Module Site} (hc : c = (Cursor.root tokens).skip k)
    (hread : Reader.Gives (moduleItem .bodies) c m c') :
    ∃ first closing, BodyTiled tokens m first closing := by
  obtain ⟨n, header, c₁, body, c₂, hdistance, hheader, hbody, hlabel, rfl⟩ := moduleItem_inv hread
  obtain ⟨-, -, hn⟩ := closerDistance_inv hdistance
  obtain ⟨hafter, hroot⟩ := Cursor.skip_root htokens hmark hc
  have hsees : c.Sees ts := by
    unfold Cursor.Sees
    exact hafter ▸ List.prefix_refl _
  have hpart : (c.ahead n).Sees ts := hsees.ahead n
  obtain ⟨us, t, vs, hsplit, rfl, hclose, -⟩ := closer_of_distance hn
  have hlength : c.after.length = us.length + (vs.length + 1) := by
    rw [hsplit, List.length_append, List.length_cons]
  have hfinish : (c.ahead us.length).finish = c.position + us.length := by
    rw [Cursor.finish, Cursor.position_ahead, Cursor.ahead_after, List.length_take]
    omega
  have hget (i : Nat) : ts[c.position + i]? = c.after[i]? := by
    rw [hafter, List.getElem?_drop]
  have htoken {i : Nat} {kind : TokenKind} (h : ts[i]?.map (fun t => t.kind) = some kind) :
      tokens[i]?.map (fun t => t.kind) = some kind := by
    obtain ⟨t, ht, hkind⟩ := Option.map_eq_some_iff.1 h
    obtain ⟨hlt, -⟩ := List.getElem?_eq_some_iff.1 ht
    rw [htokens, List.getElem?_append_left hlt, ht, Option.map_some, hkind]
  -- the header, its semicolon, and the body up to the closing word
  obtain ⟨c₃, hbefore, hfirst, hmarked⟩ := moduleHeader_inv hpart hheader
  have hadvance := Lays.moduleHeader.advance hpart hheader
  have hsees₁ : c₁.Sees ts := hadvance.sees hpart
  have hchain : Chain (Reader.Gives bodyItem) c₁ body c₂ := chain_of_untilEnd hbody
  have hend : c₂.position = c.position + us.length := by
    obtain ⟨i, rfl⟩ := hadvance.moved
    obtain ⟨j, rfl⟩ := hchain.moved (fun _ => .bodyItem) hsees₁
    rw [Cursor.position_of_after_eq_nil hchain.after_eq_nil, Cursor.finish_skip, Cursor.finish_skip, hfinish]
  have hlabel' := (Lays.endLabel _).advance (hsees.skip (us.length + 1)) hlabel
  have hstart : c.position ≤ c₃.position := hbefore.position_le
  have hinside : c₁.position ≤ c.position + us.length := hfinish ▸ hadvance.position_le_finish
  have hstop : c.position + us.length < c'.position := by
    have hle := hlabel'.position_le
    rw [Cursor.position_skip] at hle
    omega
  refine ⟨c₁.position, c.position + us.length, ?_⟩
  constructor
  case header =>
    refine ⟨c₁, ?_, rfl⟩
    show moduleHeader (((Cursor.root tokens).skip c.position).ahead (c.position + us.length - c.position)) = _
    rw [hroot, Nat.add_sub_cancel_left]
    exact hheader
  case semicolon =>
    rw [hfirst, Nat.add_sub_cancel]
    exact ⟨Nat.succ_pos _, htoken hmarked⟩
  case before =>
    intro o ho
    have hin := (hbefore.row.inside o ho).2
    omega
  case balanced =>
    show distanceToCloser? _ _ 0 (tokens.drop c.position) = some (c.position + us.length - c.position)
    have hdrop : tokens.drop c.position = c.after ++ [mark] := by
      have hle : c.position ≤ ts.length := by
        have hlen := congrArg List.length hafter
        rw [List.length_drop] at hlen
        omega
      rw [htokens, List.drop_append_of_le_length hle, hafter]
    rw [hdrop, Nat.add_sub_cancel_left]
    exact distanceToCloser?_append hn [mark]
  case closed =>
    refine htoken ?_
    have hkind : t.kind = .word .kwEndModule := by simpa [TokenKind.inFamily] using hclose
    rw [hget, hsplit, List.getElem?_append_right (Nat.le_refl _), Nat.sub_self, List.getElem?_cons_zero,
      Option.map_some, hkind]
  case nested =>
    show c.position < c₁.position ∧ c₁.position ≤ c.position + us.length ∧ c.position + us.length < c'.position
    omega
  case tiled =>
    rw [← hend]
    exact hchain.tiles (fun _ => .bodyItem) hsees₁

end Source

end SystemVerilog
