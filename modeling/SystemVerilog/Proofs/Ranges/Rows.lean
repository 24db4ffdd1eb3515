import SystemVerilog.Proofs.Reading.Steps
import SystemVerilog.Proofs.Tree.Outline

/-!
# Rows of outlines

A row is a list of exact outlines that lie one behind the other between two places. `Advance ts c c' os`
says that the cursor `c` has moved forward to `c'` over tokens that make the row `os`.
-/

namespace SystemVerilog

variable {ts : List Token} {os os' children : List Outline} {a b b' d : Nat}

/-! ### Rows -/

/-- Exact outlines in order between the places `a` and `b`. -/
structure Row (ts : List Token) (a b : Nat) (os : List Outline) : Prop where
  exact : ∀ o ∈ os, o.Exact ts
  inside : ∀ o ∈ os, a ≤ o.start ∧ o.stop ≤ b
  ordered : os.Pairwise fun o o' => o.stop ≤ o'.start

namespace Row

theorem nil : Row ts a b [] := ⟨by simp, by simp, .nil⟩

theorem one {o : Outline} (h : o.Exact ts) (ha : a ≤ o.start) (hb : o.stop ≤ b) : Row ts a b [o] :=
  ⟨List.forall_mem_singleton.2 h, List.forall_mem_singleton.2 ⟨ha, hb⟩, List.pairwise_singleton _ _⟩

theorem mono (h : Row ts b b' os) (ha : a ≤ b) (hd : b' ≤ d) : Row ts a d os := by
  refine ⟨h.exact, fun o ho => ?_, h.ordered⟩
  obtain ⟨hstart, hstop⟩ := h.inside o ho
  omega

theorem append (h : Row ts a b os) (h' : Row ts b d os') (hab : a ≤ b) (hbd : b ≤ d) :
    Row ts a d (os ++ os') := by
  refine ⟨List.forall_mem_append.2 ⟨h.exact, h'.exact⟩, List.forall_mem_append.2 ⟨fun o ho => ?_,
    fun o ho => ?_⟩, List.pairwise_append.2 ⟨h.ordered, h'.ordered, fun o ho o' ho' => ?_⟩⟩
  · have hin := h.inside o ho
    omega
  · have hin := h'.inside o ho
    omega
  · have hin := h.inside o ho
    have hin' := h'.inside o' ho'
    omega

theorem cons_iff {o : Outline} : Row ts a b (o :: os) ↔
    o.Exact ts ∧ a ≤ o.start ∧ o.stop ≤ b ∧ Row ts o.stop b os := by
  constructor
  · intro h
    have hin := h.inside o (List.mem_cons_self ..)
    obtain ⟨hafter, hordered⟩ := List.pairwise_cons.1 h.ordered
    refine ⟨h.exact o (List.mem_cons_self ..), hin.1, hin.2, fun p hp => h.exact p (List.mem_cons_of_mem o hp),
      fun p hp => ⟨hafter p hp, (h.inside p (List.mem_cons_of_mem o hp)).2⟩, hordered⟩
  · rintro ⟨hexact, ha, hb, hos⟩
    have hlt := hexact.nonempty
    refine ⟨List.forall_mem_cons.2 ⟨hexact, hos.exact⟩, List.forall_mem_cons.2 ⟨⟨ha, hb⟩, fun p hp => ?_⟩,
      List.pairwise_cons.2 ⟨fun p hp => (hos.inside p hp).1, hos.ordered⟩⟩
    have hin := hos.inside p hp
    omega

/-- Two neighbours in a row may be joined to one node. -/
theorem join {o o' : Outline} (h : Row ts a b (o :: o' :: os)) : Row ts a b (o.join o' :: os) := by
  obtain ⟨hexact, ha, -, hrest⟩ := cons_iff.1 h
  obtain ⟨hexact', hle, hb', hos⟩ := cons_iff.1 hrest
  refine cons_iff.2 ⟨hexact.join hexact' hle, ha, hb', hos⟩

/-- A row of outlines may be the children of a node in any order. -/
theorem node {site : Site} (h : Row ts site.range.start site.range.stop os) (hperm : os.Perm children)
    (hnonempty : site.range.start < site.range.stop) (hinside : site.range.stop ≤ ts.length)
    (hlocated : ts[site.range.start]?.map (fun t => t.location) = some site.location) :
    (Outline.node site children).Exact ts := by
  refine .node hnonempty hinside hlocated (fun o ho => h.inside o (hperm.mem_iff.2 ho)) ?_
    fun o ho => h.exact o (hperm.mem_iff.2 ho)
  have hsymm : ∀ {o o' : Outline}, o.Apart o' → o'.Apart o := Or.symm
  exact (hperm.pairwise_iff hsymm).1 (h.ordered.imp fun hlt => .inl hlt)

end Row

/-! ### Cursors over the tokens of a source -/

namespace Cursor

variable {c c' c'' : Cursor}

/-- What is still to read are the tokens from the place of the cursor on, or some of them. -/
def Sees (ts : List Token) (c : Cursor) : Prop := c.after <+: ts.drop c.position

/-- Some list of tokens has those that a cursor has still to read at its place. -/
theorem exists_sees (c : Cursor) : ∃ ts, c.Sees ts := by
  have hdrop : (List.replicate c.position default ++ c.after).drop c.position = c.after :=
    List.drop_left' List.length_replicate
  exact ⟨List.replicate c.position default ++ c.after, [], by rw [List.append_nil, hdrop]⟩

theorem sees_root (tokens : List Token) : (root tokens).Sees (root tokens).after := List.prefix_refl _

theorem position_skip (n : Nat) (c : Cursor) :
    (c.skip n).position = c.position + min n c.after.length := by
  rw [position, position, skip_start, skip_before, List.length_append, List.length_reverse,
    List.length_take]
  omega

theorem Sees.skip (h : c.Sees ts) (n : Nat) : (c.skip n).Sees ts := by
  unfold Sees
  rw [skip_after, position_skip]
  by_cases hn : n ≤ c.after.length
  · obtain ⟨more, hmore⟩ := h
    rw [Nat.min_eq_left hn, ← List.drop_drop, ← hmore, List.drop_append_of_le_length hn]
    exact List.prefix_append _ _
  · rw [List.drop_eq_nil_of_le (by omega)]
    exact List.nil_prefix

theorem Sees.ahead (h : c.Sees ts) (n : Nat) : (c.ahead n).Sees ts := (List.take_prefix n _).trans h

@[simp] theorem position_ahead (c : Cursor) (n : Nat) : (c.ahead n).position = c.position := rfl

/-- The next token is the one of the source that the cursor stands at. -/
theorem Sees.current {t : Token} {rest : List Token} (h : c.Sees ts) (hafter : c.after = t :: rest) :
    ts[c.position]? = some t := by
  obtain ⟨more, hmore⟩ := h
  have hdrop : (ts.drop c.position)[0]? = some t := by rw [← hmore, hafter]; rfl
  rwa [List.getElem?_drop, Nat.add_zero] at hdrop

theorem Sees.finish_le (h : c.Sees ts) (hafter : c.after ≠ []) : c.finish ≤ ts.length := by
  have hlen := h.length_le
  have hpos := List.length_pos_iff.2 hafter
  rw [List.length_drop] at hlen
  unfold finish
  omega

end Cursor

/-! ### Moving forward -/

/-- The cursor `c` has moved forward to `c'`, and the tokens between them make a row. -/
structure Advance (ts : List Token) (c c' : Cursor) (os : List Outline) : Prop where
  moved : ∃ n, c' = c.skip n
  row : Row ts c.position c'.position os

namespace Advance

variable {c c' c'' : Cursor}

theorem refl (c : Cursor) : Advance ts c c [] := ⟨⟨0, rfl⟩, .nil⟩

theorem skip (c : Cursor) (n : Nat) : Advance ts c (c.skip n) [] := ⟨⟨n, rfl⟩, .nil⟩

theorem position_le (h : Advance ts c c' os) : c.position ≤ c'.position := by
  obtain ⟨⟨n, rfl⟩, -⟩ := h
  rw [Cursor.position_skip]
  omega

theorem position_le_finish (h : Advance ts c c' os) : c'.position ≤ c.finish := by
  obtain ⟨⟨n, rfl⟩, -⟩ := h
  rw [Cursor.position_skip, Cursor.finish]
  omega

theorem sees (h : Advance ts c c' os) (hc : c.Sees ts) : c'.Sees ts := by
  obtain ⟨⟨n, rfl⟩, -⟩ := h
  exact hc.skip n

theorem trans (h : Advance ts c c' os) (h' : Advance ts c' c'' os') : Advance ts c c'' (os ++ os') := by
  refine ⟨?_, h.row.append h'.row h.position_le h'.position_le⟩
  obtain ⟨⟨m, rfl⟩, -⟩ := h
  obtain ⟨⟨n, rfl⟩, -⟩ := h'
  exact ⟨m + n, Cursor.skip_skip m n c⟩

/-- Outlines that lie between two cursors, the first of which has moved to the second. -/
theorem of_row {n : Nat} (h : Row ts c.position (c.skip n).position os) : Advance ts c (c.skip n) os :=
  ⟨⟨n, rfl⟩, h⟩

theorem after_ne_nil (h : Advance ts c c' os) (hlt : c.position < c'.position) : c.after ≠ [] := by
  obtain ⟨⟨n, rfl⟩, -⟩ := h
  intro hnil
  rw [Cursor.position_skip, hnil, List.length_nil, Nat.min_zero] at hlt
  omega

/-- What was read since a cursor is a node, if it is anything. -/
theorem node (h : Advance ts c c' os) (hc : c.Sees ts) (hperm : os.Perm children)
    (hlt : c.position < c'.position) :
    (Outline.node ⟨c.location, c'.rangeFrom c.position⟩ children).Exact ts := by
  have hne := h.after_ne_nil hlt
  refine h.row.node hperm hlt (Nat.le_trans h.position_le_finish (hc.finish_le hne)) ?_
  cases hafter : c.after with
  | nil => exact absurd hafter hne
  | cons t rest =>
    show ts[c.position]?.map (fun t => t.location) = some c.location
    rw [hc.current hafter, Cursor.location, hafter]
    rfl

end Advance

end SystemVerilog
