import Mathlib.Data.List.Flatten
import Mathlib.Data.List.Induction
import SystemVerilog.Tree.Expr

/-!
# A walk comes by every subexpression once

A subexpression is found by its path: which part to take, and which part of that, and so on. A walk lists the
subexpression at every path, and no path twice.
-/

namespace SystemVerilog

namespace Expr

variable {α : Type}

theorem walkAll_eq (es : List (Expr α)) : walkAll es = es.flatMap walk := by
  induction es with
  | nil => rfl
  | cons e es ih => rw [walkAll, ih, List.flatMap_cons]

theorem walk_eq (e : Expr α) : e.walk = e :: e.walk.tail := by
  cases e <;> simp [walk]

/-! ### Parts and paths -/

/-- The immediate subexpressions, in the order of the text. -/
def parts : Expr α → List (Expr α)
  | identifier .. | systemIdentifier .. | literal .. => []
  | unary _ _ operand => [operand]
  | binary _ _ lhs rhs => [lhs, rhs]
  | parenthesis _ inner => [inner]
  | index _ target subscript => [target, subscript]
  | slice _ _ target left right => [target, left, right]
  | conditional _ condition thenExpr elseExpr => [condition, thenExpr, elseExpr]
  | assignment _ _ target value => [target, value]
  | delayedAssignment _ _ target _ magnitude _ value => [target, magnitude, value]
  | concatenation _ items => items
  | replication _ count items => count :: items
  | arrayPattern _ items => items
  | call _ callee _ args => callee :: args
  | member _ target _ => [target]
  | scope _ outer _ => [outer]

/-- The subexpression at a path. -/
def at? : List Nat → Expr α → Option (Expr α)
  | [], e => some e
  | i :: path, e => e.parts[i]?.bind (at? path)

/-- The subexpression at a path that starts in one of some expressions. -/
def among? (es : List (Expr α)) : List Nat → Option (Expr α)
  | [] => none
  | i :: path => es[i]?.bind (at? path)

/-- A walk visits an expression first, and then walks its parts. -/
theorem walk_eq_cons_parts (e : Expr α) : e.walk = e :: e.parts.flatMap walk := by
  cases e <;> simp [walk, parts, walkAll_eq]

theorem length_walk_lt {e part : Expr α} (h : part ∈ e.parts) : part.walk.length < e.walk.length := by
  rw [walk_eq_cons_parts e, List.length_cons, List.length_flatMap]
  obtain ⟨before, behind, hsplit⟩ := List.append_of_mem h
  rw [hsplit, List.map_append, List.map_cons, List.sum_append, List.sum_cons]
  omega

/-- What holds of an expression when it holds of its parts, holds of every expression. -/
theorem induction_on_parts {motive : Expr α → Prop} (h : ∀ e, (∀ part ∈ e.parts, motive part) → motive e)
    (e : Expr α) : motive e :=
  h e fun part _ => induction_on_parts h part
termination_by e.walk.length
decreasing_by exact length_walk_lt ‹_›

/-- The walk of a subexpression is within the walk of the whole. -/
theorem walk_sublist {e x : Expr α} (h : x ∈ e.walk) : x.walk.Sublist e.walk := by
  induction e using induction_on_parts with
  | _ e ih =>
    rw [walk_eq_cons_parts] at h
    rcases List.mem_cons.1 h with rfl | h
    · exact .refl _
    · obtain ⟨part, hpart, hx⟩ := List.mem_flatMap.1 h
      have hwalk : part.walk.Sublist (e.parts.flatMap walk) := by
        simpa using (List.singleton_sublist.2 hpart).flatMap walk
      rw [walk_eq_cons_parts e]
      exact .cons _ ((ih part hpart hx).trans hwalk)

/-! ### Enumerations -/

/-- The paths lead to the expressions, one by one and in this order, and no other path leads anywhere. -/
structure Enumerates (find : List Nat → Option (Expr α)) (paths : List (List Nat)) (es : List (Expr α)) :
    Prop where
  nodup : paths.Nodup
  found : paths.map find = es.map some
  complete : ∀ path, (find path).isSome → path ∈ paths

theorem Enumerates.isSome {find : List Nat → Option (Expr α)} {paths : List (List Nat)} {es : List (Expr α)}
    (h : Enumerates find paths es) {path : List Nat} (hpath : path ∈ paths) : (find path).isSome := by
  have hmem : find path ∈ es.map some := h.found ▸ List.mem_map_of_mem hpath
  obtain ⟨e, -, he⟩ := List.mem_map.1 hmem
  rw [← he]
  rfl

theorem among?_isSome {es : List (Expr α)} {path : List Nat} (h : (among? es path).isSome) :
    ∃ i rest, path = i :: rest ∧ i < es.length := by
  cases path with
  | nil => cases h
  | cons i rest =>
    refine ⟨i, rest, rfl, Nat.lt_of_not_le fun hle => ?_⟩
    rw [among?, List.getElem?_eq_none hle] at h
    cases h

/-- The paths into some expressions are those into the last one and those into the others. -/
theorem Enumerates.concat {es : List (Expr α)} {e : Expr α} {paths paths' : List (List Nat)}
    (h : Enumerates (among? es) paths (es.flatMap walk)) (he : Enumerates (at? · e) paths' e.walk) :
    Enumerates (among? (es ++ [e])) (paths ++ paths'.map (es.length :: ·)) ((es ++ [e]).flatMap walk) := by
  have hlast (path : List Nat) : among? (es ++ [e]) (es.length :: path) = at? path e := by simp [among?]
  have hfront {i : Nat} (hi : i < es.length) (path : List Nat) :
      among? (es ++ [e]) (i :: path) = among? es (i :: path) := by
    simp [among?, List.getElem?_append_left hi]
  have hbehind : (paths'.map (es.length :: ·)).Nodup :=
    List.Pairwise.map _ (fun _ _ hne heq => hne (List.cons.inj heq).2) he.nodup
  refine ⟨List.nodup_append.2 ⟨h.nodup, hbehind, ?_⟩, ?_, ?_⟩
  · rintro path hpath path' hpath' rfl
    obtain ⟨i, rest, rfl, hi⟩ := among?_isSome (h.isSome hpath)
    obtain ⟨_, -, heq⟩ := List.mem_map.1 hpath'
    exact Nat.ne_of_gt hi (List.cons.inj heq).1
  · rw [List.map_append, List.map_map, List.flatMap_append, List.flatMap_singleton, List.map_append, ← h.found,
      ← he.found]
    congr 1
    · refine List.map_congr_left fun path hpath => ?_
      obtain ⟨i, rest, rfl, hi⟩ := among?_isSome (h.isSome hpath)
      exact hfront hi rest
    · exact List.map_congr_left fun path _ => hlast path
  · intro path hsome
    obtain ⟨i, rest, rfl, hi⟩ := among?_isSome hsome
    rw [List.length_append, List.length_singleton] at hi
    rcases Nat.lt_succ_iff_lt_or_eq.1 hi with hi | rfl
    · rw [hfront hi] at hsome
      exact List.mem_append_left _ (h.complete _ hsome)
    · rw [hlast] at hsome
      exact List.mem_append_right _ (List.mem_map_of_mem (he.complete _ hsome))

theorem exists_paths_among (es : List (Expr α)) (h : ∀ e ∈ es, ∃ paths, Enumerates (at? · e) paths e.walk) :
    ∃ paths, Enumerates (among? es) paths (es.flatMap walk) := by
  induction es using List.reverseRecOn with
  | nil => exact ⟨[], .nil, rfl, fun path hsome => by obtain ⟨i, rest, -, hi⟩ := among?_isSome hsome; cases hi⟩
  | append_singleton es e ih =>
    obtain ⟨paths, hpaths⟩ := ih fun e he => h e (List.mem_append_left _ he)
    obtain ⟨paths', hpaths'⟩ := h e (List.mem_append_right _ (List.mem_singleton_self e))
    exact ⟨_, hpaths.concat hpaths'⟩

/-- A walk comes by the subexpression at every path, and by none twice. -/
theorem exists_paths (e : Expr α) : ∃ paths, Enumerates (at? · e) paths e.walk := by
  induction e using induction_on_parts with
  | _ e ih =>
    obtain ⟨paths, hpaths⟩ := exists_paths_among e.parts ih
    refine ⟨[] :: paths, List.nodup_cons.2 ⟨fun hnil => ?_, hpaths.nodup⟩, ?_, fun path hsome => ?_⟩
    · obtain ⟨i, rest, heq, -⟩ := among?_isSome (hpaths.isSome hnil)
      cases heq
    · rw [walk_eq_cons_parts, List.map_cons, List.map_cons, ← hpaths.found]
      congr 1
      refine List.map_congr_left fun path hpath => ?_
      obtain ⟨i, rest, rfl, -⟩ := among?_isSome (hpaths.isSome hpath)
      rfl
    · cases path with
      | nil => exact List.mem_cons_self ..
      | cons i rest => exact List.mem_cons_of_mem _ (hpaths.complete _ hsome)

end Expr

end SystemVerilog
