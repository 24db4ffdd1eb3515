import SystemVerilog.Proofs.Faults.Contexts
import SystemVerilog.Proofs.Findings.Items
import SystemVerilog.Proofs.Narrowing.Items

/-!
# Reading is stable under narrowing

A context is a part of all tokens with a place in it. What an expression, a statement or a body item is read as
depends on the tokens up to its end only: with the part ended there, or anywhere between there and its old end, the
same node is read with the same ranges and locations, and the cursor stops at the same index. That is why a part
can be read on its own once its end has been found. An item reports the same findings, too.
-/

namespace SystemVerilog

/-- A context that ends earlier is a cut of the longer one. -/
theorem Cursor.context_cut {tokens : List Token} {start cursor stop stop' : Nat} (hcursor : cursor ≤ stop')
    (hstop : stop' ≤ stop) :
    (context tokens start cursor stop).cut (stop' - cursor) = context tokens start cursor stop' := by
  have hafter : ((tokens.take stop).drop cursor).take (stop' - cursor) = (tokens.take stop').drop cursor := by
    rw [List.take_drop, List.take_take, Nat.add_sub_cancel' hcursor, Nat.min_eq_left hstop]
  rw [cut, context, hafter]
  rfl

section Generic

variable {m : Type → Type} [Monad m] [MonadStateOf Cursor m] [MonadLiftT Parser m] [Reader m] {α : Type}

/-- Wherever the reader gives a value in a context, it has read some tokens, up to an index `k`, and gives the same
value up to the same index in every context that starts alike and ends between `k` and the old end. -/
def StableUnderNarrowing (p : m α) : Prop :=
  ∀ ⦃tokens start cursor stop a c'⦄, start ≤ cursor → cursor ≤ stop → stop ≤ tokens.length →
    Reader.Gives p (.context tokens start cursor stop) a c' →
      ∃ k, cursor < k ∧ k ≤ stop ∧ c' = .context tokens start k stop ∧
        ∀ stop', k ≤ stop' → stop' ≤ stop →
          Reader.Yields p (.context tokens start cursor stop') a (.context tokens start k stop')

theorem StableUnderNarrowing.of_narrowsAt {p : m α} (h : ∀ bound c, NarrowsAt bound 1 c p p) :
    StableUnderNarrowing p := by
  intro tokens start cursor stop a c' hstart hcursor hstop hread
  have hlength : (Cursor.context tokens start cursor stop).after.length = stop - cursor := by
    rw [Cursor.context, List.length_drop, List.length_take, Nat.min_eq_left hstop]
  obtain ⟨n, hn, hlen, rfl, hq⟩ := h (stop - cursor) _ hread
  rw [hlength] at hlen hq
  have hskip {stop' : Nat} (hend : cursor + n ≤ stop') (hle : stop' ≤ stop) :
      (Cursor.context tokens start cursor stop').skip n = .context tokens start (cursor + n) stop' := by
    rw [Cursor.context_skip hstart (by omega) (by omega), Nat.min_eq_left hend]
  refine ⟨cursor + n, by omega, by omega, hskip (by omega) (Nat.le_refl stop), fun stop' hk hle => ?_⟩
  have hcut := hq (stop' - cursor) (by omega) (by omega) (by omega)
  rwa [Cursor.context_cut (by omega) hle, hskip hk hle] at hcut

end Generic

/-- Expressions, statements and body items are read alike from every part that ends behind them. -/
theorem narrowing_stable :
    StableUnderNarrowing Parser.expression ∧ StableUnderNarrowing Parser.statement ∧
      StableUnderNarrowing bodyItem :=
  ⟨.of_narrowsAt fun _ _ => .expression, .of_narrowsAt fun _ _ => .statement, .of_narrowsAt fun _ _ => .bodyItem⟩

/-! ### Findings -/

/-- What is reported while an item is read follows from the item: its directives stand one behind the other, so
there is one order for them. A narrower part cannot change it. -/
theorem findings_unique {source : Source} {ts : List Token} {item : BodyItem Site} {c₁ c₂ c₁' c₂' : Cursor}
    {ns ns₁ ns₂ : List Notice} (hc₁ : c₁.Sees ts) (hc₂ : c₂.Sees ts) (h₁ : bodyItem.Runs c₁ ns item c₁' ns₁)
    (h₂ : bodyItem.Runs c₂ ns item c₂' ns₂) :
    Diagnostic.ofNotices source ns₁ = Diagnostic.ofNotices source ns₂ := by
  obtain ⟨ds₁, hcross₁, hfound₁, hperm₁⟩ := @Reports.bodyItem ts source c₁ hc₁ _ _ _ _ h₁
  obtain ⟨ds₂, hcross₂, hfound₂, hperm₂⟩ := @Reports.bodyItem ts source c₂ hc₂ _ _ _ _ h₂
  have hordered₁ := List.pairwise_map.1 hcross₁.advance.row.ordered
  have hordered₂ := List.pairwise_map.1 hcross₂.advance.row.ordered
  have hsame : ds₁ = ds₂ := by
    refine List.Perm.eq_of_pairwise (fun d d' hd hd' hle hle' => ?_) hordered₁ hordered₂ (hperm₁.trans hperm₂.symm)
    have hlt := (hcross₁.advance.row.exact _ (List.mem_map_of_mem hd)).nonempty
    have hlt' := (hcross₂.advance.row.exact _ (List.mem_map_of_mem hd')).nonempty
    omega
  rw [hfound₁, hfound₂, hsame]

end SystemVerilog
