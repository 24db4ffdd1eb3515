import SystemVerilog.Proofs.Module.Generate
import SystemVerilog.Proofs.Module.Headers

/-!
# Every canonical source is read

A module is isolated by its closing word, its header is read up to the semicolon and its body to the end of
the span. Modules and directives follow one another up to the end of the source.
-/

namespace SystemVerilog

open SystemVerilog.Parser

section Sources

variable {c c' : Cursor} {ts : List Token}

theorem Item.Spells.starts {α : Type} {i : Item α} (h : i.Spells ts) : StartsItem ts := by
  cases i with
  | design m =>
    obtain ⟨k, n, ps, qs, s, us, e, ls, rfl, hk, -⟩ := h
    exact .of_word hk (by decide)
  | directive d =>
    obtain ⟨t, us, rfl, ht, -⟩ := h
    exact .of_kind ht (by decide) (by decide)

/-- The body of a module is read to the end of the span. -/
theorem moduleBody_complete {is : List (BodyItem Unit)} (hs : c.Steps ts c') (hspell : BodyItem.SpellsAll is ts)
    (hcan : BodyItem.CanonicalAll is) (hfaithful : ∀ t ∈ ts, t.Faithful) (hend : c'.after = []) :
    Records (moduleBody .bodies) (List.map (BodyItem.map fun _ => ())) c is c' := by
  have hcan := BodyItem.canonicalAll_iff.1 hcan
  exact untilEnd_reads hs (BodyItem.spellsAll_iff.1 hspell) hend (fun i hi _ h => h.starts (hcan i hi))
    (fun i hi _ _ _ hspell hsub hs _ hnext =>
      bodyItem_complete hs hspell (hcan i hi) (fun t h => hfaithful t (hsub h)) hnext) (Nat.lt_succ_self _)

theorem moduleItem_complete {m : Module Unit} (hs : c.Steps ts c') (hspell : m.Spells ts)
    (hcan : m.Canonical) (hfaithful : ∀ t ∈ ts, t.Faithful) (hnext : FollowsItem c'.after) :
    Records (moduleItem .bodies) (Module.map fun _ => ()) c m c' := by
  obtain ⟨k, n, ps, qs, s, us, e, ls, rfl, hk, hn, hname, hps, hqs, hsemicolon, hus, he, hls⟩ := hspell
  have hbody : ∀ t ∈ us, t.Faithful := fun t h => hfaithful t (by simp [h])
  obtain ⟨c₁, hs₁, hs₂⟩ := hs.of_append
  have hskip : SkipsScopes (n :: (ps ++ (qs ++ s :: us))) :=
    .cons (.of_calm (.of_isName hn)) <|
      .append (.of_calm (hps.calm hcan.params fun t h => hfaithful t (by simp [h]))) <|
        .append (.of_calm (hqs.calm hcan.ports fun t h => hfaithful t (by simp [h]))) <|
          .cons (.of_semicolon hsemicolon) (hus.skips hcan.body hbody)
  have hdistance := closerDistance_of_pair hs₁ (by rw [hk]; rfl : k.kind.inFamily (.word .kwModule) = true)
    (by rw [he]; rfl : e.kind.inFamily (.word .kwEndModule) = true) (by rw [he]; rfl) hskip.modules
  have hspan : c.Steps ((k :: n :: (ps ++ (qs ++ s :: us))) ++ [e]) c₁ := by simpa using hs₁
  -- The header and the body stand in the span before the closing word, one behind the other.
  obtain ⟨c₂, hs₃, hend⟩ := hspan.ahead
  have happend : k :: n :: (ps ++ (qs ++ s :: us)) = (k :: n :: (ps ++ (qs ++ [s]))) ++ us := by simp
  have hs₃ : (c.ahead ((n :: (ps ++ (qs ++ s :: us))).length + 1)).Steps
      ((k :: n :: (ps ++ (qs ++ [s]))) ++ us) c₂ := happend ▸ hs₃
  obtain ⟨c₃, hs₄, hs₅⟩ := hs₃.of_append
  obtain ⟨header, hheader, hname', hparams, hports⟩ := moduleHeader_complete hs₄ hk hn hname hps hqs
    hsemicolon hcan fun t h => hfaithful t (by
      rcases List.mem_append.1 h with h | h <;> simp [h])
  obtain ⟨body, hread, hmap⟩ := moduleBody_complete hs₅ hus hcan.body hbody hend
  have hskipped : c₁ = c.skip ((n :: (ps ++ (qs ++ s :: us))).length + 1 + 1) := by
    rw [hs₁.eq_skip, List.length_cons, List.length_append, List.length_singleton]
  have hlabel : endLabel (some header.name) c₁ = .ok ((), c') :=
    endLabel_of_spells hs₂ (hls.imp id fun h => ⟨nofun, hname' ▸ h⟩) fun t us h => (hnext t us h).1
  rw [hskipped] at hlabel
  refine ⟨_, yields_moduleItem hdistance hheader hread hlabel, ?_⟩
  show Module.mk () header.name (header.params.map (ParameterGroup.map fun _ => ()))
    (header.ports.map fun _ => ()) (body.map (BodyItem.map fun _ => ())) = m
  rw [hname', hparams, hports, hmap]

theorem item_complete {i : Item Unit} (hs : c.Steps ts c') (hspell : i.Spells ts) (hcan : i.Canonical)
    (hfaithful : ∀ t ∈ ts, t.Faithful) (hnext : FollowsItem c'.after) :
    Records (item .bodies) Item.erase c i c' := by
  cases i with
  | design m =>
    obtain ⟨m', hread, rfl⟩ := moduleItem_complete hs hspell hcan hfaithful hnext
    obtain ⟨k, n, ps, qs, s, us, e, ls, rfl, hk, -⟩ := hspell
    exact ⟨.design m', yields_item_design (Cursor.check_of_after hs.after hk) hread, rfl⟩
  | directive d =>
    obtain ⟨d', hread, rfl⟩ := directive_complete hs hspell hcan
    obtain ⟨t, us, rfl, ht, -⟩ := hspell
    exact ⟨.directive d', yields_item_directive (Cursor.check_of_after hs.after ht) hread, rfl⟩

/-- Tokens that spell canonical items are read as these items. -/
theorem items_complete {is : List (Item Unit)} (hs : c.Steps ts c') (hspell : SpellsEach Item.Spells is ts)
    (hcan : ∀ i ∈ is, i.Canonical) (hfaithful : ∀ t ∈ ts, t.Faithful) (hend : c'.after = []) :
    Records (items .bodies) (List.map Item.erase) c is c' :=
  untilEnd_reads hs hspell hend (fun _ _ _ h => h.starts) (fun i hi _ _ _ hspell hsub hs _ hnext =>
    item_complete hs hspell (hcan i hi) (fun t h => hfaithful t (hsub h)) hnext) (Nat.lt_succ_self _)

end Sources

end SystemVerilog
