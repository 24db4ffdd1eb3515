import SystemVerilog.Proofs.Statement.Parts

/-!
# Things that follow one another

Statements in a block, items in a region and the items of a case construct stand one behind the other.
Each ends where the next one starts, since none starts with a colon or an `else`, which the one in front
of it would claim. So what reads each of them, a parser or a recorder, reads them all.
-/

namespace SystemVerilog

open SystemVerilog.Parser

/-! ### What follows an item -/

/-- The first token is neither a colon nor an `else`. -/
def StartsItem (ts : List Token) : Prop :=
  ∃ t us, ts = t :: us ∧ t.kind ≠ .op .colon ∧ t.kind ≠ .word .kwElse

/-- What may follow an item: nothing, or what starts an item. -/
def FollowsItem (rest : List Token) : Prop :=
  ∀ t us, rest = t :: us → t.kind ≠ .op .colon ∧ t.kind ≠ .word .kwElse

section Follow

variable {β : Type} {spells : β → List Token → Prop} {ts us rest : List Token} {t : Token}

theorem FollowsItem.nil : FollowsItem [] := fun _ _ h => by cases h

theorem FollowsItem.ne_colon (h : FollowsItem rest) (hrest : rest = t :: us) : t.kind ≠ .op .colon :=
  (h t us hrest).1

theorem StartsItem.follows (h : StartsItem ts) : FollowsItem (ts ++ us) := by
  obtain ⟨t, vs, rfl, ht⟩ := h
  intro t' us' heq
  obtain ⟨rfl, -⟩ := List.cons.inj heq
  exact ht

theorem StartsItem.ne_nil (h : StartsItem ts) : ts ≠ [] := by
  obtain ⟨t, us, rfl, -⟩ := h
  exact List.cons_ne_nil t us

theorem StartsItem.of_kind {kind : TokenKind} (ht : t.kind = kind) (hcolon : kind ≠ .op .colon)
    (helse : kind ≠ .word .kwElse) : StartsItem (t :: us) :=
  ⟨t, us, rfl, ht ▸ hcolon, ht ▸ helse⟩

theorem StartsItem.of_word {k : Keyword} (ht : t.kind = .word k) (hk : k ≠ .kwElse) : StartsItem (t :: us) :=
  .of_kind ht nofun fun h => hk (TokenKind.word.inj h)

theorem StartsItem.of_startsExpression (ht : t.kind.startsExpression = true) : StartsItem (t :: us) := by
  refine ⟨t, us, rfl, fun hk => ?_, TokenKind.startsExpression_ne_word ht rfl⟩
  rw [hk] at ht
  cases ht

theorem SpellsEach.follows {bs : List β} (h : SpellsEach spells bs ts)
    (hstarts : ∀ b ∈ bs, ∀ us, spells b us → StartsItem us) (hrest : FollowsItem rest) :
    FollowsItem (ts ++ rest) := by
  cases bs with
  | nil =>
    obtain rfl : ts = [] := h
    exact hrest
  | cons b bs =>
    obtain ⟨us, vs, rfl, hus, -⟩ := h
    rw [List.append_assoc]
    exact (hstarts b (by simp) us hus).follows

end Follow

/-! ### Items of case constructs -/

section CaseItems

variable {α β : Type} {spells : β → List Token → Prop} {ts : List Token}

/-- A case item has a label, and its labels can be written down. -/
def CaseItem.Labelled (item : CaseItem α β) : Prop :=
  item.labels ≠ [] ∧ ∀ e ∈ item.labels, e.Canonical .compares

/-- A case item starts with an expression. -/
theorem CaseItem.SpellsWith.starts {item : CaseItem α β} (h : item.SpellsWith spells ts)
    (hlabels : item.labels ≠ []) : ∃ t us, ts = t :: us ∧ t.kind.startsExpression = true := by
  obtain ⟨us, m, vs, rfl, hus, -⟩ := h
  cases hitem : item.labels with
  | nil => exact absurd hitem hlabels
  | cons e es =>
    rw [hitem] at hus
    obtain ⟨xs, ys, rfl, hxs, -⟩ := hus
    obtain ⟨t, zs, rfl, ht⟩ := hxs.starts
    exact ⟨t, _, rfl, ht⟩

theorem CaseItem.SpellsWith.startsItem {item : CaseItem α β} (h : item.SpellsWith spells ts)
    (hlabels : item.labels ≠ []) : StartsItem ts := by
  obtain ⟨t, us, rfl, ht⟩ := h.starts hlabels
  exact .of_startsExpression ht

theorem SpellsFallback.follows {default : Option β} (h : SpellsOption (SpellsFallback spells) default ts) :
    FollowsItem ts := by
  cases default with
  | none =>
    obtain rfl : ts = [] := h
    exact .nil
  | some b =>
    obtain ⟨d, us, vs, rfl, hd, -⟩ := h
    have hfollows : FollowsItem (d :: (us ++ vs) ++ []) := StartsItem.follows (.of_word hd (by decide))
    rwa [List.append_nil] at hfollows

end CaseItems

/-! ### Readers of many things -/

section Readers

variable {m : Type → Type} [Monad m] [MonadStateOf Cursor m] [MonadLiftT Parser m] [Reader m] {α β : Type}
  {p : m α} {f : α → β} {spells : β → List Token → Prop} {c c' : Cursor} {ts us : List Token} {bound n : Nat}

/-- Wherever some of the tokens `ts` spell `b`, in a span of fewer than `bound` tokens and in front of what
may follow an item, the reader gives what `f` takes to `b`. -/
def ReadsIn (p : m α) (f : α → β) (spells : β → List Token → Prop) (ts : List Token) (bound : Nat) (b : β) :
    Prop :=
  ∀ ⦃us c c'⦄, spells b us → us ⊆ ts → c.Steps us c' → c.after.length < bound → FollowsItem c'.after →
    ∃ a, Reader.Yields p c a c' ∧ f a = b

theorem ReadsIn.mono {b : β} (h : ReadsIn p f spells ts bound b) (hsub : us ⊆ ts) :
    ReadsIn p f spells us bound b :=
  fun _ _ _ hspell hus => h hspell (List.Subset.trans hus hsub)

/-- Things are read one after the other up to the end of the span. -/
theorem untilEnd_reads {bs : List β} (hs : c.Steps ts c') (hspell : SpellsEach spells bs ts)
    (hend : c'.after = []) (hstarts : ∀ b ∈ bs, ∀ us, spells b us → StartsItem us)
    (hread : ∀ b ∈ bs, ReadsIn p f spells ts bound b) (hb : c.after.length < bound) :
    ∃ as, Reader.Yields (untilEnd p) c as c' ∧ as.map f = bs := by
  have hchain : ∃ as, Chain (Reader.Yields p) c as c' ∧ as.map f = bs ∧ as.length ≤ c.after.length := by
    induction bs generalizing c ts with
    | nil =>
      obtain rfl : ts = [] := hspell
      obtain rfl := hs.of_nil
      exact ⟨[], .done hend, rfl, Nat.zero_le _⟩
    | cons b bs ih =>
      obtain ⟨us, vs, rfl, hus, hvs⟩ := hspell
      obtain ⟨c₁, hs₁, hs₂⟩ := hs.of_append
      have hlen := hs₁.length
      have hstarts' : ∀ b ∈ bs, ∀ us, spells b us → StartsItem us := fun b h => hstarts b (by simp [h])
      have hfollows : FollowsItem c₁.after := hs₂.after ▸ hvs.follows hstarts' (hend ▸ .nil)
      obtain ⟨a, ha, rfl⟩ := hread b (by simp) hus (by simp) hs₁ hb hfollows
      obtain ⟨as, has, rfl, hle⟩ := ih hs₂ hvs hstarts'
        (fun b h => (hread b (by simp [h])).mono (List.subset_append_right _ _)) (by omega)
      obtain ⟨t, us', rfl, -⟩ := hstarts (f a) (by simp) us hus
      rw [List.length_cons] at hlen
      refine ⟨a :: as, .next (by simp [hs₁.after]) ha has, rfl, ?_⟩
      rw [List.length_cons]
      omega
  obtain ⟨as, has, hmap, hle⟩ := hchain
  exact ⟨as, yields_untilEnd has hle, hmap⟩

/-- A label and the things behind it are read between `begin` and `end`. -/
theorem labelled_reads {bs : List β} {label : Option String} {b e : Token} {ls : List Token}
    (hs : c.Steps (b :: ((ls ++ us) ++ [e])) c') (hb : b.kind = .word .kwBegin) (he : e.kind = .word .kwEnd)
    (hls : SpellsLabel label ls) (hus : SpellsEach spells bs us)
    (hskips : SkipsPairs (.word .kwBegin) (.word .kwEnd) (ls ++ us))
    (hstarts : ∀ b ∈ bs, ∀ us, spells b us → StartsItem us)
    (hread : ∀ b ∈ bs, ReadsIn p f spells us c.after.length b) :
    ∃ r, Reader.Yields (enclosed (.word .kwBegin) (.word .kwEnd) (do
      let label ← (blockLabel : Parser (Option String))
      let all ← untilEnd p
      return (label, all)) : m _) c r c' ∧ r.1 = label ∧ r.2.map f = bs := by
  refine yields_enclosed hs (by rw [hb]; rfl) (by rw [he]; rfl) (by rw [he]; rfl) hskips
    fun c₁ c₂ hs hend hshort => ?_
  obtain ⟨c₃, hs₁, hs₂⟩ := hs.of_append
  have hlen := hs₁.length
  have hfollows : FollowsItem c₃.after := hs₂.after ▸ hus.follows hstarts (hend ▸ .nil)
  have hlabel := blockLabel_of_spells hs₁ hls fun _ _ _ h => hfollows.ne_colon h
  obtain ⟨as, has, hmap⟩ := untilEnd_reads hs₂ hus hend hstarts hread (by omega)
  exact ⟨(label, as), Reader.bind (Reader.lift hlabel) (Reader.bind has (Reader.pure _ c₂)), rfl, hmap⟩

/-! ### Case items -/

theorem defaultLabel_of_default {d : Token} (hs : c.Steps (d :: us) c') (hd : d.kind = .word .kwDefault)
    (hus : us = [] ∨ ∃ m, us = [m] ∧ m.kind = .op .colon) (hnext : FollowsItem c'.after) :
    defaultLabel false c = .ok (true, c') := by
  obtain ⟨hafter, hs⟩ := hs.of_cons
  rw [defaultLabel, location_bind, bind_of_ok (eat_of_after hafter hd)]
  rcases hus with rfl | ⟨m, rfl, hm⟩
  · obtain rfl := hs.of_nil
    have hcolon := eat_of_check (Cursor.check_eq_false fun _ _ h => hnext.ne_colon h)
    simp only [if_true, bind_of_ok hcolon]
    rfl
  · obtain ⟨hafter', hs⟩ := hs.of_cons
    obtain rfl := hs.of_nil
    simp only [if_true, bind_of_ok (eat_of_after hafter' hm)]
    rfl

theorem defaultLabel_of_startsExpression {t : Token} (h : c.after = t :: us)
    (ht : t.kind.startsExpression = true) : defaultLabel false c = .ok (false, c) := by
  have hcheck : c.check (.word .kwDefault) = false := Cursor.check_eq_false fun t' us h' => by
    obtain ⟨rfl, -⟩ := List.cons.inj (h.symm.trans h')
    exact TokenKind.startsExpression_ne_word ht rfl
  rw [defaultLabel, location_bind, bind_of_ok (eat_of_check hcheck)]
  rfl

theorem yields_atEnd_false {t : Token} (h : c.after = t :: us) : Parser.atEnd c = .ok (false, c) := by
  rw [← Cursor.atEnd_of_after_cons h]
  rfl

theorem yields_caseItemsUpTo_done {fallback : Option α} (hend : c.after = []) :
    Reader.Yields (caseItemsUpTo p n fallback) c ([], fallback) c := by
  have hended : Parser.atEnd c = .ok (true, c) := by
    rw [← Cursor.atEnd_eq_true_iff.2 hend]
    rfl
  cases n <;> exact Reader.bind (Reader.lift hended) (Reader.pure _ c)

variable {a : α} {c₁ c₂ : Cursor} {r : List (CaseItem Site α) × Option α} {t : Token}

theorem yields_caseItemsUpTo_default (hafter : c.after = t :: us)
    (hlabel : defaultLabel false c = .ok (true, c₁)) (hbody : Reader.Yields p c₁ a c₂)
    (hrest : Reader.Yields (caseItemsUpTo p n (some a)) c₂ r c') :
    Reader.Yields (caseItemsUpTo p (n + 1) none) c r c' :=
  Reader.bind (Reader.lift (yields_atEnd_false hafter)) <| Reader.bind (Reader.lift hlabel) <|
    Reader.bind hbody hrest

theorem yields_caseItemsUpTo_item {labels : List (Expr Site)} (hafter : c.after = t :: us)
    (hlabel : defaultLabel false c = .ok (false, c)) (hlabels : caseLabels c = .ok (labels, c₁))
    (hbody : Reader.Yields p c₁ a c₂) (hrest : Reader.Yields (caseItemsUpTo p n none) c₂ r c') :
    Reader.Yields (caseItemsUpTo p (n + 1) none) c
      (⟨⟨c.location, c₂.rangeFrom c.position⟩, labels, a⟩ :: r.1, r.2) c' := by
  have hitem : Reader.Yields (tagged (do
      let labels ← (caseLabels : Parser (List (Expr Site)))
      let selected ← p
      return fun tag => (⟨tag, labels, selected⟩ : CaseItem Site α)) : m _) c
        ⟨⟨c.location, c₂.rangeFrom c.position⟩, labels, a⟩ c₂ :=
    yields_tagged (Reader.bind (Reader.lift hlabels) (Reader.bind hbody (Reader.pure _ c₂))) rfl
  exact Reader.bind (Reader.lift (yields_atEnd_false hafter)) <| Reader.bind (Reader.lift hlabel) <|
    Reader.bind hitem <| Reader.bind hrest (Reader.pure _ c')

/-- Case items are read one after the other up to the default item and the end of the span. -/
theorem caseItemsUpTo_reads {items : List (CaseItem Unit β)} {default : Option β} {vs : List Token}
    (hs : c.Steps (us ++ vs) c') (hend : c'.after = [])
    (hitems : SpellsEach (CaseItem.SpellsWith spells) items us)
    (hdefault : SpellsOption (SpellsFallback spells) default vs) (hlabels : ∀ item ∈ items, item.Labelled)
    (hstarts : ∀ b us, spells b us → StartsItem us)
    (hbodies : ∀ item ∈ items, ReadsIn p f spells (us ++ vs) bound item.body)
    (hfallback : ∀ b ∈ default, ReadsIn p f spells vs bound b) (hb : c.after.length < bound)
    (hlen : c.after.length ≤ n) :
    ∃ r, Reader.Yields (caseItemsUpTo p n none) c r c' ∧
      r.1.map (CaseItem.map (fun _ => ()) f) = items ∧ r.2.map f = default := by
  induction items generalizing c us n with
  | nil =>
    obtain rfl : us = [] := hitems
    cases default with
    | none =>
      obtain rfl : vs = [] := hdefault
      obtain rfl := hs.of_nil
      exact ⟨_, yields_caseItemsUpTo_done hend, rfl, rfl⟩
    | some b =>
      obtain ⟨d, ms, xs, rfl, hd, hms, hxs⟩ := hdefault
      have hs' : c.Steps ((d :: ms) ++ xs) c' := by simpa using hs
      obtain ⟨c₁, hs₁, hs₂⟩ := hs'.of_append
      have hlen₁ := hs₁.length
      rw [List.length_cons] at hlen₁
      have hlabel := defaultLabel_of_default hs₁ hd hms (hs₂.after ▸ (hstarts b xs hxs).follows)
      obtain ⟨a, ha, rfl⟩ := hfallback b rfl hxs (by simp) hs₂ (by omega) (hend ▸ .nil)
      cases n with
      | zero => omega
      | succ n =>
        exact ⟨([], some a), yields_caseItemsUpTo_default hs₁.after hlabel ha
          (yields_caseItemsUpTo_done hend), rfl, rfl⟩
  | cons item items ih =>
    obtain ⟨xs, ws, rfl, hitem, hitems⟩ := hitems
    obtain ⟨hne, hcan⟩ := hlabels item (by simp)
    obtain ⟨t, rest, hstart, ht⟩ := hitem.starts hne
    obtain ⟨zs, m, ys, rfl, hzs, hm, hys⟩ := hitem
    have hs' : c.Steps ((zs ++ [m]) ++ (ys ++ (ws ++ vs))) c' := by simpa using hs
    obtain ⟨c₁, hs₁, hs'⟩ := hs'.of_append
    obtain ⟨c₂, hs₂, hs₃⟩ := hs'.of_append
    have hlen₁ := hs₁.length
    have hlen₂ := hs₂.length
    rw [List.length_append, List.length_singleton] at hlen₁
    have hafter : c.after = t :: (rest ++ ws ++ vs ++ c'.after) := by simp [hs.after, hstart]
    have hfollows : FollowsItem c₂.after := by
      rw [hs₃.after, hend, List.append_nil]
      exact hitems.follows (fun i hi _ h => h.startsItem (hlabels i (by simp [hi])).1)
        (SpellsFallback.follows hdefault)
    obtain ⟨labels, hreadLabels, hmapLabels⟩ := caseLabels_complete hs₁ hzs hm hne hcan
    have herase : labels.map Expr.erase = item.labels :=
      (Expr.mapAll_eq_map (fun _ => ()) labels).symm.trans hmapLabels
    obtain ⟨a, ha, hmapBody⟩ := hbodies item (by simp) hys (fun t h => by simp [h]) hs₂ (by omega) hfollows
    cases n with
    | zero => omega
    | succ n =>
      obtain ⟨r, hread, hmap, hmap'⟩ := ih (n := n) hs₃ hitems (fun i hi => hlabels i (by simp [hi]))
        (fun i hi => (hbodies i (by simp [hi])).mono fun t h => by
          rcases List.mem_append.1 h with h | h <;> simp [h]) (by omega) (by omega)
      refine ⟨_, yields_caseItemsUpTo_item hafter (defaultLabel_of_startsExpression hafter ht) hreadLabels
        ha hread, ?_, hmap'⟩
      show CaseItem.mk () (labels.map Expr.erase) (f a) :: r.1.map (CaseItem.map (fun _ => ()) f) = _
      rw [hmap, hmapBody, herase]

/-- Case items are read up to the end of the span. -/
theorem caseItems_reads {items : List (CaseItem Unit β)} {default : Option β} {vs : List Token}
    (hs : c.Steps (us ++ vs) c') (hend : c'.after = [])
    (hitems : SpellsEach (CaseItem.SpellsWith spells) items us)
    (hdefault : SpellsOption (SpellsFallback spells) default vs) (hlabels : ∀ item ∈ items, item.Labelled)
    (hstarts : ∀ b us, spells b us → StartsItem us)
    (hbodies : ∀ item ∈ items, ReadsIn p f spells (us ++ vs) bound item.body)
    (hfallback : ∀ b ∈ default, ReadsIn p f spells vs bound b) (hb : c.after.length < bound) :
    ∃ r, Reader.Yields (caseItems p) c r c' ∧
      r.1.map (CaseItem.map (fun _ => ()) f) = items ∧ r.2.map f = default := by
  obtain ⟨r, hread, hmap⟩ := caseItemsUpTo_reads hs hend hitems hdefault hlabels hstarts hbodies hfallback hb
    (Nat.le_refl _)
  exact ⟨r, Reader.bind (Reader.get c) hread, hmap⟩

end Readers

end SystemVerilog
