import SystemVerilog.Proofs.Concatenation.Tokens
import SystemVerilog.Proofs.Correspondence.Items
import SystemVerilog.Proofs.Ranges.Texts
import SystemVerilog.Proofs.Reading.Regions

/-!
# The items of joined texts

What is read from a text is read again when other items follow it: a module ends at its closing word or
its label, a directive at its last argument, and neither looks past its end but to see that no label
stands there. Behind the joint the second text is read as if it stood alone. So the items of two texts
that a line terminator joins are those of the first text and then those of the second one, moved.
-/

namespace SystemVerilog

open SystemVerilog.Parser

/-! ### More tokens behind the span -/

/-- The cursor with more tokens behind its span. -/
def Cursor.followedBy (c : Cursor) (more : List Token) : Cursor := { c with after := c.after ++ more }

namespace Cursor

variable {c : Cursor} {more : List Token} {n : Nat}

@[simp] theorem followedBy_after (c : Cursor) (more : List Token) :
    (c.followedBy more).after = c.after ++ more := rfl

theorem followedBy_after_cons {t : Token} {rest : List Token} (h : c.after = t :: rest) (more : List Token) :
    (c.followedBy more).after = t :: (rest ++ more) := by rw [followedBy_after, h, List.cons_append]

theorem followedBy_skip (h : n ≤ c.after.length) : (c.followedBy more).skip n = (c.skip n).followedBy more := by
  induction n generalizing c with
  | zero => rfl
  | succ n ih =>
    cases hafter : c.after with
    | nil => simp [hafter] at h
    | cons t ts =>
      rw [skip_cons n hafter, skip_cons n (followedBy_after_cons hafter _), ← ih (by simpa [hafter] using h)]
      rfl

theorem followedBy_ahead (h : n ≤ c.after.length) : (c.followedBy more).ahead n = c.ahead n := by
  rw [ahead, ahead, followedBy_after, List.take_append_of_le_length h]
  rfl

theorem followedBy_location (h : c.after ≠ []) : (c.followedBy more).location = c.location := by
  cases hafter : c.after with
  | nil => exact absurd hafter h
  | cons t ts => simp [location, hafter]

theorem followedBy_check {kind : TokenKind} (h : c.check kind = true) : (c.followedBy more).check kind = true := by
  obtain ⟨t, rest, hafter, hkind⟩ := Cursor.after_of_check h
  exact check_of_after (followedBy_after_cons hafter _) hkind

end Cursor

/-! ### Readers that do not look further than they read -/

section Generic

variable {m : Type → Type} [Monad m] [MonadStateOf Cursor m] [MonadLiftT Parser m] [Reader m] {α β : Type}

/-- What is read is read again in front of more tokens. -/
def Local (more : List Token) (p : m α) : Prop :=
  ∀ ⦃c a c'⦄, Reader.Gives p c a c' → Reader.Yields p (c.followedBy more) a (c'.followedBy more)

end Generic

namespace Local

variable {more : List Token} {c c' : Cursor}

section Generic

variable {m : Type → Type} [Monad m] [MonadStateOf Cursor m] [MonadLiftT Parser m] [Reader m] {α β : Type}

theorem pure (a : α) : Local more (Pure.pure a : m α) := by
  intro c b c' hread
  obtain ⟨rfl, rfl⟩ := Reader.pure_inv hread
  exact Reader.pure b _

theorem bind {p : m α} {f : α → m β} (hp : Local more p) (hf : ∀ a, Local more (f a)) :
    Local more (p >>= f) := by
  intro c b c' hread
  obtain ⟨a, c₁, hreadp, hreadf⟩ := Reader.bind_inv hread
  exact Reader.bind (hp hreadp) (hf a hreadf)

theorem lift {p : Parser α} (hp : Local more p) : Local more (monadLift p : m α) := by
  intro c a c' hread
  exact Reader.lift (hp (Reader.lift_inv hread))

end Generic

variable {α : Type}

theorem fail (cause : Cause) (place : Location) : Local more (Parser.fail cause place : Parser α) :=
  fun _ _ _ hread => absurd hread fail_ne_ok

theorem demandWith (test : TokenKind → Bool) (expected : String) :
    Local more (Parser.demandWith test expected) := by
  intro c t c' hread
  obtain ⟨rest, hafter, htest, rfl⟩ := demandWith_eq_ok.1 hread
  refine demandWith_eq_ok.2 ⟨rest ++ more, by simp [hafter], htest, ?_⟩
  rw [Cursor.followedBy_skip (by simp [hafter])]

theorem demandBy (meaning : TokenKind → Option α) (expected : String) :
    Local more (Parser.demandBy meaning expected) := by
  intro c a c' hread
  obtain ⟨t, rest, hafter, hmeaning, rfl⟩ := demandBy_eq_ok.1 hread
  refine demandBy_eq_ok.2 ⟨t, rest ++ more, by simp [hafter], hmeaning, ?_⟩
  rw [Cursor.followedBy_skip (by simp [hafter])]

theorem expectAs (kind : TokenKind) (expected : String) : Local more (Parser.expectAs kind expected) :=
  demandWith _ _

theorem name : Local more Parser.name := bind (demandWith _ _) fun _ => pure _

/-- A token that may stand there is looked for in vain in front of other tokens, too. -/
theorem eat? {kind : TokenKind} (h : ∀ t rest, more = t :: rest → t.kind ≠ kind) :
    Local more (Parser.eat? kind) := by
  intro c found c' hread
  cases hafter : c.after with
  | nil =>
    have hout : c.check kind = false := Cursor.check_eq_false fun t rest ht => by simp [hafter] at ht
    have hout' : (c.followedBy more).check kind = false :=
      Cursor.check_eq_false fun t rest ht => h t rest (by simpa [hafter] using ht)
    obtain ⟨rfl, rfl⟩ := Prod.mk.inj (Except.ok.inj ((eat?_of_check hout).symm.trans hread))
    exact eat?_of_check hout'
  | cons t rest =>
    have hfollowed := Cursor.followedBy_after_cons hafter more
    by_cases hkind : t.kind = kind
    · obtain ⟨rfl, rfl⟩ := Prod.mk.inj (Except.ok.inj ((eat?_of_after hafter hkind).symm.trans hread))
      rw [← Cursor.followedBy_skip (by simp [hafter])]
      exact eat?_of_after hfollowed hkind
    · have hout : c.check kind = false := Cursor.check_eq_false fun u us hu => by
        obtain ⟨rfl, -⟩ := List.cons.inj (hafter.symm.trans hu)
        exact hkind
      have hout' : (c.followedBy more).check kind = false := Cursor.check_eq_false fun u us hu => by
        obtain ⟨rfl, -⟩ := List.cons.inj (hfollowed.symm.trans hu)
        exact hkind
      obtain ⟨rfl, rfl⟩ := Prod.mk.inj (Except.ok.inj ((eat?_of_check hout).symm.trans hread))
      exact eat?_of_check hout'

/-- A label ends where no colon follows. -/
theorem endLabel (opening : Option String) (h : ∀ t rest, more = t :: rest → t.kind ≠ .op .colon) :
    Local more (Parser.endLabel opening) :=
  bind (eat? h) fun colon => by
    cases colon with
    | none => exact pure ()
    | some colon =>
      refine bind (demandWith _ _) fun label => ?_
      split
      · exact fail _ _
      · split
        · exact pure ()
        · exact fail _ _

/-! ### Directives -/

theorem distanceToRegionEnd?_append {inner n : Nat} {ts : List Token}
    (h : distanceToRegionEnd? inner ts = some n) (us : List Token) :
    distanceToRegionEnd? inner (ts ++ us) = some n ∧ n < ts.length := by
  obtain ⟨skipped, u, rest, rfl, rfl, hopen, hu⟩ := distanceToRegionEnd?_eq_some_iff.1 h
  have happend : skipped ++ u :: rest ++ us = skipped ++ u :: (rest ++ us) := List.append_assoc ..
  refine ⟨distanceToRegionEnd?_eq_some_iff.2 ⟨skipped, u, rest ++ us, happend, rfl, hopen, hu⟩, ?_⟩
  rw [List.length_append, List.length_cons]
  omega

/-- A region that is closed is closed in front of more tokens, too. -/
theorem conditionalRegion (negated : Bool) (here : Location) :
    Local more (SystemVerilog.conditionalRegion negated here) :=
  bind (lift name) fun macroName c kind c' hread => by
    obtain ⟨part, c₁, hpart, hrest⟩ := Reader.bind_inv hread
    have hspan : spanBefore? (distanceToRegionEnd? 0) c = .ok (part, c₁) := Reader.lift_inv hpart
    unfold spanBefore? at hspan
    split at hspan
    · rename_i n hn
      cases hspan
      obtain ⟨hn', hlt⟩ := distanceToRegionEnd?_append hn more
      have hspan' : spanBefore? (distanceToRegionEnd? 0) (c.followedBy more) =
          .ok (some (c.ahead n), (c.skip (n + 1)).followedBy more) := by
        rw [spanBefore?, Cursor.followedBy_after, hn']
        dsimp only
        rw [Cursor.followedBy_ahead (by omega), Cursor.followedBy_skip (by omega)]
      obtain ⟨u, c₂, ⟨ns, ns', hnotice⟩, hpure⟩ := Reader.bind_inv hrest
      cases hnotice
      obtain ⟨rfl, rfl⟩ := Reader.pure_inv hpure
      exact Reader.bind (Reader.lift hspan') (Reader.bind (yields_notice _ _) (Reader.pure _ _))
    · cases hspan
      exact absurd (Reader.lift_inv hrest) fail_ne_ok

theorem stringArgument (expected : String) : Local more (Parser.stringArgument expected) :=
  bind (expectAs _ _) fun _ => pure _

theorem timeValue : Local more Parser.timeValue :=
  bind (expectAs _ _) fun token => by
    split
    · exact fail _ _
    · exact bind (demandBy _ _) fun _ => pure _

theorem directiveArguments (token : Token) : Local more (SystemVerilog.directiveArguments token) := by
  unfold SystemVerilog.directiveArguments
  dsimp only
  split
  · exact pure _
  · exact pure _
  · exact pure _
  · exact bind (lift (stringArgument _)) fun _ => pure _
  · exact bind (lift (stringArgument _)) fun _ => pure _
  · exact pure _
  · exact pure _
  · exact bind (lift (stringArgument _)) fun _ => pure _
  · exact bind (lift timeValue) fun _ => bind (lift (expectAs _ _)) fun _ => bind (lift timeValue) fun _ => pure _
  · exact bind (lift (demandWith _ _)) fun _ => pure _
  · exact bind (lift (demandBy _ _)) fun _ => pure _
  · exact pure _
  · exact conditionalRegion _ _
  · exact conditionalRegion _ _
  all_goals exact lift (fail _ _)

theorem directive : Local more SystemVerilog.directive := by
  intro c d c' hread
  obtain ⟨t, rest, kind, hafter, hkind, harguments, rfl⟩ := directive_inv hread
  have hne : c.after ≠ [] := List.ne_nil_iff_exists_cons.2 ⟨_, _, hafter⟩
  have harguments' : Reader.Yields _ _ kind (c'.followedBy more) := directiveArguments t harguments
  rw [← Cursor.followedBy_skip (by simp [hafter])] at harguments'
  have hyields := yields_directive (Cursor.followedBy_after_cons hafter _) hkind harguments'
  rw [Cursor.followedBy_location hne] at hyields
  exact hyields

end Local

/-! ### Moved tokens -/

/-- The site some tokens further on and some lines further down. -/
def Site.moved (tokens lines : Nat) (s : Site) : Site :=
  ⟨s.location.down lines, ⟨s.range.start + tokens, s.range.stop + tokens⟩⟩

/-- Tokens that are moved touch if and only if they did. -/
theorem Token.touches_moved {bytes lines : Nat} {t t' u u' : Token} (h : u = t.moved bytes lines)
    (h' : u' = t'.moved bytes lines) : t'.touches t = u'.touches u := by
  rw [h, h']
  simp only [Token.touches, Token.endOffset, Token.moved, Nat.add_right_comm t.offset bytes]
  rw [Bool.eq_iff_iff, beq_iff_eq, beq_iff_eq]
  omega

/-- Tokens that are moved stand for the tokens that they were. -/
def Correspondence.moved (bytes tokens lines : Nat) : Correspondence Site where
  token t u := u = t.moved bytes lines
  place l l' := l' = l.down lines
  index i j := j = i + tokens
  left := Site.moved tokens lines
  right := id
  lexeme h := by rw [h]; rfl
  touches h h' := Token.touches_moved h h'
  location h := by rw [h]; rfl
  stop h := by rw [h]; rfl
  add n h := by omega
  site h h₁ h₂ := by rw [h, h₁, h₂]; rfl
  since {s s' i j} h hj := by
    obtain rfl : s.moved tokens lines = s' := h
    rw [hj]
    rfl
  through {s s' t t'} h h' := by
    obtain rfl : s.moved tokens lines = s' := h
    obtain rfl : t.moved tokens lines = t' := h'
    rfl
  located {s s'} h := by
    obtain rfl : s.moved tokens lines = s' := h
    rfl

namespace Correspondence

variable {k : Correspondence Site} {c c' : Cursor}

/-- Nothing is moved. -/
theorem alike_self (c : Cursor) : (moved 0 0 0).Alike c c where
  after := List.forall₂_same.2 fun _ _ => rfl
  index := rfl
  place := rfl

theorem eq_map_moved {bytes tokens lines : Nat} {is js : List (Item Site)}
    (h : List.Forall₂ ((moved bytes tokens lines).Same Item.map) is js) :
    js = is.map (Item.map (Site.moved tokens lines)) := by
  have hmap := map_eq h
  rw [show (moved bytes tokens lines).right = id from rfl, List.map_id'' Item.map_id] at hmap
  exact hmap.symm

end Correspondence

/-- The body of a module is read whatever was noticed before. -/
theorem yields_moduleBody {depth : Depth} {body : List (BodyItem Site)} {c c' : Cursor}
    (h : Reader.Gives (moduleBody depth) c body c') : ∃ c'', Reader.Yields (moduleBody depth) c body c'' := by
  obtain ⟨body', c'', hyields, hsame, -⟩ :=
    (Correspondence.Agrees.moduleBody depth (Correspondence.alike_self c)).gives h
  have hmap := Correspondence.map_eq hsame
  have hleft : (Correspondence.moved 0 0 0).left = id := rfl
  have hright : (Correspondence.moved 0 0 0).right = id := rfl
  rw [hleft, hright, List.map_id'' BodyItem.map_id, List.map_id'' BodyItem.map_id] at hmap
  rw [hmap]
  exact ⟨c'', hyields⟩

/-! ### Items in front of others -/

namespace Local

variable {more : List Token} {depth : Depth}

theorem closerDistance_followedBy {opening closing : TokenKind} {n : Nat} {c : Cursor}
    (h : closerDistance opening closing c = .ok (n, c)) (more : List Token) :
    closerDistance opening closing (c.followedBy more) = .ok (n, c.followedBy more) := by
  obtain ⟨-, hne, hn⟩ := closerDistance_inv h
  cases hafter : c.after with
  | nil => exact absurd hafter hne
  | cons t rest =>
    unfold closerDistance at h ⊢
    rw [hafter] at h hn
    have hfollowed : (c.followedBy more).after = t :: rest ++ more := by simp [hafter]
    rw [hfollowed]
    dsimp only [List.cons_append] at h ⊢
    by_cases ho : t.kind.inFamily opening = true
    · rw [if_pos ho, ← List.cons_append, distanceToCloser?_append hn]
    · rw [if_neg ho] at h
      exact absurd h unexpected_ne_ok

/-- A module ends at its closing word or its label. -/
theorem moduleItem (hmore : ∀ t rest, more = t :: rest → t.kind ≠ .op .colon) :
    Local more (SystemVerilog.moduleItem depth) := by
  intro c m c' hread
  obtain ⟨n, header, c₁, body, c₂, hn, hheader, hbody, hlabel, rfl⟩ := moduleItem_inv hread
  obtain ⟨-, hne, hdistance⟩ := closerDistance_inv hn
  obtain ⟨us, t, vs, hafter, rfl, -⟩ := closer_of_distance hdistance
  have hlength : us.length + 1 ≤ c.after.length := by
    rw [hafter, List.length_append, List.length_cons]
    omega
  obtain ⟨c₃, hbody'⟩ := yields_moduleBody hbody
  have hlabel' : Parser.endLabel (some header.name) ((c.skip (us.length + 1)).followedBy more) =
    .ok ((), c'.followedBy more) := endLabel _ hmore hlabel
  rw [← Cursor.followedBy_skip hlength] at hlabel'
  have hheader' : Parser.moduleHeader ((c.followedBy more).ahead us.length) = .ok (header, c₁) := by
    rw [Cursor.followedBy_ahead (Nat.le_of_succ_le hlength), hheader]
  have hyields := yields_moduleItem (closerDistance_followedBy hn more) hheader' hbody' hlabel'
  rw [Cursor.followedBy_location hne] at hyields
  exact hyields

theorem item (hmore : ∀ t rest, more = t :: rest → t.kind ≠ .op .colon) :
    Local more (SystemVerilog.item depth) := by
  intro c i c' hread
  rcases item_inv hread with ⟨hcheck, m, hm, rfl⟩ | ⟨hcheck, d, hd, rfl⟩
  · exact yields_item_design (Cursor.followedBy_check hcheck) (moduleItem hmore hm)
  · exact yields_item_directive (Cursor.followedBy_check hcheck) (directive hd)

end Local

/-- Items are read in front of other items. -/
theorem Chain.append {depth : Depth} {more : List Token} {c c' e : Cursor} {is js : List (Item Site)}
    (hmore : ∀ t rest, more = t :: rest → t.kind ≠ .op .colon) (h : Chain (Reader.Gives (item depth)) c is c')
    (h' : Chain (Reader.Yields (item depth)) (c'.followedBy more) js e) :
    Chain (Reader.Yields (item depth)) (c.followedBy more) (is ++ js) e := by
  induction h with
  | done => exact h'
  | next hne hi _ ih => exact .next (by simp [hne]) (Local.item hmore hi) (ih h')

/-- What an item starts with is no colon. -/
theorem Chain.head_ne_colon {depth : Depth} {c c' : Cursor} {is : List (Item Site)}
    (h : Chain (Reader.Gives (item depth)) c is c') : ∀ t rest, c.after = t :: rest → t.kind ≠ .op .colon := by
  intro t rest hafter
  cases h with
  | done hend =>
    rw [hend] at hafter
    cases hafter
  | next _ hi _ =>
    have hkind : t.kind = .word .kwModule ∨ t.kind = .directive := by
      rcases item_inv hi with ⟨hcheck, -⟩ | ⟨hcheck, -⟩
      · obtain ⟨u, us, hu, hkind⟩ := Cursor.after_of_check hcheck
        obtain ⟨rfl, -⟩ := List.cons.inj (hafter.symm.trans hu)
        exact .inl hkind
      · obtain ⟨u, us, hu, hkind⟩ := Cursor.after_of_check hcheck
        obtain ⟨rfl, -⟩ := List.cons.inj (hafter.symm.trans hu)
        exact .inr hkind
    rcases hkind with hkind | hkind <;> (rw [hkind]; decide)

/-! ### Whole texts -/

theorem position_of_chain {depth : Depth} {ts : List Token} {mark : Token} {is : List (Item Site)} {c' : Cursor}
    (hmark : mark.kind = .eof) (h : Chain (Reader.Gives (item depth)) (Cursor.root (ts ++ [mark])) is c') :
    c'.position = ts.length := by
  have hafter : (Cursor.root (ts ++ [mark])).after = ts := Cursor.root_after rfl hmark
  have hsees : (Cursor.root (ts ++ [mark])).Sees ts := by
    rw [Cursor.Sees, hafter]
    exact List.prefix_refl _
  obtain ⟨n, rfl⟩ := h.moved (fun _ => Forms.item depth) hsees
  rw [Cursor.position_of_after_eq_nil h.after_eq_nil, Cursor.finish_skip, Cursor.finish, hafter]
  exact Nat.zero_add _

/-- The items of tokens that stand in front of other ones, and of those. -/
theorem chain_joined (bytes lines : Nat) {depth : Depth} {ts us : List Token} {mark mark' last : Token}
    {is js : List (Item Site)} {c' d' : Cursor} (hmark : mark.kind = .eof) (hmark' : mark'.kind = .eof)
    (hlast : last.kind = .eof) (h : Chain (Reader.Gives (item depth)) (Cursor.root (ts ++ [mark])) is c')
    (h' : Chain (Reader.Gives (item depth)) (Cursor.root (us ++ [mark'])) js d') :
    ∃ e, Chain (Reader.Yields (item depth)) (Cursor.root (ts ++ us.map (Token.moved bytes lines) ++ [last]))
      (is ++ js.map (Item.map (Site.moved ts.length lines))) e := by
  let more := us.map (Token.moved bytes lines)
  let root := Cursor.root (ts ++ more ++ [last])
  have hroot : root.after = ts ++ more := Cursor.root_after rfl hlast
  have hfirst : (Cursor.root (ts ++ [mark])).after = ts := Cursor.root_after rfl hmark
  have hsecond : (Cursor.root (us ++ [mark'])).after = us := Cursor.root_after rfl hmark'
  -- behind the joint the second text is read as from its start
  have hbehind {e : Cursor} (hafter : e.after = more) (hposition : e.position = ts.length) :
      ∃ e', Chain (Reader.Yields (item depth)) e (js.map (Item.map (Site.moved ts.length lines))) e' := by
    have habreast : (Correspondence.moved bytes ts.length lines).Abreast (Cursor.root (us ++ [mark'])) e := by
      refine ⟨?_, ?_⟩
      · rw [hsecond, hafter]
        exact List.forall₂_map_right_iff.2 (List.forall₂_same.2 fun _ _ => rfl)
      · rw [hposition]
        exact (Nat.zero_add _).symm
    obtain ⟨js', e', hchain, hsame⟩ := habreast.items h'
    rw [Correspondence.eq_map_moved hsame] at hchain
    exact ⟨e', hchain⟩
  cases ts with
  | nil =>
    have hnone : is = [] := by
      cases h with
      | done => rfl
      | next hne => exact absurd hfirst hne
    subst hnone
    exact hbehind hroot rfl
  | cons t ts =>
    have hlead : root = (Cursor.root (t :: ts ++ [mark])).followedBy more := by
      rw [show root = Cursor.root (t :: ts ++ more ++ [last]) from rfl, Cursor.root_eq hlast,
        Cursor.root_eq hmark]
      rfl
    have hposition : c'.position = (t :: ts).length := position_of_chain hmark h
    obtain ⟨e, hchain⟩ := hbehind (e := c'.followedBy more) (by simp [h.after_eq_nil]) hposition
    refine ⟨e, ?_⟩
    show Chain _ root _ e
    rw [hlead]
    refine h.append ?_ hchain
    intro u rest hu
    obtain ⟨v, vs, hv, rfl, -⟩ := List.map_eq_cons_iff.1 hu
    exact h'.head_ne_colon v vs (by rw [hsecond, hv])

/-- The two texts under the same options are joined by the terminator of the options. -/
theorem ReadOptions.joins (options : ReadOptions) (first second : String) :
    Source.Joins (options.source (first ++ String.ofList options.ending.terminator ++ second))
      (options.source first) (options.source second) where
  text := by simp [ReadOptions.source, Source.chars]
  first := rfl
  second := rfl

theorem uncommented_append (ts us : List Token) : uncommented (ts ++ us) = uncommented ts ++ uncommented us :=
  List.filter_append ..

theorem uncommented_moved (bytes lines : Nat) (ts : List Token) :
    uncommented (ts.map (Token.moved bytes lines)) = (uncommented ts).map (Token.moved bytes lines) := by
  rw [uncommented, List.filter_map]
  rfl

/-- Two texts that a line terminator joins are read as the items of the first one and then those of the
second one, moved by the tokens and the lines of the first one. -/
theorem readText_append {first second : String} {options : ReadOptions} {ua ub : SourceUnit}
    (ha : (readText first options).result = .ok ua) (hb : (readText second options).result = .ok ub) :
    ∃ unit, (readText (first ++ String.ofList options.ending.terminator ++ second) options).result = .ok unit ∧
      unit.items = ua.items ++ ub.items.map (Item.map (Site.moved ua.code.length ua.source.lineCount)) := by
  have hjoins := options.joins first second
  obtain ⟨ts, htokens, hread⟩ := readText_eq_ok ha
  obtain ⟨us, htokens', hread'⟩ := readText_eq_ok hb
  obtain ⟨ts, rfl, -, heof, -⟩ := tokens_eq_ok htokens
  obtain ⟨us, rfl, -⟩ := tokens_eq_ok htokens'
  obtain ⟨is, c', hgives, rfl⟩ := Arena.read_eq_ok hread
  obtain ⟨js, d', hgives', rfl⟩ := Arena.read_eq_ok hread'
  rw [Arena.tokens_ofTokens rfl] at hgives hgives'
  have hlength := length_le_of_untilEnd hgives
  have hlength' := length_le_of_untilEnd hgives'
  rw [Cursor.root_after rfl rfl] at hlength hlength'
  -- the joined text, and what stands in front of its second part
  let whole := options.source (first ++ String.ofList options.ending.terminator ++ second)
  let bytes := Source.Joins.gap whole (options.source first)
  let lines := (options.source first).lineCount
  let found := is ++ js.map (Item.map (Site.moved (uncommented ts).length lines))
  have hmark : whole.endMark.kind = .eof := rfl
  let tokens := ts ++ us.map (Token.moved bytes lines) ++ [whole.endMark]
  have hwhole : whole.tokens = .ok tokens := hjoins.tokens_eq htokens htokens'
  obtain ⟨e, hchain⟩ := chain_joined bytes lines rfl rfl hmark (chain_of_untilEnd hgives) (chain_of_untilEnd hgives')
  have harena : (Arena.ofTokens whole tokens).tokens =
      uncommented (ts ++ us.map (Token.moved bytes lines)) ++ [whole.endMark] := Arena.tokens_ofTokens hmark
  rw [← uncommented_moved, ← uncommented_append, ← harena] at hchain
  have hroot := Cursor.root_after harena hmark
  have hfew : found.length ≤ (Cursor.root (Arena.ofTokens whole tokens).tokens).after.length := by
    rw [hroot, uncommented_append, uncommented_moved, List.length_append, List.length_append, List.length_map,
      List.length_map]
    omega
  have hresult := Arena.read_of_yields (yields_untilEnd hchain hfew)
  refine ⟨⟨Arena.ofTokens whole tokens, found⟩, by rw [readText_of_tokens hwhole, hresult], ?_⟩
  rw [SourceUnit.code_ofTokens rfl heof]
  rfl

/-- A labelled module with a comment behind it, and a skipped region before another module. -/
theorem readText_append_labelled :
    let options : ReadOptions := { ending := .crlf }
    let first := "module a;\r\nendmodule : a // last"
    let second := "\x60ifdef X\r\n\x60endif\r\nmodule b(input c); wire w; endmodule"
    ∃ ua ub, (readText first options).result = .ok ua ∧ (readText second options).result = .ok ub ∧
      (ua.code.length, ua.source.lineCount) = (6, 2) ∧ ub.items.map (fun i => i.tag.range) = [⟨0, 3⟩, ⟨3, 14⟩] ∧
      ∃ unit, (readText (first ++ String.ofList options.ending.terminator ++ second) options).result = .ok unit ∧
        unit.items = ua.items ++ ub.items.map (Item.map (Site.moved ua.code.length ua.source.lineCount)) := by
  intro options first second
  have hfirst : ((readText first options).result.toOption.map fun unit => (unit.code.length, unit.source.lineCount)) =
      some (6, 2) := by decide +kernel
  have hsecond : ((readText second options).result.toOption.map fun unit => unit.items.map fun i => i.tag.range) =
      some [⟨0, 3⟩, ⟨3, 14⟩] := by decide +kernel
  cases ha : (readText first options).result with
  | error e =>
    rw [ha] at hfirst
    cases hfirst
  | ok ua =>
    cases hb : (readText second options).result with
    | error e =>
      rw [hb] at hsecond
      cases hsecond
    | ok ub =>
      rw [ha] at hfirst
      rw [hb] at hsecond
      exact ⟨ua, ub, rfl, rfl, Option.some.inj hfirst, Option.some.inj hsecond, readText_append ha hb⟩

end SystemVerilog
