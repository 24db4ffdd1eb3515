import SystemVerilog.Proofs.Faults.Contexts
import SystemVerilog.Proofs.Ranges.Tiling
import SystemVerilog.Proofs.Reading.Units

/-!
# Operations on cursors

What may be asked of a cursor, one operation at a time: to look at a token, to read one, to move onto one that is
sought, or to open a fresh cursor over a part of the span. `Operation.run` carries an operation out. In a context
every operation is safe: it stays inside the context and moves forward only, and one that is refused changes
nothing.
-/

namespace SystemVerilog

open SystemVerilog.Parser

/-! ### Operations and what they come to -/

/-- Which token ahead is sought. -/
inductive Search where
  /-- The next one of a kind. -/
  | next (kind : TokenKind)
  /-- The next one of a kind with so many pairs open around it. -/
  | atDepth (opening closing kind : TokenKind) (depth : Nat)
  /-- The next one of a kind outside all brackets that answers no question mark. -/
  | atTop (kind : TokenKind)

/-- The kind of the token that is sought. -/
def Search.kind : Search → TokenKind
  | next kind | atDepth _ _ kind _ | atTop kind => kind

/-- The distance to the token that is sought. -/
def Search.distance? : Search → List Token → Option Nat
  | next kind => distanceTo? kind
  | atDepth opening closing kind depth => distanceAtDepth? opening closing kind depth 0
  | atTop kind => distanceAtTop? kind 0 0

/-- What may be asked of a cursor. -/
inductive Operation where
  | current
  | last
  | token (index : Nat)
  | advance
  | consume
  | eat (kind : TokenKind)
  | expect (kind : TokenKind)
  | expectAs (kind : TokenKind) (expected : String)
  | expectName
  | expectEnd (expected : String)
  | moveTo (search : Search)
  | tryMoveTo (search : Search)
  | moveToCloser (opening closing : TokenKind)
  | enclosed (opening closing : TokenKind)
  | span (start stop : Nat)

/-- What an operation answers. -/
inductive Answer where
  | done
  | token (t : Token)
  | index (i : Nat)
  | nothing
  | refused (fault : Fault)

/-- Whether the answer is that the operation has failed. -/
def Answer.fails : Answer → Bool
  | nothing | refused _ => true
  | _ => false

/-- The answer that is a token, if there is one. -/
def Answer.ofToken? : Option Token → Answer
  | some t => token t
  | none => nothing

/-- The answer that is an index, if there is one. -/
def Answer.ofIndex? : Option Nat → Answer
  | some i => index i
  | none => nothing

/-- What an operation comes to: an answer, the cursor behind it, and perhaps a fresh cursor. -/
structure Outcome where
  answer : Answer
  cursor : Cursor
  part? : Option Cursor

/-- Something is looked at. -/
def Outcome.look (c : Cursor) (answer : Answer) : Outcome := ⟨answer, c, none⟩

/-- A parser is run. If it fails, the cursor is still the one that it was given. -/
def Outcome.ofParser {α : Type} (c : Cursor) (p : Parser α) (answer : α → Answer) : Outcome :=
  match p c with
  | .ok (a, c') => ⟨answer a, c', none⟩
  | .error fault => ⟨.refused fault, c, none⟩

/-- A pair is read: the answer is the index of its opener, and there is a fresh cursor over its interior. -/
def Outcome.ofInterior (c : Cursor) (opening closing : TokenKind) : Outcome :=
  match interior opening closing c with
  | .ok (part, c') => ⟨.index c.position, c', some part⟩
  | .error fault => ⟨.refused fault, c, none⟩

/-- Carries out an operation. -/
def Operation.run (c : Cursor) : Operation → Outcome
  | current => .look c (.ofToken? c.current?)
  | last => .look c (.ofToken? c.last?)
  | token index => .look c (.ofToken? (c.token? index))
  | advance => .ofParser c advance? .ofToken?
  | consume => .ofParser c Parser.consume .token
  | eat kind => .ofParser c (eat? kind) .ofToken?
  | expect kind => .ofParser c (Parser.expect kind) .token
  | expectAs kind expected => .ofParser c (Parser.expectAs kind expected) .token
  | expectName => .ofParser c Parser.expectName .token
  | expectEnd expected => .ofParser c (Parser.expectEnd expected) fun _ => .done
  | moveTo search => .ofParser c (Parser.moveTo search.distance? search.kind.describe) .index
  | tryMoveTo search => .ofParser c (moveTo? search.distance?) .ofIndex?
  | moveToCloser opening closing => .ofParser c (Parser.moveToCloser opening closing) .index
  | enclosed opening closing => .ofInterior c opening closing
  | span start stop => ⟨.done, c, some (c.span start stop)⟩

/-! ### Safety -/

/-- A cursor that stands inside a part of some tokens and holds what that part holds. -/
def Cursor.Views (tokens : List Token) (c : Cursor) : Prop :=
  ∃ start cursor stop, start ≤ cursor ∧ cursor ≤ stop ∧ stop ≤ tokens.length ∧ c = context tokens start cursor stop

/-- What an operation on a cursor comes to is safe: the cursor keeps its span and goes forward only, a failure
leaves it as it was, and all that is answered or opened lies inside the span. -/
structure Outcome.Safe (tokens : List Token) (c : Cursor) (o : Outcome) : Prop where
  views : o.cursor.Views tokens
  bounds : o.cursor.bounds = c.bounds
  forward : c.position ≤ o.cursor.position
  failure : o.answer.fails = true → o.cursor = c ∧ o.part? = none
  token : ∀ t, o.answer = .token t → ∃ i, c.start ≤ i ∧ i < c.finish ∧ tokens[i]? = some t
  index : ∀ i, o.answer = .index i → c.position ≤ i ∧ i < c.finish ∧ i < tokens.length
  part : ∀ part ∈ o.part?, part.Views tokens ∧ c.start ≤ part.start ∧ part.finish ≤ c.finish

variable {tokens : List Token} {c c' : Cursor}

/-! ### Contexts -/

namespace Cursor

variable {start cursor stop : Nat}

theorem context_finish (hstart : start ≤ cursor) (hcursor : cursor ≤ stop) (hstop : stop ≤ tokens.length) :
    (context tokens start cursor stop).finish = stop := by
  rw [finish, context_position hstart (by omega)]
  simp [context]
  omega

theorem context_tokens (hstart : start ≤ cursor) (hcursor : cursor ≤ stop) (hstop : stop ≤ tokens.length) :
    (context tokens start cursor stop).tokens = (tokens.take stop).drop start := by
  have hfront : tokens.take cursor = (tokens.take stop).take cursor := by
    rw [List.take_take, Nat.min_eq_left hcursor]
  have hle : start ≤ ((tokens.take stop).take cursor).length := by
    rw [List.length_take, List.length_take]
    omega
  rw [Cursor.tokens, context, List.reverse_reverse, hfront, ← List.drop_append_of_le_length hle,
    List.take_append_drop]

/-- Where a part of the span starts, the place in front of it is known from the tokens before. -/
theorem context_lead (hstart : start ≤ cursor) (hcursor : cursor ≤ stop) (hstop : stop ≤ tokens.length) {first : Nat}
    (hfirst : start ≤ first) (hlast : first ≤ stop) :
    (match first - start with
      | 0 => (context tokens start cursor stop).lead
      | n + 1 => ((context tokens start cursor stop).tokens[n]?.map fun t => t.stop).getD
        (context tokens start cursor stop).lead) = placeBefore tokens first := by
  split
  · rename_i hzero
    obtain rfl : first = start := by omega
    rfl
  · rename_i n hn
    obtain rfl : first = start + n + 1 := by omega
    have hlt : start + n < tokens.length := by omega
    rw [context_tokens hstart hcursor hstop, List.getElem?_drop, List.getElem?_take, if_pos (by omega), placeBefore,
      List.getElem?_eq_getElem hlt]
    rfl

/-- A part of a context is a context. -/
theorem context_span (hstart : start ≤ cursor) (hcursor : cursor ≤ stop) (hstop : stop ≤ tokens.length) (i j : Nat) :
    ∃ first last, start ≤ first ∧ first ≤ last ∧ last ≤ stop ∧
      (context tokens start cursor stop).span i j = context tokens first first last := by
  have hfinish : (context tokens start cursor stop).finish = stop := context_finish hstart hcursor hstop
  let first := max start (min i stop)
  let last := max first (min j stop)
  have hfirst : start ≤ first := by omega
  have hlast : first ≤ last := by omega
  have hend : last ≤ stop := by omega
  refine ⟨first, last, hfirst, hlast, hend, ?_⟩
  have hlead := context_lead hstart hcursor hstop hfirst (Nat.le_trans hlast hend)
  have hbefore : ((tokens.take first).drop first).reverse = [] := by simp
  have hafter : (((tokens.take stop).drop start).drop (first - start)).take (last - first) =
      (tokens.take last).drop first := by
    rw [List.drop_drop, List.take_drop, List.take_take]
    congr 2 <;> omega
  have htokens := context_tokens hstart hcursor hstop
  rw [htokens] at hlead
  have hpart : context tokens first first last = ⟨placeBefore tokens first, first, [],
      (((tokens.take stop).drop start).drop (first - start)).take (last - first)⟩ := by
    rw [context, hbefore, ← hafter]
  rw [hpart, ← hlead, span, hfinish, htokens]
  rfl

theorem Views.position_le (h : c.Views tokens) : c.start ≤ c.position ∧ c.finish ≤ tokens.length := by
  obtain ⟨start, cursor, stop, hstart, hcursor, hstop, rfl⟩ := h
  rw [context_position hstart (by omega), context_finish hstart hcursor hstop]
  exact ⟨hstart, hstop⟩

theorem Views.skip (h : c.Views tokens) (n : Nat) : (c.skip n).Views tokens := by
  obtain ⟨start, cursor, stop, hstart, hcursor, hstop, rfl⟩ := h
  exact ⟨start, min (cursor + n) stop, stop, by omega, by omega, hstop, context_skip hstart hcursor hstop n⟩

theorem Views.ahead (h : c.Views tokens) (n : Nat) :
    (c.ahead n).Views tokens ∧ c.start ≤ (c.ahead n).start ∧ (c.ahead n).finish ≤ c.finish := by
  obtain ⟨start, cursor, stop, hstart, hcursor, hstop, rfl⟩ := h
  have hpart := context_ahead hstart hcursor hstop n
  have hle : cursor ≤ min (cursor + n) stop := by omega
  have hlast : min (cursor + n) stop ≤ tokens.length := by omega
  rw [hpart, context_finish (Nat.le_refl cursor) hle hlast, context_finish hstart hcursor hstop]
  exact ⟨⟨cursor, cursor, _, Nat.le_refl cursor, hle, hlast, rfl⟩, hstart, Nat.min_le_right _ _⟩

theorem Views.span (h : c.Views tokens) (i j : Nat) :
    (c.span i j).Views tokens ∧ c.start ≤ (c.span i j).start ∧ (c.span i j).finish ≤ c.finish := by
  obtain ⟨start, cursor, stop, hstart, hcursor, hstop, rfl⟩ := h
  obtain ⟨first, last, hfirst, hle, hlast, hspan⟩ := context_span hstart hcursor hstop i j
  rw [hspan, context_finish (Nat.le_refl first) hle (by omega), context_finish hstart hcursor hstop]
  exact ⟨⟨first, first, last, Nat.le_refl first, hle, by omega, rfl⟩, hfirst, hlast⟩

/-- The tokens of a context are those at the indices of its span. -/
theorem Views.index_of_mem (h : c.Views tokens) {t : Token} (ht : t ∈ c.tokens) :
    ∃ i, c.start ≤ i ∧ i < c.finish ∧ tokens[i]? = some t := by
  obtain ⟨start, cursor, stop, hstart, hcursor, hstop, rfl⟩ := h
  rw [context_tokens hstart hcursor hstop] at ht
  obtain ⟨n, hn⟩ := List.getElem?_of_mem ht
  rw [List.getElem?_drop, List.getElem?_take] at hn
  split at hn
  · rw [context_finish hstart hcursor hstop]
    exact ⟨start + n, Nat.le_add_right _ _, ‹_›, hn⟩
  · cases hn

/-- The cursor over all tokens is a context. -/
theorem views_root (tokens : List Token) : (root tokens).Views tokens := by
  rcases List.eq_nil_or_concat tokens with rfl | ⟨ts, mark, rfl⟩
  · exact ⟨0, 0, 0, Nat.le_refl 0, Nat.le_refl 0, Nat.le_refl 0, rfl⟩
  · rw [List.concat_eq_append]
    by_cases hkind : mark.kind = .eof
    · refine ⟨0, 0, ts.length, Nat.le_refl 0, Nat.zero_le _, by simp, ?_⟩
      rw [root_eq hkind]
      simp [context, placeBefore]
    · refine ⟨0, 0, (ts ++ [mark]).length, Nat.le_refl 0, Nat.zero_le _, Nat.le_refl _, ?_⟩
      rw [root, context, List.take_length]
      simp [placeBefore, hkind]

end Cursor

/-! ### Searches -/

/-- What is sought stands at the distance that is found. -/
theorem Search.found {search : Search} {n : Nat} {ts : List Token} (h : search.distance? ts = some n) :
    ∃ t, ts[n]? = some t ∧ t.kind = search.kind := by
  cases search with
  | next kind =>
    obtain ⟨hlt, hkind, -⟩ := List.findIdx?_eq_some_iff_getElem.1 h
    exact ⟨ts[n], List.getElem?_eq_getElem hlt, by simpa [Search.kind] using hkind⟩
  | atDepth opening closing kind depth => exact distanceAtDepth?_found h
  | atTop kind => exact distanceAtTop?_found h

theorem Search.found_lt {search : Search} {n : Nat} {ts : List Token} (h : search.distance? ts = some n) :
    n < ts.length := by
  obtain ⟨t, ht, -⟩ := search.found h
  exact (List.getElem?_eq_some_iff.1 ht).1

/-! ### Each operation is safe -/

/-- An answer fits the move from one cursor to another: a token is one of the span, an index one that was still
ahead, and where there is no answer the cursor has not moved. -/
def Answer.Fits (c c' : Cursor) : Answer → Prop
  | done => True
  | token t => t ∈ c.tokens
  | index i => ∃ n, n < c.after.length ∧ i = c.position + n
  | nothing | refused _ => c' = c

theorem mem_tokens_of_after {t : Token} {rest : List Token} (h : c.after = t :: rest) : t ∈ c.tokens := by
  rw [Cursor.tokens, h]
  exact List.mem_append_right _ (List.mem_cons_self ..)

/-- What reads on with a fitting answer is safe. -/
theorem Outcome.Safe.of_skip {answer : Answer} {n : Nat} (hc : c.Views tokens) (h : answer.Fits c (c.skip n)) :
    Outcome.Safe tokens c ⟨answer, c.skip n, none⟩ := by
  refine ⟨hc.skip n, ?_, ?_, fun hfails => ⟨?_, rfl⟩, ?_, ?_, nofun⟩
  · show Cursor.bounds _ = _
    rw [Cursor.bounds, Cursor.finish_skip, Cursor.skip_start, Cursor.bounds]
  · show c.position ≤ (c.skip n).position
    rw [Cursor.position_skip]
    omega
  · cases answer with
    | nothing | refused fault => exact h
    | done | token t | index i => cases hfails
  · rintro t rfl
    exact hc.index_of_mem h
  · rintro i rfl
    obtain ⟨m, hm, rfl⟩ := h
    have hlength := hc.position_le.2
    have hfinish : c.finish = c.position + c.after.length := rfl
    exact ⟨Nat.le_add_right _ _, by omega, by omega⟩

theorem Outcome.Safe.of_look {answer : Answer} (hc : c.Views tokens) (h : answer.Fits c c) :
    (Outcome.look c answer).Safe tokens c := of_skip (n := 0) hc h

theorem Outcome.Safe.of_read {α : Type} {p : Parser α} {answer : α → Answer} (hc : c.Views tokens)
    (h : ∀ a c', p c = .ok (a, c') → ∃ n, c' = c.skip n ∧ (answer a).Fits c c') :
    (Outcome.ofParser c p answer).Safe tokens c := by
  unfold Outcome.ofParser
  cases hp : p c with
  | error fault => exact of_skip (n := 0) hc rfl
  | ok r =>
    obtain ⟨a, c'⟩ := r
    obtain ⟨n, rfl, hfits⟩ := h a c' hp
    exact of_skip hc hfits

section Safe

variable {kind opening closing : TokenKind} {search : Search}

/-- A token that is demanded is read. -/
theorem Outcome.Safe.demandWith (hc : c.Views tokens) (test : TokenKind → Bool) (expected : String) :
    (Outcome.ofParser c (Parser.demandWith test expected) .token).Safe tokens c := by
  refine .of_read hc fun t c' hread => ?_
  obtain ⟨rest, hafter, -, rfl⟩ := demandWith_eq_ok.1 hread
  exact ⟨1, rfl, mem_tokens_of_after hafter⟩

/-- The next token is read, if there is one. -/
theorem fits_current (c : Cursor) : (Answer.ofToken? c.current?).Fits c (c.skip 1) := by
  unfold Cursor.current?
  cases hafter : c.after with
  | nil =>
    show c.skip 1 = c
    rw [Cursor.skip, hafter]
  | cons t rest => exact mem_tokens_of_after hafter

theorem safe_advance (hc : c.Views tokens) : (Outcome.ofParser c advance? .ofToken?).Safe tokens c := by
  refine .of_read hc fun found c' hread => ?_
  obtain ⟨rfl, rfl⟩ := Prod.mk.inj (Except.ok.inj hread)
  exact ⟨1, rfl, fits_current c⟩

theorem safe_eat (hc : c.Views tokens) (kind : TokenKind) : ((Operation.eat kind).run c).Safe tokens c := by
  refine .of_read hc fun found c' hread => ?_
  unfold eat? at hread
  by_cases hcheck : c.check kind = true
  · rw [if_pos hcheck] at hread
    obtain ⟨rfl, rfl⟩ := Prod.mk.inj (Except.ok.inj hread)
    exact ⟨1, rfl, fits_current c⟩
  · rw [if_neg hcheck] at hread
    obtain ⟨rfl, rfl⟩ := Prod.mk.inj (Except.ok.inj hread)
    exact ⟨0, rfl, rfl⟩

theorem safe_expectEnd (hc : c.Views tokens) (expected : String) :
    ((Operation.expectEnd expected).run c).Safe tokens c := by
  refine .of_read hc fun u c' hread => ?_
  obtain ⟨-, rfl⟩ := expectEnd_eq_ok.1 hread
  exact ⟨0, rfl, trivial⟩

theorem safe_moveTo (hc : c.Views tokens) (search : Search) : ((Operation.moveTo search).run c).Safe tokens c := by
  refine .of_read hc fun i c' hread => ?_
  unfold Parser.moveTo at hread
  cases hfind : search.distance? c.after with
  | none =>
    rw [hfind] at hread
    exact absurd hread unexpectedEnd_ne_ok
  | some n =>
    rw [hfind] at hread
    obtain ⟨rfl, rfl⟩ := Prod.mk.inj (Except.ok.inj hread)
    exact ⟨n, rfl, n, search.found_lt hfind, rfl⟩

theorem safe_tryMoveTo (hc : c.Views tokens) (search : Search) :
    ((Operation.tryMoveTo search).run c).Safe tokens c := by
  refine .of_read hc fun found c' hread => ?_
  unfold moveTo? at hread
  cases hfind : search.distance? c.after with
  | none =>
    rw [hfind] at hread
    obtain ⟨rfl, rfl⟩ := Prod.mk.inj (Except.ok.inj hread)
    exact ⟨0, rfl, rfl⟩
  | some n =>
    rw [hfind] at hread
    obtain ⟨rfl, rfl⟩ := Prod.mk.inj (Except.ok.inj hread)
    exact ⟨n, rfl, n, search.found_lt hfind, rfl⟩

theorem closerDistance_lt {n : Nat} (h : closerDistance opening closing c = .ok (n, c')) :
    c' = c ∧ n < c.after.length := by
  obtain ⟨rfl, -, hn⟩ := closerDistance_inv h
  obtain ⟨us, u, vs, hafter, rfl, -, -⟩ := closer_of_distance hn
  refine ⟨rfl, ?_⟩
  rw [hafter, List.length_append, List.length_cons]
  omega

theorem safe_moveToCloser (hc : c.Views tokens) (opening closing : TokenKind) :
    ((Operation.moveToCloser opening closing).run c).Safe tokens c := by
  refine .of_read hc fun i c' hread => ?_
  obtain ⟨n, c₁, hdistance, hmove⟩ := bind_eq_ok.1 hread
  obtain ⟨rfl, hn⟩ := closerDistance_lt hdistance
  obtain ⟨rfl, rfl⟩ := Prod.mk.inj (Except.ok.inj hmove)
  exact ⟨n, rfl, n, hn, rfl⟩

theorem safe_interior (hc : c.Views tokens) (opening closing : TokenKind) :
    (Outcome.ofInterior c opening closing).Safe tokens c := by
  unfold Outcome.ofInterior
  cases hread : interior opening closing c with
  | error fault => exact .of_skip (n := 0) hc (show (Answer.refused fault).Fits c c from rfl)
  | ok r =>
    obtain ⟨part, c'⟩ := r
    obtain ⟨n, c₁, hdistance, hspan⟩ := bind_eq_ok.1 hread
    obtain ⟨rfl, hn⟩ := closerDistance_lt hdistance
    obtain ⟨rfl, rfl⟩ := Prod.mk.inj (Except.ok.inj hspan)
    have hopener : (Answer.index c₁.position).Fits c₁ (c₁.skip (n + 1)) := ⟨0, by omega, rfl⟩
    obtain ⟨hviews, hstart, hfinish⟩ := (hc.skip 1).ahead (n - 1)
    rw [Cursor.skip_start] at hstart
    rw [Cursor.finish_skip] at hfinish
    -- the fresh cursor apart, this is a move with an answer
    have hmove := Outcome.Safe.of_skip hc hopener
    refine ⟨hmove.views, hmove.bounds, hmove.forward, nofun, fun t ht => ?_, hmove.index, ?_⟩
    · cases ht
    · rintro part ⟨⟩
      exact ⟨hviews, hstart, hfinish⟩

theorem safe_span (hc : c.Views tokens) (start stop : Nat) :
    ((Operation.span start stop).run c).Safe tokens c := by
  refine ⟨hc, rfl, Nat.le_refl _, nofun, fun t ht => ?_, fun i hi => ?_, ?_⟩
  · cases ht
  · cases hi
  · rintro part ⟨⟩
    exact hc.span start stop

theorem fits_ofToken? {found : Option Token} (h : ∀ t ∈ found, t ∈ c.tokens) : (Answer.ofToken? found).Fits c c := by
  cases found with
  | none => rfl
  | some t => exact h t rfl

/-- Every operation on a context is safe. -/
theorem Operation.run_safe (hc : c.Views tokens) (operation : Operation) : (operation.run c).Safe tokens c := by
  cases operation with
  | current => exact .of_look hc (fits_ofToken? fun t ht => List.mem_append_right _ (List.mem_of_mem_head? ht))
  | last =>
    refine .of_look hc (fits_ofToken? fun t ht => ?_)
    exact List.mem_append_left _ (List.mem_reverse.2 (List.mem_of_mem_head? ht))
  | token index =>
    refine .of_look hc (fits_ofToken? fun t ht => ?_)
    unfold Cursor.token? at ht
    split at ht
    · cases ht
    · exact List.mem_of_getElem? ht
  | advance => exact safe_advance hc
  | consume => exact .demandWith hc (fun _ => true) "a token"
  | expect kind => exact .demandWith hc (· == kind) kind.describe
  | expectAs kind expected => exact .demandWith hc (· == kind) expected
  | expectName => exact .demandWith hc TokenKind.isName "identifier"
  | eat kind => exact safe_eat hc kind
  | expectEnd expected => exact safe_expectEnd hc expected
  | moveTo search => exact safe_moveTo hc search
  | tryMoveTo search => exact safe_tryMoveTo hc search
  | moveToCloser opening closing => exact safe_moveToCloser hc opening closing
  | enclosed opening closing => exact safe_interior hc opening closing
  | span start stop => exact safe_span hc start stop

end Safe

end SystemVerilog
