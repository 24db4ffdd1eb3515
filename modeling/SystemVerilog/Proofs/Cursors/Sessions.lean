import SystemVerilog.Proofs.Cursors.Operations

/-!
# Sessions of cursors

A session starts with the cursor over all tokens. Any operation may be asked of any cursor of the session, and
the cursors over parts that are opened join it. However long a session goes on, every cursor of it stays inside its
span, and its span inside that of the cursor that it was opened from.
-/

namespace SystemVerilog

/-- A cursor of a session, and the number of the one that it was opened from. -/
structure Opened where
  cursor : Cursor
  origin : Nat

/-- The cursors of a session in the order in which they were opened. -/
abbrev Session := List Opened

/-- An operation that is asked of the cursor with some number. -/
structure Request where
  target : Nat
  operation : Operation

namespace Session

/-- The cursor over all tokens alone; it counts as its own origin. -/
def start (tokens : List Token) : Session := [⟨.root tokens, 0⟩]

/-- The cursors that an outcome adds to a session. -/
def added (outcome : Outcome) (target : Nat) : Session :=
  match outcome.part? with
  | some part => [⟨part, target⟩]
  | none => []

/-- Carries out a request; nothing happens if there is no such cursor. -/
def step (session : Session) (request : Request) : Session :=
  match session[request.target]? with
  | none => session
  | some opened =>
    let outcome := request.operation.run opened.cursor
    session.set request.target { opened with cursor := outcome.cursor } ++ added outcome request.target

/-- Carries out requests one after the other. -/
def serve (session : Session) (requests : List Request) : Session := requests.foldl step session

/-- Each cursor views the tokens, and its span lies inside that of its origin. -/
def Sound (tokens : List Token) (session : Session) : Prop :=
  ∀ (k : Nat) (opened : Opened), session[k]? = some opened → opened.cursor.Views tokens ∧
    ∃ origin : Opened, session[opened.origin]? = some origin ∧ origin.cursor.start ≤ opened.cursor.start ∧
      opened.cursor.finish ≤ origin.cursor.finish

/-- A cursor that has been opened is still there, with the same span and origin, and not moved back. -/
def Goes (session later : Session) : Prop :=
  ∀ (k : Nat) (opened : Opened), session[k]? = some opened → ∃ opened' : Opened, later[k]? = some opened' ∧
    opened'.origin = opened.origin ∧ opened'.cursor.bounds = opened.cursor.bounds ∧
    opened.cursor.position ≤ opened'.cursor.position

theorem Goes.refl (session : Session) : Goes session session :=
  fun _ opened h => ⟨opened, h, rfl, rfl, Nat.le_refl _⟩

theorem Goes.trans {s s' s'' : Session} (h : Goes s s') (h' : Goes s' s'') : Goes s s'' := by
  intro k opened hk
  obtain ⟨o', hk', horigin, hbounds, hle⟩ := h k opened hk
  obtain ⟨o'', hk'', horigin', hbounds', hle'⟩ := h' k o' hk'
  exact ⟨o'', hk'', horigin'.trans horigin, hbounds'.trans hbounds, Nat.le_trans hle hle'⟩

variable {tokens : List Token} {session : Session}

/-- One request changes one cursor, which goes forward in its span, and may open another. -/
theorem goes_step (hsound : Sound tokens session) (request : Request) : Goes session (session.step request) := by
  intro k opened hk
  unfold step
  cases htarget : session[request.target]? with
  | none => exact ⟨opened, hk, rfl, rfl, Nat.le_refl _⟩
  | some target =>
    have hsafe := request.operation.run_safe (hsound _ target htarget).1
    have hlt : k < session.length := (List.getElem?_eq_some_iff.1 hk).1
    dsimp only
    rw [List.getElem?_append_left (by rw [List.length_set]; exact hlt)]
    by_cases hkt : request.target = k
    · subst hkt
      obtain rfl : target = opened := Option.some.inj (htarget.symm.trans hk)
      rw [List.getElem?_set_self hlt]
      exact ⟨_, rfl, rfl, hsafe.bounds, hsafe.forward⟩
    · rw [List.getElem?_set_ne hkt]
      exact ⟨opened, hk, rfl, rfl, Nat.le_refl _⟩

/-- A cursor behind a request has been there before, with the same span, or it has been opened by the request. -/
theorem step_inv (hsound : Sound tokens session) {request : Request} {k : Nat} {opened : Opened}
    (h : (session.step request)[k]? = some opened) : opened.cursor.Views tokens ∧
      ((∃ before : Opened, session[k]? = some before ∧ opened.origin = before.origin ∧
        opened.cursor.bounds = before.cursor.bounds) ∨
      ∃ target : Opened, session[request.target]? = some target ∧ opened.origin = request.target ∧
        target.cursor.start ≤ opened.cursor.start ∧ opened.cursor.finish ≤ target.cursor.finish) := by
  unfold step at h
  cases htarget : session[request.target]? with
  | none =>
    rw [htarget] at h
    exact ⟨(hsound k opened h).1, .inl ⟨opened, h, rfl, rfl⟩⟩
  | some target =>
    have hsafe := request.operation.run_safe (hsound _ target htarget).1
    rw [htarget] at h
    dsimp only at h
    by_cases hk : k < session.length
    · rw [List.getElem?_append_left (by rw [List.length_set]; exact hk)] at h
      by_cases hkt : request.target = k
      · subst hkt
        rw [List.getElem?_set_self hk] at h
        obtain rfl := Option.some.inj h
        exact ⟨hsafe.views, .inl ⟨target, htarget, rfl, hsafe.bounds⟩⟩
      · rw [List.getElem?_set_ne hkt] at h
        exact ⟨(hsound k opened h).1, .inl ⟨opened, h, rfl, rfl⟩⟩
    · rw [List.getElem?_append_right (by rw [List.length_set]; omega)] at h
      have hmem := List.mem_of_getElem? h
      unfold added at hmem
      split at hmem
      · rename_i part hpart
        obtain rfl := List.mem_singleton.1 hmem
        obtain ⟨hviews, hstart, hfinish⟩ := hsafe.part part hpart
        exact ⟨hviews, .inr ⟨target, rfl, rfl, hstart, hfinish⟩⟩
      · cases hmem

/-- One request keeps a session sound. -/
theorem sound_step (hsound : Sound tokens session) (request : Request) : Sound tokens (session.step request) := by
  intro k opened hk
  have hgoes := goes_step hsound request
  obtain ⟨hviews, ⟨before, hbefore, horigin, hbounds⟩ | ⟨target, htarget, horigin, hstart, hfinish⟩⟩ :=
    step_inv hsound hk
  · obtain ⟨origin, hthere, hle, hle'⟩ := (hsound k before hbefore).2
    obtain ⟨origin', hthere', -, hspan, -⟩ := hgoes _ origin hthere
    obtain ⟨hs, hf⟩ := TokenRange.mk.inj hbounds
    obtain ⟨hs', hf'⟩ := TokenRange.mk.inj hspan
    refine ⟨hviews, origin', by rw [horigin]; exact hthere', ?_, ?_⟩
    · rw [hs', hs]
      exact hle
    · rw [hf, hf']
      exact hle'
  · obtain ⟨target', hthere', -, hspan, -⟩ := hgoes _ target htarget
    obtain ⟨hs', hf'⟩ := TokenRange.mk.inj hspan
    refine ⟨hviews, target', by rw [horigin]; exact hthere', ?_, ?_⟩
    · rw [hs']
      exact hstart
    · rw [hf']
      exact hfinish

theorem sound_start (tokens : List Token) : Sound tokens (start tokens) := by
  intro k opened hk
  obtain ⟨rfl, rfl⟩ : k = 0 ∧ opened = ⟨.root tokens, 0⟩ := by
    cases k with
    | zero => exact ⟨rfl, (Option.some.inj hk).symm⟩
    | succ k => cases hk
  exact ⟨Cursor.views_root tokens, _, rfl, Nat.le_refl _, Nat.le_refl _⟩

/-- A whole session stays sound and goes forward. -/
theorem serve_sound (hsound : Sound tokens session) (requests : List Request) :
    Sound tokens (session.serve requests) ∧ Goes session (session.serve requests) := by
  induction requests generalizing session with
  | nil => exact ⟨hsound, .refl session⟩
  | cons request requests ih =>
    obtain ⟨hlater, hgoes⟩ := ih (sound_step hsound request)
    exact ⟨hlater, (goes_step hsound request).trans hgoes⟩

/-- A cursor of a session stands inside a part of the tokens and holds what that part holds, and the part lies
inside that of the cursor it was opened from. However the session goes on, the cursor keeps its part and does not
move back. What is asked of it next stays inside the part, or fails and leaves the cursor where it is. -/
structure Confined (tokens : List Token) (session : Session) (k : Nat) (opened : Opened) : Prop where
  inside : ∃ first cursor stop, first ≤ cursor ∧ cursor ≤ stop ∧ stop ≤ tokens.length ∧
    opened.cursor = .context tokens first cursor stop
  origin : ∃ origin : Opened, session[opened.origin]? = some origin ∧
    origin.cursor.start ≤ opened.cursor.start ∧ opened.cursor.finish ≤ origin.cursor.finish
  later : ∀ more : List Request, ∃ later : Opened, (session.serve more)[k]? = some later ∧
    later.origin = opened.origin ∧ later.cursor.bounds = opened.cursor.bounds ∧
    opened.cursor.position ≤ later.cursor.position
  next : ∀ operation : Operation, (operation.run opened.cursor).Safe tokens opened.cursor

/-- In every session over any tokens each cursor is confined. -/
theorem serve_confined (tokens : List Token) (requests : List Request) {k : Nat} {opened : Opened}
    (h : ((start tokens).serve requests)[k]? = some opened) :
    Confined tokens ((start tokens).serve requests) k opened := by
  have hsound : Sound tokens ((start tokens).serve requests) := (serve_sound (sound_start tokens) requests).1
  obtain ⟨hviews, horigin⟩ := hsound k opened h
  refine ⟨hviews, horigin, fun more => ?_, fun operation => operation.run_safe hviews⟩
  exact (serve_sound hsound more).2 k opened h

/-- The interior of a pair, where a search fails and a name is read, and a part that is asked for with indices far
outside of that interior. -/
theorem serve_confined_interior :
    let tokens : List Token := [⟨⟨.op .lParen, "("⟩, 0, ⟨1, 1⟩, ⟨1, 2⟩⟩, ⟨⟨.identifier, "a"⟩, 1, ⟨1, 2⟩, ⟨1, 3⟩⟩,
      ⟨⟨.op .rParen, ")"⟩, 2, ⟨1, 3⟩, ⟨1, 4⟩⟩, ⟨⟨.op .comma, ","⟩, 3, ⟨1, 4⟩, ⟨1, 5⟩⟩, ⟨⟨.eof, ""⟩, 4, ⟨1, 5⟩, ⟨1, 5⟩⟩]
    let requests : List Request := [⟨0, .enclosed (.op .lParen) (.op .rParen)⟩, ⟨1, .moveTo (.next (.op .comma))⟩,
      ⟨1, .expectName⟩, ⟨1, .span 0 9⟩]
    let session := (start tokens).serve requests
    session.map (fun o => (o.origin, o.cursor.bounds, o.cursor.position)) =
        [(0, ⟨0, 4⟩, 3), (0, ⟨1, 2⟩, 2), (1, ⟨1, 2⟩, 1)] ∧
      ∃ opened, session[2]? = some opened ∧ Confined tokens session 2 opened := by
  intro tokens requests session
  have hsession : session.map (fun o => (o.origin, o.cursor.bounds, o.cursor.position)) =
      [(0, ⟨0, 4⟩, 3), (0, ⟨1, 2⟩, 2), (1, ⟨1, 2⟩, 1)] := by decide
  have hlength : session.length = 3 := by simpa using congrArg List.length hsession
  have hthere : session[2]? = some session[2] := List.getElem?_eq_getElem (by omega)
  exact ⟨hsession, session[2], hthere, serve_confined tokens requests hthere⟩

end Session

end SystemVerilog
