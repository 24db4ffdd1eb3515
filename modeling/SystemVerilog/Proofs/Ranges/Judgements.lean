import SystemVerilog.Proofs.Ranges.Rows
import SystemVerilog.Proofs.Reading.Readers

/-!
# What readers lay out

The judgements about a reader at a cursor are `Gathers` (what is read makes a row, which goes on from the
outlines gathered before and is related to the value), its special case `Lays` (the row is the outlines of
the value), `Builds` (what is read also holds a token) and `Forms` (the value is one node that covers
exactly what is read). Their rules follow the combinators.
-/

namespace SystemVerilog

open SystemVerilog.Parser

/-! ### Judgements -/

section Judgements

variable {m : Type → Type} [Monad m] [MonadStateOf Cursor m] [MonadLiftT Parser m] [Reader m]
  {α β : Type}

/-- What is read from the cursor on makes a row; with the outlines gathered before it stands in a
relation to the value. -/
def Gathers (ts : List Token) (c : Cursor) (acc : List Outline) (p : m α)
    (Q : List Outline → α → Prop) : Prop :=
  c.Sees ts → ∀ ⦃a c'⦄, Reader.Gives p c a c' → ∃ os, Advance ts c c' os ∧ Q (acc ++ os) a

/-- The outlines of the value make a row over what is read. -/
def Lays (ts : List Token) (c : Cursor) (p : m α) (out : α → List Outline) : Prop :=
  Gathers ts c [] p fun os a => os = out a

/-- At least one token is read. -/
def Moves (ts : List Token) (c : Cursor) (p : m α) : Prop :=
  c.Sees ts → ∀ ⦃a c'⦄, Reader.Gives p c a c' → c.position < c'.position

/-- A row is gathered, and at least one token read. -/
structure Builds (ts : List Token) (c : Cursor) (acc : List Outline) (p : m α)
    (Q : List Outline → α → Prop) : Prop where
  gathers : Gathers ts c acc p Q
  moves : Moves ts c p

/-- A node that covers exactly the tokens between two cursors. -/
structure Spans (ts : List Token) (c c' : Cursor) (o : Outline) : Prop where
  moved : ∃ n, c' = c.skip n
  range : o.site.range = ⟨c.position, c'.position⟩
  exact : o.Exact ts

/-- A token is read, and no node. -/
structure Takes (ts : List Token) (c : Cursor) (p : m α) : Prop where
  lays : Lays ts c p fun _ => []
  moves : Moves ts c p

/-- The value is one node that covers exactly what is read. -/
def Forms (ts : List Token) (c : Cursor) (p : m α) (out : α → Outline) : Prop :=
  c.Sees ts → ∀ ⦃a c'⦄, Reader.Gives p c a c' → Spans ts c c' (out a)

/-- The outlines, in some order, are the children of the node that is made when its site is known. -/
def ChildrenOf (out : α → Outline) (os : List Outline) (f : Site → α) : Prop :=
  ∃ children, os.Perm children ∧ ∀ site, out (f site) = .node site children

end Judgements

theorem ChildrenOf.of_eq {α : Type} {out : α → Outline} {os : List Outline} {f : Site → α}
    (h : ∀ site, out (f site) = .node site os) : ChildrenOf out os f := ⟨os, .refl os, h⟩

namespace Spans

variable {ts : List Token} {c c' : Cursor} {o : Outline}

theorem start (h : Spans ts c c' o) : o.start = c.position := by rw [Outline.start, h.range]

theorem stop (h : Spans ts c c' o) : o.stop = c'.position := by rw [Outline.stop, h.range]

theorem advance (h : Spans ts c c' o) : Advance ts c c' [o] :=
  ⟨h.moved, .one h.exact (Nat.le_of_eq h.start.symm) (Nat.le_of_eq h.stop)⟩

theorem lt (h : Spans ts c c' o) : c.position < c'.position := by
  rw [← h.start, ← h.stop]
  exact h.exact.nonempty

end Spans

/-! ### Rules -/

section Rules

variable {m : Type → Type} [Monad m] [MonadStateOf Cursor m] [MonadLiftT Parser m] [Reader m]
  {α β : Type} {ts : List Token} {c : Cursor} {acc : List Outline} {p : m α} {f : α → m β}
  {Q : List Outline → β → Prop} {R : List Outline → α → Prop} {out : α → List Outline}

theorem Gathers.pure {a : α} (h : R acc a) : Gathers ts c acc (Pure.pure a : m α) R := by
  intro _ b c' hread
  obtain ⟨rfl, rfl⟩ := Reader.pure_inv hread
  exact ⟨[], .refl _, by rwa [List.append_nil]⟩

theorem Gathers.bind (hp : Gathers ts c [] p R)
    (hf : ∀ a os c₁, R os a → Gathers ts c₁ (acc ++ os) (f a) Q) : Gathers ts c acc (p >>= f) Q := by
  intro hc b c' hread
  obtain ⟨a, c₁, hreadp, hreadf⟩ := Reader.bind_inv hread
  obtain ⟨os, hos, hR⟩ := hp hc hreadp
  obtain ⟨os', hos', hQ⟩ := hf a os c₁ hR (hos.sees hc) hreadf
  exact ⟨os ++ os', hos.trans hos', by rwa [← List.append_assoc]⟩

/-- Something is read whose outlines are known. -/
theorem Gathers.step (hp : Lays ts c p out) (hf : ∀ a c₁, Gathers ts c₁ (acc ++ out a) (f a) Q) :
    Gathers ts c acc (p >>= f) Q :=
  .bind hp fun a _ c₁ hos => hos ▸ hf a c₁

/-- Something is read that holds no node. -/
theorem Gathers.silent (hp : Lays ts c p fun _ => []) (hf : ∀ a c₁, Gathers ts c₁ acc (f a) Q) :
    Gathers ts c acc (p >>= f) Q :=
  .step hp fun a c₁ => by rw [List.append_nil]; exact hf a c₁

theorem Gathers.mono {R' : List Outline → α → Prop} (h : Gathers ts c acc p R)
    (hR : ∀ os a, R os a → R' os a) : Gathers ts c acc p R' := by
  intro hc a c' hread
  obtain ⟨os, hos, hQ⟩ := h hc hread
  exact ⟨os, hos, hR _ a hQ⟩

/-- What is read is related to the value on its own, whatever was gathered before. -/
theorem Gathers.frame {R' : List Outline → α → Prop} (h : Gathers ts c [] p R)
    (hR : ∀ os a, R os a → R' (acc ++ os) a) : Gathers ts c acc p R' := by
  intro hc a c' hread
  obtain ⟨os, hos, hQ⟩ := h hc hread
  exact ⟨os, hos, hR os a hQ⟩

theorem Forms.lays {out : α → Outline} (h : Forms ts c p out) : Lays ts c p fun a => [out a] :=
  fun hc _ _ hread => ⟨_, (h hc hread).advance, rfl⟩

theorem Forms.moves {out : α → Outline} (h : Forms ts c p out) : Moves ts c p :=
  fun hc _ _ hread => (h hc hread).lt

/-- A node is read. -/
theorem Gathers.node {g : α → Outline} (hp : Forms ts c p g)
    (hf : ∀ a c₁, Gathers ts c₁ (acc ++ [g a]) (f a) Q) : Gathers ts c acc (p >>= f) Q :=
  .step hp.lays hf

theorem Lays.advance {a : α} {c' : Cursor} (h : Lays ts c p out) (hc : c.Sees ts)
    (hread : Reader.Gives p c a c') : Advance ts c c' (out a) := by
  obtain ⟨os, hos, rfl⟩ := h hc hread
  exact hos

/-- What is read first holds a token. -/
theorem Builds.lead (hm : Moves ts c p) (hp : Lays ts c p out)
    (hf : ∀ a c₁, Gathers ts c₁ (acc ++ out a) (f a) Q) : Builds ts c acc (p >>= f) Q := by
  refine ⟨.step hp hf, fun hc b c' hread => ?_⟩
  obtain ⟨a, c₁, hreadp, hreadf⟩ := Reader.bind_inv hread
  have hadvance := hp.advance hc hreadp
  obtain ⟨os, hos, -⟩ := hf a c₁ (hadvance.sees hc) hreadf
  exact Nat.lt_of_lt_of_le (hm hc hreadp) hos.position_le

/-- A part whose outlines are known is read first, and it holds a token. -/
theorem Builds.part {g : α → List Outline} (hp : Builds ts c [] p fun os a => os = g a)
    (hf : ∀ a c₁, Gathers ts c₁ (acc ++ g a) (f a) Q) : Builds ts c acc (p >>= f) Q :=
  .lead hp.moves hp.gathers hf

/-- A node is read first. -/
theorem Builds.node {g : α → Outline} (hp : Forms ts c p g)
    (hf : ∀ a c₁, Gathers ts c₁ (acc ++ [g a]) (f a) Q) : Builds ts c acc (p >>= f) Q :=
  .lead hp.moves hp.lays hf

/-- What is read later holds a token. -/
theorem Builds.step (hp : Lays ts c p out) (hf : ∀ a c₁, Builds ts c₁ (acc ++ out a) (f a) Q) :
    Builds ts c acc (p >>= f) Q := by
  refine ⟨.step hp fun a c₁ => (hf a c₁).gathers, fun hc b c' hread => ?_⟩
  obtain ⟨a, c₁, hreadp, hreadf⟩ := Reader.bind_inv hread
  have hadvance := hp.advance hc hreadp
  have hlt := (hf a c₁).moves (hadvance.sees hc) hreadf
  exact Nat.lt_of_le_of_lt hadvance.position_le hlt

theorem Builds.silent (hp : Lays ts c p fun _ => []) (hf : ∀ a c₁, Builds ts c₁ acc (f a) Q) :
    Builds ts c acc (p >>= f) Q :=
  .step hp fun a c₁ => by rw [List.append_nil]; exact hf a c₁

/-- A token is read first. -/
theorem Builds.token (hp : Takes ts c p) (hf : ∀ a c₁, Gathers ts c₁ acc (f a) Q) :
    Builds ts c acc (p >>= f) Q :=
  .lead hp.moves hp.lays fun a c₁ => by rw [List.append_nil]; exact hf a c₁

/-- A parser among recorders. -/
theorem Gathers.lift {p : Parser α} (h : Gathers ts c acc p R) :
    Gathers ts c acc (monadLift p : m α) R :=
  fun hc _ _ hread => h hc (Reader.lift_inv hread)

theorem Lays.lift {p : Parser α} (h : Lays ts c p out) : Lays ts c (monadLift p : m α) out :=
  Gathers.lift h

theorem Moves.lift {p : Parser α} (h : Moves ts c p) : Moves ts c (monadLift p : m α) :=
  fun hc _ _ hread => h hc (Reader.lift_inv hread)

theorem Takes.lift {p : Parser α} (h : Takes ts c p) : Takes ts c (monadLift p : m α) :=
  ⟨h.lays.lift, h.moves.lift⟩

theorem Forms.lift {p : Parser α} {out : α → Outline} (h : Forms ts c p out) :
    Forms ts c (monadLift p : m α) out :=
  fun hc _ _ hread => h hc (Reader.lift_inv hread)

/-- A parser that only looks comes before what reads a node. -/
theorem Forms.peek {p : Parser α} {out : β → Outline} {a : α} (hp : p c = .ok (a, c))
    (hf : Forms ts c (f a) out) : Forms ts c ((monadLift p : m α) >>= f) out := by
  intro hc b c' hread
  obtain ⟨a', c₁, hlook, hrest⟩ := Reader.bind_inv hread
  obtain ⟨rfl, rfl⟩ := Prod.mk.inj (Except.ok.inj (hp.symm.trans (Reader.lift_inv hlook)))
  exact hf hc hrest

theorem Forms.look {p : Parser α} {f : α → Parser β} {out : β → Outline} {a : α} (hp : p c = .ok (a, c))
    (hf : Forms ts c (f a) out) : Forms ts c (p >>= f) out := Forms.peek hp hf

/-- A node that is read is handed on, perhaps in another form. -/
theorem Forms.forward {out : α → Outline} {out' : β → Outline} (hp : Forms ts c p out)
    (hf : ∀ a c₁ b c', Reader.Gives (f a) c₁ b c' → c' = c₁ ∧ out' b = out a) :
    Forms ts c (p >>= f) out' := by
  intro hc b c' hread
  obtain ⟨a, c₁, hreadp, hreadf⟩ := Reader.bind_inv hread
  obtain ⟨rfl, hout⟩ := hf a c₁ b c' hreadf
  rw [hout]
  exact hp hc hreadp

/-- What is given the site of what was read is a node that covers it. -/
theorem Forms.tagged {p : m (Site → α)} {out : α → Outline}
    (h : Builds ts c [] p (ChildrenOf out)) : Forms ts c (SystemVerilog.tagged p) out := by
  intro hc a c' hread
  obtain ⟨node, hnode, rfl⟩ := tagged_inv hread
  obtain ⟨os, hos, children, hperm, hout⟩ := h.gathers hc hnode
  have hlt := h.moves hc hnode
  rw [List.nil_append] at hperm
  refine ⟨hos.moved, by rw [hout]; rfl, ?_⟩
  rw [hout]
  exact hos.node hc hperm hlt

end Rules

end SystemVerilog
