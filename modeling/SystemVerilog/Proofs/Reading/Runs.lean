import SystemVerilog.Grammar.Module
import SystemVerilog.Proofs.Reading.Readers

/-!
# Runs of recorders

A recorder that succeeds has kept some notices. `Recorder.Runs` tells with which notices it has started
and with which it has ended, and every combinator is opened from the outside in: a run of it is made of
runs of its parts, the later of which go on from the notices of the earlier.
-/

namespace SystemVerilog

open SystemVerilog.Parser

namespace Recorder

/-- The recorder leads from a cursor and the notices kept before to a value, a cursor and more notices. -/
def Runs {α : Type} (p : Recorder α) (c : Cursor) (ns : List Notice) (a : α) (c' : Cursor) (ns' : List Notice) :
    Prop := (p c).run ns = (.ok (a, c'), ns')

namespace Runs

variable {α β : Type} {p : Recorder α} {c c' : Cursor} {ns ns' : List Notice} {a : α}

theorem gives (h : Runs p c ns a c' ns') : Reader.Gives p c a c' := ⟨ns, ns', h⟩

theorem pure_inv {b : α} (h : Runs (Pure.pure a) c ns b c' ns') : b = a ∧ c' = c ∧ ns' = ns := by
  cases h
  exact ⟨rfl, rfl, rfl⟩

theorem bind_inv {f : α → Recorder β} {b : β} (h : Runs (p >>= f) c ns b c' ns') :
    ∃ a c₁ ns₁, Runs p c ns a c₁ ns₁ ∧ Runs (f a) c₁ ns₁ b c' ns' := by
  unfold Runs at h
  rw [run_bind] at h
  split at h
  · rename_i a c₁ ns₁ hp
    exact ⟨a, c₁, ns₁, hp, h⟩
  · cases h

theorem lift_inv {p : Parser α} (h : Runs (monadLift p) c ns a c' ns') : p c = .ok (a, c') ∧ ns' = ns := by
  obtain ⟨hp, hns⟩ := Prod.mk.inj h
  exact ⟨hp, hns.symm⟩

theorem get_inv {d : Cursor} (h : Runs (MonadState.get : Recorder Cursor) c ns d c' ns') :
    d = c ∧ c' = c ∧ ns' = ns := by
  cases h
  exact ⟨rfl, rfl, rfl⟩

theorem set_inv {part : Cursor} {u : PUnit} (h : Runs (set part : Recorder PUnit) c ns u c' ns') :
    c' = part ∧ ns' = ns := by
  cases h
  exact ⟨rfl, rfl⟩

theorem notice_inv {n : Notice} {u : Unit} (h : Runs (SystemVerilog.notice n) c ns u c' ns') :
    c' = c ∧ ns' = ns ++ [n] := by
  cases h
  exact ⟨rfl, rfl⟩

/-! ### Putting runs together -/

theorem pure (a : α) (c : Cursor) (ns : List Notice) : Runs (Pure.pure a) c ns a c ns := rfl

theorem bind {f : α → Recorder β} {b : β} {c₁ : Cursor} {ns₁ : List Notice} (hp : Runs p c ns a c₁ ns₁)
    (hf : Runs (f a) c₁ ns₁ b c' ns') : Runs (p >>= f) c ns b c' ns' := by
  unfold Runs at hp
  rw [Runs, run_bind, hp]
  exact hf

theorem lift {p : Parser α} (h : p c = .ok (a, c')) (ns : List Notice) : Runs (monadLift p) c ns a c' ns := by
  show (p c, ns) = _
  rw [h]

theorem get (c : Cursor) (ns : List Notice) : Runs (MonadState.get : Recorder Cursor) c ns c c ns := rfl

theorem notice (n : Notice) (c : Cursor) (ns : List Notice) :
    Runs (SystemVerilog.notice n) c ns () c (ns ++ [n]) := rfl

theorem tagged {p : Recorder (Site → α)} {node : Site → α} (h : Runs p c ns node c' ns')
    (ha : a = node ⟨c.location, c'.rangeFrom c.position⟩) : Runs (SystemVerilog.tagged p) c ns a c' ns' := by
  rw [ha]
  exact bind (get c ns) <| bind h <| bind (get c' ns') (pure _ c' ns')

/-! ### Sites and parts of the span -/

theorem tagged_inv {p : Recorder (Site → α)} (h : Runs (SystemVerilog.tagged p) c ns a c' ns') :
    ∃ node, Runs p c ns node c' ns' ∧ a = node ⟨c.location, c'.rangeFrom c.position⟩ := by
  obtain ⟨first, c₁, ns₁, hfirst, hrest⟩ := bind_inv h
  obtain ⟨rfl, rfl, rfl⟩ := get_inv hfirst
  obtain ⟨node, c₂, ns₂, hnode, hrest'⟩ := bind_inv hrest
  obtain ⟨last, c₃, ns₃, hlast, hpure⟩ := bind_inv hrest'
  obtain ⟨rfl, rfl, rfl⟩ := get_inv hlast
  obtain ⟨rfl, rfl, rfl⟩ := pure_inv hpure
  exact ⟨node, hnode, rfl⟩

theorem within_inv {part : Cursor} (h : Runs (within part p) c ns a c' ns') :
    (∃ c₁, Runs p part ns a c₁ ns') ∧ c' = c := by
  obtain ⟨outer, c₁, ns₁, hget, h₁⟩ := bind_inv h
  obtain ⟨rfl, rfl, rfl⟩ := get_inv hget
  obtain ⟨u, c₂, ns₂, hset, h₂⟩ := bind_inv h₁
  obtain ⟨rfl, rfl⟩ := set_inv hset
  obtain ⟨b, c₃, ns₃, hp, h₃⟩ := bind_inv h₂
  obtain ⟨u', c₄, ns₄, hset', h₄⟩ := bind_inv h₃
  obtain ⟨rfl, rfl⟩ := set_inv hset'
  obtain ⟨rfl, rfl, rfl⟩ := pure_inv h₄
  exact ⟨⟨c₃, hp⟩, rfl⟩

theorem enclosed_inv {opening closing : TokenKind} (h : Runs (enclosed opening closing p) c ns a c' ns') :
    ∃ n c₁, Runs p ((c.skip 1).ahead (n - 1)) ns a c₁ ns' ∧ c' = c.skip (n + 1) := by
  obtain ⟨part, c₁, ns₁, hpart, hwithin⟩ := bind_inv h
  obtain ⟨hinterior, rfl⟩ := lift_inv hpart
  obtain ⟨n, c₂, hdistance, hspan⟩ := bind_eq_ok.1 hinterior
  obtain ⟨rfl, -, -⟩ := closerDistance_inv hdistance
  obtain ⟨rfl, rfl⟩ := Prod.mk.inj (Except.ok.inj hspan)
  obtain ⟨⟨c₃, hread⟩, rfl⟩ := within_inv hwithin
  exact ⟨n, c₃, hread, rfl⟩

/-! ### Directives and modules -/

/-- A directive is read from its token and what that token calls for. -/
theorem directive_inv {d : Directive Site} (h : Runs SystemVerilog.directive c ns d c' ns') :
    ∃ t rest kind, c.after = t :: rest ∧ t.kind = .directive ∧
      Runs (directiveArguments t) (c.skip 1) ns kind c' ns' ∧ d = ⟨⟨c.location, c'.rangeFrom c.position⟩, kind⟩ := by
  obtain ⟨node, hnode, rfl⟩ := tagged_inv h
  obtain ⟨t, c₁, ns₁, ht, hrest⟩ := bind_inv hnode
  obtain ⟨hexpect, rfl⟩ := lift_inv ht
  obtain ⟨rest, hafter, hkind, rfl⟩ := expect_eq_ok.1 hexpect
  obtain ⟨kind, c₂, ns₂, harguments, hpure⟩ := bind_inv hrest
  obtain ⟨rfl, rfl, rfl⟩ := pure_inv hpure
  exact ⟨t, rest, kind, hafter, hkind, harguments, rfl⟩

theorem directive {t : Token} {rest : List Token} {kind : DirectiveKind Site} (hafter : c.after = t :: rest)
    (hkind : t.kind = .directive) (h : Runs (directiveArguments t) (c.skip 1) ns kind c' ns') :
    Runs SystemVerilog.directive c ns ⟨⟨c.location, c'.rangeFrom c.position⟩, kind⟩ c' ns' :=
  tagged (bind (lift (expect_eq_ok.2 ⟨rest, hafter, hkind, rfl⟩) ns) <| bind h (pure _ c' ns')) rfl

/-- The header and the body stand before the closing word, the label behind it; what is noticed is what is
noticed in the body, and then that the module has been read. -/
theorem moduleItem_inv {depth : Depth} {m : Module Site} (h : Runs (moduleItem depth) c ns m c' ns') :
    ∃ n header c₁ body c₂ ns₁, closerDistance (.word .kwModule) (.word .kwEndModule) c = .ok (n, c) ∧
      moduleHeader (c.ahead n) = .ok (header, c₁) ∧ Runs (moduleBody depth) c₁ ns body c₂ ns₁ ∧
      endLabel (some header.name) (c.skip (n + 1)) = .ok ((), c') ∧
      m = ⟨⟨c.location, c'.rangeFrom c.position⟩, header.name, header.params, header.ports, body⟩ ∧
      ns' = ns₁ ++ [.moduleRead header.name body.length] := by
  obtain ⟨node, hnode, rfl⟩ := tagged_inv h
  obtain ⟨part, c₁, ns₁, hpart, h₁⟩ := bind_inv hnode
  obtain ⟨hspan, rfl⟩ := lift_inv hpart
  obtain ⟨⟨header, body⟩, c₂, ns₂, hwithin, h₂⟩ := bind_inv h₁
  obtain ⟨u, c₃, ns₃, hlabel, h₃⟩ := bind_inv h₂
  obtain ⟨hlabel', rfl⟩ := lift_inv hlabel
  obtain ⟨u', c₄, ns₄, hnotice, hpure⟩ := bind_inv h₃
  obtain ⟨rfl, rfl⟩ := notice_inv hnotice
  obtain ⟨rfl, rfl, rfl⟩ := pure_inv hpure
  obtain ⟨n, c₅, hdistance, hahead⟩ := bind_eq_ok.1 hspan
  obtain ⟨rfl, -, -⟩ := closerDistance_inv hdistance
  obtain ⟨rfl, rfl⟩ := Prod.mk.inj (Except.ok.inj hahead)
  obtain ⟨⟨c₆, hread⟩, rfl⟩ := within_inv hwithin
  obtain ⟨header', c₇, ns₅, hheader, hread'⟩ := bind_inv hread
  obtain ⟨hheader', rfl⟩ := lift_inv hheader
  obtain ⟨body', c₈, ns₆, hbody, hpair⟩ := bind_inv hread'
  obtain ⟨heq, rfl, rfl⟩ := pure_inv hpair
  obtain ⟨rfl, rfl⟩ := Prod.mk.inj heq
  exact ⟨n, header, c₇, body, c₆, ns₃, hdistance, hheader', hbody, hlabel', rfl, rfl⟩

end Runs

end Recorder

end SystemVerilog
