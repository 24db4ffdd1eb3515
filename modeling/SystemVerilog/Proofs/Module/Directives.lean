import SystemVerilog.Proofs.Module.Spelling
import SystemVerilog.Proofs.Reading.Modules
import SystemVerilog.Proofs.Statement.Parts

/-!
# Directives are read

The arguments of every directive but a conditional region are read from the tokens that spell them.
`Records` says of a recorder what `Reads` says of a parser, whatever was noticed before.
-/

namespace SystemVerilog

open SystemVerilog.Parser

/-- A recorder leads from `c` to `c'`, whatever was noticed before, and gives what `f` takes to `b`. -/
def Records {α β : Type} (p : Recorder α) (f : α → β) (c : Cursor) (b : β) (c' : Cursor) : Prop :=
  ∃ a, Reader.Yields p c a c' ∧ f a = b

section Directives

variable {c c' : Cursor} {ts us : List Token} {t : Token}

theorem Records.tagged {α β : Type} {p : Recorder (Site → α)} {f : α → β} {b : β}
    (h : ∃ node, Reader.Yields p c node c' ∧ ∀ tag, f (node tag) = b) :
    Records (SystemVerilog.tagged p) f c b c' := by
  obtain ⟨node, hread, hnode⟩ := h
  exact ⟨_, yields_tagged hread rfl, hnode _⟩

/-! ### Arguments -/

theorem stringArgument_complete {interior : String} (expected : String) (hs : c.Steps ts c')
    (h : SpellsQuoted interior ts) : stringArgument expected c = .ok (interior, c') := by
  obtain ⟨t, rfl, ht, rfl⟩ := h
  exact map_of_ok (expectAs_eq_ok.2 ⟨_, hs.after, ht, hs.eq_skip⟩)

theorem timeValue_complete {time : TimeValue} (hs : c.Steps ts c') (h : time.Spells ts) :
    timeValue c = .ok (time, c') := by
  obtain ⟨m, u, rfl, hm, hmagnitude, hu⟩ := h
  obtain ⟨hafter, hs⟩ := hs.of_cons
  have hliteral : expectAs .literal "time magnitude" c = .ok (m, c.skip 1) :=
    expectAs_eq_ok.2 ⟨_, hafter, hm, rfl⟩
  have hunit : demandBy TimeUnit.ofKind? "time unit" (c.skip 1) = .ok (time.unit, c') :=
    demandBy_eq_ok.2 ⟨u, _, hs.after, hu, hs.eq_skip⟩
  rw [timeValue, bind_of_ok hliteral]
  simp only [hmagnitude]
  exact map_of_ok hunit

/-- The name of a directive tells which arguments follow it. -/
theorem directiveArguments_complete {kind : DirectiveKind Unit} (hs : c.Steps us c')
    (hname : t.text ∈ kind.names) (hspell : kind.SpellsArguments us) (hcan : kind.Canonical) :
    Records (directiveArguments t) (DirectiveKind.map fun _ => ()) c kind c' := by
  unfold directiveArguments
  cases kind with
  | beginKeywords version =>
    have hread := stringArgument_complete "keyword version string" hs hspell
    refine ⟨.beginKeywords version, ?_, rfl⟩
    simp only [DirectiveKind.names, List.mem_cons, List.not_mem_nil, or_false] at hname
    rcases hname with hname | hname <;>
    · rw [hname]
      exact Reader.bind (Reader.lift hread) (Reader.pure _ c')
  | includeFile path =>
    have hread := stringArgument_complete "include path string" hs hspell
    rw [List.mem_singleton.1 hname]
    exact ⟨.includeFile path, Reader.bind (Reader.lift hread) (Reader.pure _ c'), rfl⟩
  | timescale unit precision =>
    obtain ⟨vs, d, ws, rfl, hunit, hd, hprecision⟩ := hspell
    obtain ⟨c₁, hs₁, hs₂⟩ := hs.of_append
    obtain ⟨hafter, hs₂⟩ := hs₂.of_cons
    have hdivision : expectAs (.op .div) "'/' between time unit and precision" c₁ = .ok (d, c₁.skip 1) :=
      expectAs_eq_ok.2 ⟨_, hafter, hd, rfl⟩
    rw [List.mem_singleton.1 hname]
    refine ⟨.timescale unit precision, ?_, rfl⟩
    exact Reader.bind (Reader.lift (timeValue_complete hs₁ hunit)) <|
      Reader.bind (Reader.lift hdivision) <|
        Reader.bind (Reader.lift (timeValue_complete hs₂ hprecision)) (Reader.pure _ c')
  | defaultNettype netType =>
    obtain ⟨u, rfl, hu, rfl⟩ := hspell
    have hword : u.kind.isWord = true := by
      rcases hu with hu | hu
      · rw [hu]
        rfl
      · cases hkind : u.kind with
        | word k => rfl
        | _ =>
          rw [hkind] at hu
          cases hu
    have hread : demandWith TokenKind.isWord "net type" c = .ok (u, c') :=
      demandWith_eq_ok.2 ⟨_, hs.after, hword, hs.eq_skip⟩
    rw [List.mem_singleton.1 hname]
    exact ⟨.defaultNettype u.text, Reader.bind (Reader.lift hread) (Reader.pure _ c'), rfl⟩
  | unconnectedDrive pull =>
    obtain ⟨u, rfl, hu⟩ := hspell
    have hpull : TokenKind.keywordIn? Keyword.isPull u.kind = some pull := by
      rw [hu]
      exact if_pos hcan
    have hread : demandBy (TokenKind.keywordIn? Keyword.isPull) "'pull0' or 'pull1'" c = .ok (pull, c') :=
      demandBy_eq_ok.2 ⟨u, _, hs.after, hpull, hs.eq_skip⟩
    rw [List.mem_singleton.1 hname]
    exact ⟨.unconnectedDrive pull, Reader.bind (Reader.lift hread) (Reader.pure _ c'), rfl⟩
  | endKeywords =>
    obtain rfl : us = [] := hspell
    obtain rfl := hs.of_nil
    refine ⟨.endKeywords, ?_, rfl⟩
    simp only [DirectiveKind.names, List.mem_cons, List.not_mem_nil, or_false] at hname
    rcases hname with hname | hname <;>
    · rw [hname]
      exact Reader.pure _ c'
  | conditional negated macroName skipped => exact hcan.elim
  | resetAll | cellDefine | endCellDefine | noUnconnectedDrive =>
    obtain rfl : us = [] := hspell
    obtain rfl := hs.of_nil
    rw [List.mem_singleton.1 hname]
    exact ⟨_, Reader.pure _ c', rfl⟩

/-- Directives are read wherever they stand. -/
theorem directive_complete {d : Directive Unit} (hs : c.Steps ts c') (hspell : d.kind.Spells ts)
    (hcan : d.kind.Canonical) : Records directive (Directive.map fun _ => ()) c d c' := by
  obtain ⟨t, us, rfl, ht, hname, hus⟩ := hspell
  obtain ⟨hafter, hs⟩ := hs.of_cons
  obtain ⟨kind, hread, hmap⟩ := directiveArguments_complete hs hname hus hcan
  refine ⟨_, yields_directive hafter ht hread, ?_⟩
  show Directive.mk () (kind.map fun _ => ()) = d
  rw [hmap]

end Directives

end SystemVerilog
