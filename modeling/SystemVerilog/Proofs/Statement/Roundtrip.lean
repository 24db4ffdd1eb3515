import SystemVerilog.Proofs.Reading.Units
import SystemVerilog.Proofs.Statement.Complete
import SystemVerilog.Proofs.Statement.Written

/-!
# Canonical statements are read back

A canonical statement that is written down in any style is read back as it is, and so is every text
whose tokens, comments apart, spell it, whatever blanks and comments stand between them.
-/

namespace SystemVerilog

/-! ### Reserved words in a source -/

/-- Reserved words in a source are spelled as they are. -/
theorem Source.faithful_of_mem_tokens {source : Source} {tokens : List Token}
    (h : source.tokens = .ok tokens) : ∀ t ∈ tokens, t.Faithful := by
  unfold Source.tokens at h
  split at h
  · rename_i ps hps
    cases h
    refine List.forall_mem_append.2 ⟨fun t ht => ?_, ?_⟩
    · obtain ⟨p, hp, rfl⟩ := List.mem_map.1 ht
      refine forall_piecesFrom (P := fun l => ∀ k, l.kind = .word k → l.text = k.spelling) ?_ hps p hp
      rintro c cs kind n - hscan k rfl
      exact scanText_word (scanLexeme_eq_ok.1 hscan)
    · refine List.forall_mem_singleton.2 fun k hk => ?_
      cases hk
  · cases h

theorem Source.faithful_of_mem_uncommented {source : Source} {ts : List Token} {mark : Token}
    (h : source.tokens = .ok (ts ++ [mark])) : ∀ t ∈ uncommented ts, t.Faithful := fun t ht =>
  faithful_of_mem_tokens h t (List.mem_append_left _ (List.mem_filter.1 ht).1)

/-- Written marks become no comments. -/
theorem uncommented_of_realizes {ms : List Mark} {before : Option Token} {ts : List Token}
    (hlexable : Lexable ms) (hreal : Realizes before ms ts) : uncommented ts = ts := by
  refine List.filter_eq_self.2 fun t ht => ?_
  obtain ⟨m, hm, hlexeme⟩ := hreal.mem ht
  have hkind : t.kind = m.kind := congrArg Lexeme.kind hlexeme
  rw [hkind, hlexable.uncommented m hm]
  rfl

/-! ### Arenas -/

/-- A source whose tokens spell a canonical statement is read as that statement. -/
theorem Arena.statement_of_spells {source : Source} {ts : List Token} {s : Statement Unit}
    (h : source.tokens = .ok (ts ++ [source.endMark])) (hspell : s.Spells (uncommented ts))
    (hcan : s.Canonical) : ∃ arena tree, Arena.ofSource source = .ok arena ∧
      arena.statement = .ok tree ∧ tree.erase = s := by
  obtain ⟨c', hs, hend⟩ := root_steps source ts
  obtain ⟨tree, hread, herase⟩ := Parser.statement_complete hs hspell hcan
    (Source.faithful_of_mem_uncommented h) (hend ▸ .nil)
  exact ⟨_, tree, ofSource_of_tokens h, Arena.readWith_eq_ok.2 ⟨c', hread, hend⟩, herase⟩

/-! ### Round trips -/

/-- A canonical statement is read back from its text in every style, and from every text whose tokens
spell it. -/
theorem statement_roundtrip {s : Statement Unit} (hcan : s.Canonical) (source : Source) :
    (s.Lexical → ∀ style, source.text = written (s.marks style) →
      ∃ arena tree, Arena.ofSource source = .ok arena ∧ arena.statement = .ok tree ∧ tree.erase = s) ∧
    ∀ ts, source.tokens = .ok (ts ++ [source.endMark]) → s.Spells (uncommented ts) →
      ∃ arena tree, Arena.ofSource source = .ok arena ∧ arena.statement = .ok tree ∧ tree.erase = s := by
  refine ⟨fun hlex style htext => ?_, fun ts htokens hspell => Arena.statement_of_spells htokens hspell hcan⟩
  have hlexable := Statement.lexable_marks style hlex hcan
  obtain ⟨ts, htokens, hreal⟩ := tokens_written htext hlexable.lexes
  refine Arena.statement_of_spells htokens ?_ hcan
  rw [uncommented_of_realizes hlexable hreal]
  exact Statement.spells_of_realizes hreal hlex hcan

/-- A conditional whose branches are an empty block with a label and a delayed assignment. -/
theorem statement_roundtrip_conditional :
    let wait : Statement Unit := .delayed () ⟨(), .literal () .integer "10", some .ns⟩
      (.expression () (.assignment () .nonBlocking (.identifier () "q") (.identifier () "d")))
    let s : Statement Unit :=
      .ifElse () (.identifier () "a") (.block () (some "idle") []) (some wait)
    let source : Source :=
      { path := "<input>", text := "if ( a ) begin : idle end : idle else # 10ns q <= d ;", ending := .lf }
    s.Canonical ∧ ∃ arena tree, Arena.ofSource source = .ok arena ∧ arena.statement = .ok tree ∧
      tree.erase = s := by
  intro wait s source
  have hplain {e : Expr Unit} (h : e.systemNames = []) : e.Unblocked := by
    intro name hname
    rw [h] at hname
    cases hname
  have hcan : s.Canonical := by
    refine ⟨⟨trivial, hplain rfl⟩, trivial, ⟨⟨⟨trivial, hplain rfl⟩, .inl ⟨(), "10", rfl⟩⟩, ?_, rfl⟩, fun _ => rfl⟩
    exact ⟨⟨by decide, trivial, trivial⟩, hplain rfl⟩
  have hten : IsLiteral .integer "10" := ⟨⟨'1', ['0'], rfl, rfl, rfl⟩, fun _ => rfl⟩
  have hname : ∀ name ∈ ["a", "q", "d", "idle"], isNameText name = true := by decide
  have hlex : s.Lexical := by
    refine ⟨?_, ⟨fun name hlabel => ?_, trivial⟩, ?_, ?_⟩
    · exact List.forall_mem_singleton.2 (hname "a" (by simp))
    · cases hlabel
      exact hname "idle" (by simp)
    · exact List.forall_mem_singleton.2 hten
    · exact List.forall_mem_cons.2 ⟨trivial, List.forall_mem_cons.2 ⟨hname "q" (by simp),
        List.forall_mem_singleton.2 (hname "d" (by simp))⟩⟩
  exact ⟨hcan, (statement_roundtrip hcan source).1 hlex ⟨true, true, false, false⟩ (by decide)⟩

end SystemVerilog
