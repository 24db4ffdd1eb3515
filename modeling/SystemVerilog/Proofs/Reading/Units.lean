import SystemVerilog.Grammar.Unit
import SystemVerilog.Proofs.Reading.Readers

/-!
# From texts to items

A text is read by cutting it into tokens, leaving the comments out and reading items from the tokens in
front of the end mark. The lemmas here open that way and put it together again.
-/

namespace SystemVerilog

/-- The tokens that are no comments. -/
def uncommented (ts : List Token) : List Token := ts.filter fun t => !t.kind.isComment

variable {tokens ts : List Token} {mark : Token}

/-- The tokens of a source are read up to its end mark. -/
theorem Cursor.root_eq (hmark : mark.kind = .eof) : Cursor.root (ts ++ [mark]) =
    ⟨((ts ++ [mark]).head?.map fun t => t.location).getD .origin, 0, [], ts⟩ := by
  simp [Cursor.root, hmark]

theorem Cursor.root_after (htokens : tokens = ts ++ [mark]) (hmark : mark.kind = .eof) :
    (Cursor.root tokens).after = ts := by
  rw [htokens, root_eq hmark]

namespace Arena

variable {source : Source} {depth : Depth}

theorem tokens_ofTokens (hmark : mark.kind = .eof) :
    (ofTokens source (ts ++ [mark])).tokens = uncommented ts ++ [mark] := by
  have hlast : [mark].filter (fun t => !t.kind.isComment) = [mark] := by simp [hmark, TokenKind.isComment]
  rw [ofTokens, List.filter_append, hlast, uncommented]

theorem front_ofTokens (hmark : mark.kind = .eof) (heof : ∀ t ∈ ts, t.kind ≠ .eof) :
    (ofTokens source (ts ++ [mark])).tokens.filter (fun t => t.kind != .eof) = uncommented ts := by
  have hts : (uncommented ts).filter (fun t => t.kind != .eof) = uncommented ts :=
    List.filter_eq_self.2 fun t ht => by simpa using heof t (List.mem_filter.1 ht).1
  rw [tokens_ofTokens hmark, List.filter_append, hts]
  simp [hmark]

theorem ofSource_of_tokens {tokens : List Token} (h : source.tokens = .ok tokens) :
    ofSource source = .ok (ofTokens source tokens) := by
  rw [ofSource, h]
  rfl

/-- The grammar reads all tokens of a source that are no comments. -/
theorem root_steps (source : Source) (ts : List Token) : ∃ c',
    (Cursor.root (ofTokens source (ts ++ [source.endMark])).tokens).Steps (uncommented ts) c' ∧
      c'.after = [] := by
  have hmark : source.endMark.kind = .eof := rfl
  have hroot : (Cursor.root (ofTokens source (ts ++ [source.endMark])).tokens).after = uncommented ts :=
    Cursor.root_after (tokens_ofTokens hmark) hmark
  refine ⟨_, .of_after (by rw [hroot, List.append_nil]), ?_⟩
  rw [Cursor.skip_after, hroot, List.drop_length]

/-- A parser that is given a whole arena has to read it to the end. -/
theorem readWith_eq_ok {α : Type} {arena : Arena} {p : Parser α} {a : α} {expected : String} :
    arena.readWith (Parser.filling expected p) = .ok a ↔
      ∃ c', p (Cursor.root arena.tokens) = .ok (a, c') ∧ c'.after = [] := by
  rw [readWith]
  constructor
  · intro h
    split at h
    · rename_i a' c' hread
      cases h
      exact ⟨c', Parser.filling_eq_ok.1 hread⟩
    · cases h
  · rintro ⟨c', hread⟩
    rw [Parser.filling_eq_ok.2 hread]

theorem read_eq_ok {arena : Arena} {unit : SourceUnit} (h : (arena.read depth).result = .ok unit) :
    ∃ is c', Reader.Gives (items depth) (Cursor.root arena.tokens) is c' ∧ unit = ⟨arena, is⟩ := by
  unfold Arena.read at h
  split at h
  · rename_i is c' notices hread
    cases h
    exact ⟨is, c', ⟨[], notices, hread⟩, rfl⟩
  · cases h

theorem read_of_yields {arena : Arena} {is : List (Item Site)} {c' : Cursor}
    (h : Reader.Yields (items depth) (Cursor.root arena.tokens) is c') :
    (arena.read depth).result = .ok ⟨arena, is⟩ := by
  obtain ⟨notices, hread⟩ := h []
  have hrun : ((items depth).run (Cursor.root arena.tokens)).run [] = (.ok (is, c'), notices) := hread
  rw [Arena.read, hrun]

end Arena

variable {text : String} {options : ReadOptions}

theorem readText_eq_ok {unit : SourceUnit} (h : (readText text options).result = .ok unit) :
    ∃ tokens, (options.source text).tokens = .ok tokens ∧
      ((Arena.ofTokens (options.source text) tokens).read options.depth).result = .ok unit := by
  unfold readText Arena.ofSource at h
  cases htokens : (options.source text).tokens with
  | error e =>
    rw [htokens] at h
    cases h
  | ok tokens =>
    rw [htokens] at h
    exact ⟨tokens, rfl, h⟩

theorem readText_of_tokens (h : (options.source text).tokens = .ok tokens) :
    readText text options = (Arena.ofTokens (options.source text) tokens).read options.depth := by
  rw [readText, Arena.ofSource, h]
  rfl

end SystemVerilog
