import SystemVerilog.Proofs.Correspondence.Items
import SystemVerilog.Proofs.Layout.Writing

/-!
# What is read does not depend on the layout

Two sources whose tokens hold the same writing, comments left out, are read to the same trees but for the
places in them, or both fail for the same cause. So it is for whole texts, single expressions and single
statements; line endings, blanks and comments make no other difference than whether two tokens touch.
-/

namespace SystemVerilog

open SystemVerilog.Parser Correspondence

/-- What reading has come to but for the places: a part of what was read, or the cause of the fault. -/
def outcome {α β : Type} (part : α → β) : Except ParseError α → Except Cause β
  | .ok a => .ok (part a)
  | .error e => .error e.cause

variable {source source' : Source} {arena arena' : Arena}

/-- The cursors in front of the same writing are alike. -/
theorem Arena.alike_root (h : ofSource source = .ok arena) (h' : ofSource source' = .ok arena')
    (hwriting : SameWriting arena.code arena'.code) : ∃ k : Correspondence TokenRange,
      k.Alike (Cursor.root arena.tokens) (Cursor.root arena'.tokens) ∧ k.left = Site.range ∧ k.right = Site.range := by
  obtain ⟨-, hordered, hroot⟩ := code_of_ofSource h
  obtain ⟨-, hordered', hroot'⟩ := code_of_ofSource h'
  exact ⟨layout hwriting hordered hordered' 0, alike_layout hwriting hordered hordered' hroot hroot' rfl, rfl, rfl⟩

/-- A parser that agrees with itself on corresponding tokens. -/
theorem Arena.outcome_readWith {α γ : Type} {k : Correspondence TokenRange} {p : Parser α}
    {f : (Site → TokenRange) → α → γ} (hp : k.Agrees p p (k.Same f))
    (hroot : k.Alike (Cursor.root arena.tokens) (Cursor.root arena'.tokens)) (hleft : k.left = Site.range)
    (hright : k.right = Site.range) :
    outcome (f Site.range) (arena.readWith p) = outcome (f Site.range) (arena'.readWith p) := by
  cases hp hroot with
  | @read a b c' d' hread hread' hsame _ =>
    have hok : p (Cursor.root arena.tokens) = .ok (a, c') := hread
    have hok' : p (Cursor.root arena'.tokens) = .ok (b, d') := hread'
    have heq := hsame.eq
    rw [hleft, hright] at heq
    rw [readWith, readWith, hok, hok']
    exact congrArg Except.ok heq
  | @stop fault fault' hstop hstop' hfault =>
    have herror : p (Cursor.root arena.tokens) = .error fault := hstop
    have herror' : p (Cursor.root arena'.tokens) = .error fault' := hstop'
    rw [readWith, readWith, herror, herror']
    exact congrArg Except.error hfault.cause

theorem Arena.outcome_read {k : Correspondence TokenRange} (depth : Depth)
    (hroot : k.Alike (Cursor.root arena.tokens) (Cursor.root arena'.tokens)) (hleft : k.left = Site.range)
    (hright : k.right = Site.range) :
    outcome (fun unit => unit.items.map (Item.map Site.range)) (arena.read depth).result =
      outcome (fun unit => unit.items.map (Item.map Site.range)) (arena'.read depth).result := by
  have hresult {arena : Arena} {r : Except Fault (List (Item Site) × Cursor)}
      (h : ∃ notices, ((items depth).run (Cursor.root arena.tokens)).run [] = (r, notices)) :
      outcome (fun unit => unit.items.map (Item.map Site.range)) (arena.read depth).result =
        (r.map fun found => found.1.map (Item.map Site.range)).mapError Fault.cause := by
    obtain ⟨notices, hrun⟩ := h
    rw [read, hrun]
    cases r <;> rfl
  cases Agrees.items depth hroot with
  | read hread hread' hsame _ =>
    have heq := map_eq hsame
    rw [hleft, hright] at heq
    rw [hresult (hread []), hresult (hread' [])]
    exact congrArg Except.ok heq
  | stop hstop hstop' hfault =>
    rw [hresult (hstop []), hresult (hstop' [])]
    exact congrArg Except.error hfault.cause

/-- From the same writing in two layouts the same is read but for the places, as a source unit, as an
expression and as a statement, or the same cause is given why it cannot be read. -/
theorem readText_layout {text text' : String} {options options' : ReadOptions}
    (h : Arena.ofSource (options.source text) = .ok arena)
    (h' : Arena.ofSource (options'.source text') = .ok arena') (hdepth : options.depth = options'.depth)
    (hwriting : SameWriting arena.code arena'.code) :
    outcome (fun unit => unit.items.map (Item.map Site.range)) (readText text options).result =
        outcome (fun unit => unit.items.map (Item.map Site.range)) (readText text' options').result ∧
      outcome (Expr.map Site.range) arena.expression = outcome (Expr.map Site.range) arena'.expression ∧
      outcome (Statement.map Site.range) arena.statement = outcome (Statement.map Site.range) arena'.statement := by
  obtain ⟨k, hroot, hleft, hright⟩ := Arena.alike_root h h' hwriting
  refine ⟨?_, Arena.outcome_readWith (.filling _ .expression) hroot hleft hright,
    Arena.outcome_readWith (.filling _ .statement) hroot hleft hright⟩
  rw [readText, readText, h, h', ← hdepth]
  exact Arena.outcome_read options.depth hroot hleft hright

/-- A delay whose unit touches its magnitude and a system name, on one line and on several with comments. -/
theorem readText_layout_delay :
    let options : ReadOptions := { ending := .crlf, path := "b.sv" }
    let text := "module m; initial #10ns $display(s, x<=y); endmodule"
    let text' := "// m\r\nmodule\tm;\r\n/* t */initial\r\n  #10ns // d\r\n$display(s,\r\nx<=y);\r\nendmodule\r\n"
    ∃ arena arena', Arena.ofSource (({} : ReadOptions).source text) = .ok arena ∧
      Arena.ofSource (options.source text') = .ok arena' ∧ SameWriting arena.code arena'.code ∧
      outcome (fun unit => unit.items.map (Item.map Site.range)) (readText text {}).result =
        outcome (fun unit => unit.items.map (Item.map Site.range)) (readText text' options).result := by
  intro options text text'
  have hsame : (Arena.ofSource (({} : ReadOptions).source text)).toOption.map
        (fun arena => (arena.code.map Token.toLexeme, touchings arena.code)) =
      (Arena.ofSource (options.source text')).toOption.map
        (fun arena => (arena.code.map Token.toLexeme, touchings arena.code)) := by decide +kernel
  have hlexes : (Arena.ofSource (({} : ReadOptions).source text)).toOption.isSome = true := by decide +kernel
  cases h : Arena.ofSource (({} : ReadOptions).source text) with
  | error e =>
    rw [h] at hlexes
    cases hlexes
  | ok arena =>
    cases h' : Arena.ofSource (options.source text') with
    | error e =>
      rw [h, h'] at hsame
      cases hsame
    | ok arena' =>
      rw [h, h'] at hsame
      obtain ⟨hlexemes, htouches⟩ := Prod.mk.inj (Option.some.inj hsame)
      have hwriting : SameWriting arena.code arena'.code := ⟨hlexemes, htouches⟩
      exact ⟨arena, arena', rfl, rfl, hwriting, (readText_layout h h' rfl hwriting).1⟩

end SystemVerilog
