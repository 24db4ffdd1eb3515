import SystemVerilog.Grammar.Directive
import SystemVerilog.Proofs.Module.Canonical
import SystemVerilog.Proofs.Statement.Spelling

/-!
# Spellings of modules

`i.Spells ts` says that the tokens `ts` write the item `i` down by the grammar. Where the grammar leaves a
choice every choice is a spelling: whether a header entry repeats what it would inherit, whether a list in
parentheses ends in a comma, whether empty parentheses are written, whether a label stands behind a closing
word. The items of a generate block stand between `begin` and `end`.
-/

namespace SystemVerilog

variable {α β : Type}

/-! ### Lists -/

/-- Things, each led by a comma. -/
def SpellsLed (spells : β → List Token → Prop) : List β → List Token → Prop
  | [], ts => ts = []
  | b :: bs, ts => ∃ m us vs, ts = m :: (us ++ vs) ∧ m.kind = .op .comma ∧ spells b us ∧
      SpellsLed spells bs vs

/-- Things with commas between them. -/
def SpellsCommas (spells : β → List Token → Prop) : List β → List Token → Prop
  | [], ts => ts = []
  | b :: bs, ts => ∃ us vs, ts = us ++ vs ∧ spells b us ∧ SpellsLed spells bs vs

/-- Things with commas between them, and perhaps a comma behind the last. -/
def SpellsEntries (spells : β → List Token → Prop) : List β → List Token → Prop
  | [], ts => ts = []
  | b :: bs, ts => ∃ us vs, ts = us ++ vs ∧ spells b us ∧
      (bs = [] ∧ vs = [] ∨ ∃ m ws, vs = m :: ws ∧ m.kind = .op .comma ∧ SpellsEntries spells bs ws)

/-- Tokens between parentheses. -/
def SpellsParens (spells : List Token → Prop) (ts : List Token) : Prop := ∃ o us c,
  ts = o :: (us ++ [c]) ∧ o.kind = .op .lParen ∧ spells us ∧ c.kind = .op .rParen

/-- Tokens up to a semicolon. -/
def SpellsEnded (spells : List Token → Prop) (ts : List Token) : Prop := ∃ us m,
  ts = us ++ [m] ∧ spells us ∧ m.kind = .op .semicolon

/-- A name. -/
def SpellsName (name : String) (ts : List Token) : Prop := ∃ t,
  ts = [t] ∧ t.kind.isName = true ∧ t.text = name

/-! ### Declarations -/

def Dimension.Spells : Dimension α → List Token → Prop
  | bounds b, ts => b.Spells ts
  | size _ index, ts => ∃ o us c, ts = o :: (us ++ [c]) ∧ o.kind = .op .lBracket ∧ index.Spells us ∧
      c.kind = .op .rBracket

/-- An equals sign and a value. -/
def SpellsValue (e : Expr α) (ts : List Token) : Prop := ∃ m us,
  ts = m :: us ∧ m.kind = .op .assignment ∧ e.Spells us

def Declarator.Spells (d : Declarator α) (ts : List Token) : Prop := ∃ n us vs,
  ts = n :: (us ++ vs) ∧ n.kind.isName = true ∧ n.text = d.name ∧
    SpellsEach Dimension.Spells d.dims us ∧ SpellsOption SpellsValue d.value vs

/-- A data type, if there is one, and the names declared with it. -/
def SpellsDeclared (type : Option (DataType α)) (declarators : List (Declarator α)) (ts : List Token) :
    Prop := ∃ us vs, ts = us ++ vs ∧ SpellsOption DataType.Spells type us ∧
  SpellsCommas Declarator.Spells declarators vs

/-- What the word in front of a parameter says: whether it is local. -/
def parameterWord? : TokenKind → Option Bool
  | .word .kwParameter => some false
  | .word .kwLocalparam => some true
  | _ => none

def ParameterGroup.Spells (group : ParameterGroup α) : List Token → Prop := SpellsEnded fun ts =>
  ∃ k us, ts = k :: us ∧ parameterWord? k.kind = some group.isLocal ∧
    SpellsDeclared group.type group.declarators us

/-- A net type, if there is one. -/
def SpellsNet (net : Option Keyword) (ts : List Token) : Prop :=
  SpellsMark (TokenKind.keywordIn? Keyword.isNetType) net ts

def PortGroup.Spells (group : PortGroup α) : List Token → Prop := SpellsEnded fun ts =>
  ∃ k us vs, ts = k :: (us ++ vs) ∧ Direction.ofKind? k.kind = some group.direction ∧
    SpellsNet group.net us ∧ SpellsDeclared group.type group.declarators vs

def SignalGroup.Spells (group : SignalGroup α) : List Token → Prop := SpellsEnded fun ts =>
  ∃ us vs, ts = us ++ vs ∧ SpellsNet group.net us ∧ SpellsDeclared group.type group.declarators vs

def Genvars.Spells (group : Genvars α) : List Token → Prop := SpellsEnded fun ts =>
  ∃ k us, ts = k :: us ∧ k.kind = .word .kwGenvar ∧ SpellsCommas SpellsName group.names us

/-! ### Module headers -/

/-- An entry of a header parameter list as it is written. -/
structure ParameterForm (α : Type) where
  isLocal : Option Bool
  type : Option (DataType α)
  declarator : Declarator α

def ParameterForm.Spells (f : ParameterForm α) (ts : List Token) : Prop := ∃ us vs ws,
  ts = us ++ (vs ++ ws) ∧ SpellsMark parameterWord? f.isLocal us ∧
    SpellsOption DataType.Spells f.type vs ∧ f.declarator.Spells ws

/-- An entry that joins the group before it. -/
def ParameterForm.joined (d : Declarator α) : ParameterForm α := ⟨none, none, d⟩

/-- The entries that write groups of parameters down; `before` tells of the group in front of them whether
it is local. A group is opened by a word or a type, unless it is the first, and a word may be left out
where it is inherited. -/
def ParameterForms (before : Option Bool) : List (ParameterGroup α) → List (ParameterForm α) → Prop
  | [], fs => fs = []
  | group :: groups, fs => ∃ isLocal d ds rest, group.declarators = d :: ds ∧
      fs = ⟨isLocal, group.type, d⟩ :: (ds.map ParameterForm.joined ++ rest) ∧
      isLocal.getD (before.getD false) = group.isLocal ∧
      (isLocal ≠ none ∨ group.type ≠ none ∨ before = none) ∧
      ParameterForms (some group.isLocal) groups rest

/-- An entry of a header port list as it is written. -/
structure PortForm (α : Type) where
  direction : Option Direction
  net : Option Keyword
  type : Option (DataType α)
  declarator : Declarator α

def PortForm.Spells (f : PortForm α) (ts : List Token) : Prop := ∃ us vs ws xs,
  ts = us ++ (vs ++ (ws ++ xs)) ∧ SpellsMark Direction.ofKind? f.direction us ∧ SpellsNet f.net vs ∧
    SpellsOption DataType.Spells f.type ws ∧ f.declarator.Spells xs

/-- An entry that joins the group before it. -/
def PortForm.joined (d : Declarator α) : PortForm α := ⟨none, none, none, d⟩

/-- The entries that write groups of ports down; `before` is the direction of the group in front of them.
A group is opened by a direction, a net type or a data type, and a direction may be left out where it is
inherited. -/
def PortForms (before : Option Direction) : List (PortGroup α) → List (PortForm α) → Prop
  | [], fs => fs = []
  | group :: groups, fs => ∃ direction d ds rest, group.declarators = d :: ds ∧
      fs = ⟨direction, group.net, group.type, d⟩ :: (ds.map PortForm.joined ++ rest) ∧
      direction.or before = some group.direction ∧
      (direction ≠ none ∨ group.net ≠ none ∨ group.type ≠ none) ∧
      PortForms (some group.direction) groups rest

/-- The parameters of a module header. -/
def SpellsParameters (groups : List (ParameterGroup α)) (ts : List Token) : Prop :=
  groups = [] ∧ ts = [] ∨ ∃ h us, ts = h :: us ∧ h.kind = .op .sharp ∧
    SpellsParens (fun vs => ∃ fs, ParameterForms none groups fs ∧ SpellsEntries ParameterForm.Spells fs vs) us

def PortName.Spells (name : PortName α) : List Token → Prop := SpellsName name.name

/-- The ports of a module header. -/
def PortList.Spells : PortList α → List Token → Prop
  | empty, ts => ts = [] ∨ SpellsParens (· = []) ts
  | ansi groups, ts =>
    SpellsParens (fun us => ∃ fs, PortForms none groups fs ∧ SpellsEntries PortForm.Spells fs us) ts
  | nonAnsi names, ts => SpellsParens (SpellsCommas PortName.Spells names) ts

/-! ### Instances -/

def Connection.Spells (c : Connection α) (ts : List Token) : Prop :=
  match c.name with
  | none => ∃ e, c.value = some e ∧ e.Spells ts
  | some name => ∃ d n us, ts = d :: n :: us ∧ d.kind = .op .dot ∧ n.kind.isName = true ∧ n.text = name ∧
      SpellsParens (SpellsOption Expr.Spells c.value) us

def SpellsConnections (cs : List (Connection α)) : List Token → Prop :=
  SpellsParens (SpellsEntries Connection.Spells cs)

/-- The module and the instance are named by plain identifiers. -/
def Instantiation.Spells (inst : Instantiation α) : List Token → Prop := SpellsEnded fun ts =>
  ∃ n us i vs, ts = n :: (us ++ i :: vs) ∧ n.kind = .identifier ∧ n.text = inst.moduleName ∧
    (inst.params = [] ∧ us = [] ∨ ∃ h ws, us = h :: ws ∧ h.kind = .op .sharp ∧
      SpellsConnections inst.params ws) ∧
    i.kind = .identifier ∧ i.text = inst.instanceName ∧ SpellsConnections inst.ports vs

/-! ### Directives -/

def TimeValue.Spells (time : TimeValue) (ts : List Token) : Prop := ∃ m u, ts = [m, u] ∧
  m.kind = .literal ∧ Parser.timeMagnitude? m.text = some time.magnitude ∧
    TimeUnit.ofKind? u.kind = some time.unit

/-- A string literal with some interior. -/
def SpellsQuoted (interior : String) (ts : List Token) : Prop := ∃ t,
  ts = [t] ∧ t.kind = .stringLiteral ∧ Parser.unquote t.text = interior

namespace DirectiveKind

/-- The words that name a kind of directive. -/
def names : DirectiveKind α → List String
  | resetAll => ["\x60resetall"]
  | cellDefine => ["\x60celldefine"]
  | endCellDefine => ["\x60endcelldefine"]
  | beginKeywords _ => ["\x60begin_keywords", "\x60begin_keyword"]
  | endKeywords => ["\x60end_keywords", "\x60end_keyword"]
  | includeFile _ => ["\x60include"]
  | timescale _ _ => ["\x60timescale"]
  | defaultNettype _ => ["\x60default_nettype"]
  | unconnectedDrive _ => ["\x60unconnected_drive"]
  | noUnconnectedDrive => ["\x60nounconnected_drive"]
  | conditional _ _ _ => []

/-- The arguments of a directive. The argument of a default net type is an identifier or a net type. -/
def SpellsArguments : DirectiveKind α → List Token → Prop
  | beginKeywords version, ts => SpellsQuoted version ts
  | includeFile path, ts => SpellsQuoted path ts
  | timescale unit precision, ts => ∃ us d vs, ts = us ++ d :: vs ∧ unit.Spells us ∧
      d.kind = .op .div ∧ precision.Spells vs
  | defaultNettype netType, ts => ∃ t, ts = [t] ∧ (t.kind = .identifier ∨ t.kind.isNetType = true) ∧
      t.text = netType
  | unconnectedDrive pull, ts => ∃ t, ts = [t] ∧ t.kind = .word pull
  | _, ts => ts = []

def Spells (kind : DirectiveKind α) (ts : List Token) : Prop := ∃ t us, ts = t :: us ∧
  t.kind = .directive ∧ t.text ∈ kind.names ∧ kind.SpellsArguments us

end DirectiveKind

/-! ### Items -/

def ContinuousAssign.Spells (group : ContinuousAssign α) : List Token → Prop := SpellsEnded fun ts =>
  ∃ k us vs, ts = k :: (us ++ vs) ∧ k.kind = .word .kwAssign ∧
    SpellsOption (fun delay us => delay.Spells us vs) group.delay us ∧
    SpellsCommas Expr.Spells group.assignments vs

def AlwaysBlock.Spells (a : AlwaysBlock α) (ts : List Token) : Prop := ∃ k us vs,
  ts = k :: (us ++ vs) ∧ AlwaysKind.ofKind? k.kind = some a.kind ∧
    SpellsOption Sensitivity.Spells a.sensitivity us ∧ a.body.Spells vs

def InitialBlock.Spells (i : InitialBlock α) (ts : List Token) : Prop := ∃ k us,
  ts = k :: us ∧ k.kind = .word .kwInitial ∧ i.body.Spells us

namespace BodyItem

mutual

/-- The tokens write the item of a module body down. -/
def Spells : BodyItem α → List Token → Prop
  | parameters group, ts => group.Spells ts
  | ports group, ts => group.Spells ts
  | signals group, ts => group.Spells ts
  | genvars group, ts => group.Spells ts
  | assign group, ts => group.Spells ts
  | always a, ts => a.Spells ts
  | initial i, ts => i.Spells ts
  | instantiation inst, ts => inst.Spells ts
  | block b, ts => SpellsBlock b ts
  | region _ items, ts => ∃ o us c, ts = o :: (us ++ [c]) ∧ o.kind = .word .kwGenerate ∧
      SpellsAll items us ∧ c.kind = .word .kwEndGenerate
  | generateIf _ condition thenBlock elseBlock, ts => ∃ i us vs ws, ts = i :: (us ++ (vs ++ ws)) ∧
      i.kind = .word .kwIf ∧ SpellsCondition condition us ∧ SpellsBlock thenBlock vs ∧
      SpellsElse elseBlock ws
  | generateFor _ header body, ts => ∃ f us vs, ts = f :: (us ++ vs) ∧ f.kind = .word .kwFor ∧
      header.Spells us ∧ SpellsBlock body vs
  | generateCase _ selector items default, ts => ∃ k us vs ws e,
      ts = k :: ((us ++ (vs ++ ws)) ++ [e]) ∧ k.kind = .word .kwCase ∧ SpellsCondition selector us ∧
      SpellsCases items vs ∧ SpellsDefault default ws ∧ e.kind = .word .kwEndCase
  | directive d, ts => d.kind.Spells ts
  | empty _, ts => ∃ m, ts = [m] ∧ m.kind = .op .semicolon

/-- A generate block between `begin` and `end`. -/
def SpellsBlock : GenerateBlock α (BodyItem α) → List Token → Prop
  | ⟨_, label, items⟩, ts => ∃ b ls us e ms, ts = (b :: ((ls ++ us) ++ [e])) ++ ms ∧
      b.kind = .word .kwBegin ∧ SpellsLabel label ls ∧ SpellsAll items us ∧
      e.kind = .word .kwEnd ∧ (ms = [] ∨ label ≠ none ∧ SpellsLabel label ms)

/-- Items, one after the other. -/
def SpellsAll : List (BodyItem α) → List Token → Prop
  | [], ts => ts = []
  | item :: items, ts => ∃ us vs, ts = us ++ vs ∧ item.Spells us ∧ SpellsAll items vs

/-- The block behind an `else`, if there is one. -/
def SpellsElse : Option (GenerateBlock α (BodyItem α)) → List Token → Prop
  | none, ts => ts = []
  | some b, ts => ∃ e us, ts = e :: us ∧ e.kind = .word .kwElse ∧ SpellsBlock b us

/-- The default item, if there is one. -/
def SpellsDefault : Option (GenerateBlock α (BodyItem α)) → List Token → Prop
  | none, ts => ts = []
  | some b, ts => ∃ d us vs, ts = d :: (us ++ vs) ∧ d.kind = .word .kwDefault ∧
      (us = [] ∨ ∃ m, us = [m] ∧ m.kind = .op .colon) ∧ SpellsBlock b vs

/-- Case items, one after the other. -/
def SpellsCases : List (CaseItem α (GenerateBlock α (BodyItem α))) → List Token → Prop
  | [], ts => ts = []
  | ⟨_, labels, body⟩ :: items, ts => ∃ us m vs ws, ts = us ++ m :: (vs ++ ws) ∧
      Expr.SpellsList labels us ∧ m.kind = .op .colon ∧ SpellsBlock body vs ∧ SpellsCases items ws

end

theorem spellsAll_iff {items : List (BodyItem α)} {ts : List Token} :
    SpellsAll items ts ↔ SpellsEach Spells items ts := by
  induction items generalizing ts with
  | nil => exact Iff.rfl
  | cons item items ih => simp only [SpellsAll, SpellsEach, ih]

theorem spellsDefault_iff {o : Option (GenerateBlock α (BodyItem α))} {ts : List Token} :
    SpellsDefault o ts ↔ SpellsOption (SpellsFallback SpellsBlock) o ts := by
  cases o <;> exact Iff.rfl

theorem spellsCases_iff {items : List (CaseItem α (GenerateBlock α (BodyItem α)))} {ts : List Token} :
    SpellsCases items ts ↔ SpellsEach (CaseItem.SpellsWith SpellsBlock) items ts := by
  induction items generalizing ts with
  | nil => exact Iff.rfl
  | cons item items ih => simp only [SpellsCases, CaseItem.spellsEach_cons, ih]

end BodyItem

/-! ### Sources -/

/-- A header, the items of the body, and perhaps the name of the module again behind its end. -/
def Module.Spells (m : Module α) (ts : List Token) : Prop := ∃ k n ps qs s us e ls,
  ts = (k :: ((n :: (ps ++ (qs ++ s :: us))) ++ [e])) ++ ls ∧ k.kind = .word .kwModule ∧
    n.kind.isName = true ∧ n.text = m.name ∧ SpellsParameters m.params ps ∧ m.ports.Spells qs ∧
    s.kind = .op .semicolon ∧ BodyItem.SpellsAll m.body us ∧ e.kind = .word .kwEndModule ∧
    (ls = [] ∨ SpellsLabel (some m.name) ls)

def Item.Spells : Item α → List Token → Prop
  | design m, ts => m.Spells ts
  | directive d, ts => d.kind.Spells ts

end SystemVerilog
