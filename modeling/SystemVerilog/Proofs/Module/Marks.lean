import SystemVerilog.Proofs.Module.Spelling
import SystemVerilog.Proofs.Statement.Written

/-!
# Modules written down

`i.marks style` are the lexemes that write the item `i` down by the grammar; where the grammar leaves a
choice the style decides. The entry of a header that opens a group bears the words of the group, but may
leave out those that it inherits. Where the names and literals of a canonical item are lexemes, the text of
its marks is cut into them again.
-/

namespace SystemVerilog

variable {α β : Type}

/-! ### Words with a meaning -/

def Direction.keyword : Direction → Keyword
  | input => .kwInput
  | output => .kwOutput
  | inout => .kwInout

def AlwaysKind.keyword : AlwaysKind → Keyword
  | always => .kwAlways
  | comb => .kwAlwaysComb
  | ff => .kwAlwaysFf
  | latch => .kwAlwaysLatch

/-- The word in front of parameters, which says whether they are local. -/
def parameterWord (isLocal : Bool) : Keyword := if isLocal then .kwLocalparam else .kwParameter

theorem Direction.ofKind?_keyword (d : Direction) : ofKind? (.word d.keyword) = some d := by
  cases d <;> rfl

theorem AlwaysKind.ofKind?_keyword (k : AlwaysKind) : ofKind? (.word k.keyword) = some k := by
  cases k <;> rfl

theorem parameterWord?_parameterWord (isLocal : Bool) :
    parameterWord? (.word (parameterWord isLocal)) = some isLocal := by
  cases isLocal <;> rfl

/-- The reserved words that modules are written with, beside those of statements. -/
def moduleWords : List Keyword :=
  [.kwModule, .kwEndModule, .kwGenerate, .kwEndGenerate, .kwParameter, .kwLocalparam, .kwInput, .kwOutput,
    .kwInout, .kwAssign, .kwInitial, .kwAlways, .kwAlwaysComb, .kwAlwaysFf, .kwAlwaysLatch, .kwPull0, .kwPull1,
    .kwWire, .kwTri, .kwTri0, .kwTri1, .kwTriand, .kwTrior, .kwTrireg, .kwWand, .kwWor, .kwUwire, .kwSupply0,
    .kwSupply1, .kwVar]

theorem Keyword.isWord_spelling_module : ∀ k ∈ moduleWords, isWord k.spelling = true ∧
    TokenKind.ofWord k.spelling = .word k := by
  decide +kernel

theorem Lexable.moduleWord {k : Keyword} (hk : k ∈ moduleWords) : Lexable [.fixed (.word k)] :=
  .reserved (Keyword.isWord_spelling_module k hk)

theorem Keyword.mem_moduleWords_of_isNetType {k : Keyword} (h : k.isNetType = true) : k ∈ moduleWords := by
  unfold isNetType at h
  split at h <;> first | decide | cases h

theorem Keyword.mem_moduleWords_of_isPull {k : Keyword} (h : k.isPull = true) : k ∈ moduleWords := by
  unfold isPull at h
  split at h <;> first | decide | cases h

/-! ### Marks of lists -/

/-- What the grammar leaves to the writer of a module. -/
structure ModuleStyle extends Style where
  /-- A list of entries ends in a comma. -/
  closingCommas : Bool
  /-- Parentheses are written with nothing between them. -/
  emptyParens : Bool
  /-- An entry of a header leaves out what it inherits. -/
  inherits : Bool
  deriving DecidableEq, Repr

/-- The marks of things, each led by a comma. -/
def ledMarks (marks : β → List Mark) : List β → List Mark
  | [] => []
  | b :: bs => .fixed (.op .comma) :: (marks b ++ ledMarks marks bs)

/-- The marks of things with commas between them. -/
def commaMarks (marks : β → List Mark) : List β → List Mark
  | [] => []
  | b :: bs => marks b ++ ledMarks marks bs

/-- The marks of things with commas between them, and with a comma behind the last if one is to close. -/
def entriesMarks (closing : Bool) (marks : β → List Mark) : List β → List Mark
  | [] => []
  | b :: bs => marks b ++
      if bs.isEmpty && !closing then [] else .fixed (.op .comma) :: entriesMarks closing marks bs

def parensMarks (ms : List Mark) : List Mark := .fixed (.op .lParen) :: (ms ++ [.fixed (.op .rParen)])

def endedMarks (ms : List Mark) : List Mark := ms ++ [.fixed (.op .semicolon)]

/-! ### Marks of declarations -/

def Dimension.marks : Dimension α → List Mark
  | bounds b => b.marks
  | size _ index => .fixed (.op .lBracket) :: (index.marks ++ [.fixed (.op .rBracket)])

def valueMarks (e : Expr α) : List Mark := .fixed (.op .assignment) :: e.marks

def Declarator.marks (d : Declarator α) : List Mark :=
  .word d.name :: (d.dims.flatMap Dimension.marks ++ optionMarks valueMarks d.value)

def declaredMarks (type : Option (DataType α)) (declarators : List (Declarator α)) : List Mark :=
  optionMarks DataType.marks type ++ commaMarks Declarator.marks declarators

def ParameterGroup.marks (group : ParameterGroup α) : List Mark := endedMarks
  (.fixed (.word (parameterWord group.isLocal)) :: declaredMarks group.type group.declarators)

def PortGroup.marks (group : PortGroup α) : List Mark := endedMarks
  (.fixed (.word group.direction.keyword) ::
    (wordMarks id group.net ++ declaredMarks group.type group.declarators))

def SignalGroup.marks (group : SignalGroup α) : List Mark := endedMarks
  (wordMarks id group.net ++ declaredMarks group.type group.declarators)

def Genvars.marks (group : Genvars α) : List Mark := endedMarks
  (.fixed (.word .kwGenvar) :: commaMarks (fun name => [Mark.word name]) group.names)

/-! ### Marks of headers -/

def ParameterForm.marks (f : ParameterForm α) : List Mark :=
  wordMarks parameterWord f.isLocal ++ (optionMarks DataType.marks f.type ++ f.declarator.marks)

def PortForm.marks (f : PortForm α) : List Mark :=
  wordMarks Direction.keyword f.direction ++
    (wordMarks id f.net ++ (optionMarks DataType.marks f.type ++ f.declarator.marks))

/-- What the entry that opens a group says of where the group belongs; `before` is what it inherits. -/
def ParameterGroup.opening (style : ModuleStyle) (before : Option Bool) (group : ParameterGroup α) :
    Option Bool :=
  if style.inherits && before.getD false == group.isLocal && (group.type.isSome || before.isNone) then none
  else some group.isLocal

/-- The direction that the entry that opens a group names; `before` is what it inherits. -/
def PortGroup.opening (style : ModuleStyle) (before : Option Direction) (group : PortGroup α) :
    Option Direction :=
  if style.inherits && before == some group.direction && (group.net.isSome || group.type.isSome) then none
  else some group.direction

/-- The entries that write groups of parameters down. -/
def parameterForms (style : ModuleStyle) : Option Bool → List (ParameterGroup α) → List (ParameterForm α)
  | _, [] => []
  | before, group :: groups =>
    match group.declarators with
    | [] => []
    | d :: ds => ⟨group.opening style before, group.type, d⟩ ::
        (ds.map ParameterForm.joined ++ parameterForms style (some group.isLocal) groups)

/-- The entries that write groups of ports down. -/
def portForms (style : ModuleStyle) : Option Direction → List (PortGroup α) → List (PortForm α)
  | _, [] => []
  | before, group :: groups =>
    match group.declarators with
    | [] => []
    | d :: ds => ⟨group.opening style before, group.net, group.type, d⟩ ::
        (ds.map PortForm.joined ++ portForms style (some group.direction) groups)

def parametersMarks (style : ModuleStyle) (groups : List (ParameterGroup α)) : List Mark :=
  if groups.isEmpty && !style.emptyParens then []
  else .fixed (.op .sharp) ::
    parensMarks (entriesMarks style.closingCommas ParameterForm.marks (parameterForms style none groups))

def PortList.marks (style : ModuleStyle) : PortList α → List Mark
  | empty => if style.emptyParens then parensMarks [] else []
  | ansi groups => parensMarks (entriesMarks style.closingCommas PortForm.marks (portForms style none groups))
  | nonAnsi names => parensMarks (commaMarks (fun name => [Mark.word name.name]) names)

/-! ### Marks of instances -/

def Connection.marks (c : Connection α) : List Mark :=
  match c.name with
  | none => optionMarks Expr.marks c.value
  | some name => .fixed (.op .dot) :: .word name :: parensMarks (optionMarks Expr.marks c.value)

def connectionsMarks (style : ModuleStyle) (cs : List (Connection α)) : List Mark :=
  parensMarks (entriesMarks style.closingCommas Connection.marks cs)

def Instantiation.paramsMarks (style : ModuleStyle) (inst : Instantiation α) : List Mark :=
  if inst.params.isEmpty && !style.emptyParens then []
  else .fixed (.op .sharp) :: connectionsMarks style inst.params

def Instantiation.marks (style : ModuleStyle) (inst : Instantiation α) : List Mark := endedMarks
  (.word inst.moduleName ::
    (inst.paramsMarks style ++ .word inst.instanceName :: connectionsMarks style inst.ports))

/-! ### Marks of directives -/

/-- A time; its unit touches its magnitude. -/
def TimeValue.marks (time : TimeValue) : List Mark :=
  [⟨⟨.literal, toString time.magnitude⟩, false⟩, (Mark.word time.unit.keyword.spelling).join]

/-- The text of a string literal. -/
def quoted (interior : String) : String := "\"" ++ interior ++ "\""

def quotedMarks (interior : String) : List Mark := [⟨⟨.stringLiteral, quoted interior⟩, false⟩]

namespace DirectiveKind

def argumentMarks : DirectiveKind α → List Mark
  | beginKeywords version => quotedMarks version
  | includeFile path => quotedMarks path
  | timescale unit precision => unit.marks ++ .fixed (.op .div) :: precision.marks
  | defaultNettype netType => [.word netType]
  | unconnectedDrive pull => [.fixed (.word pull)]
  | _ => []

def marks (kind : DirectiveKind α) : List Mark :=
  ⟨⟨.directive, kind.names.headD ""⟩, false⟩ :: kind.argumentMarks

end DirectiveKind

/-! ### Marks of items -/

def ContinuousAssign.marks (group : ContinuousAssign α) : List Mark := endedMarks
  (.fixed (.word .kwAssign) ::
    (optionMarks Delay.marks group.delay ++ commaMarks Expr.marks group.assignments))

def AlwaysBlock.marks (style : Style) (a : AlwaysBlock α) : List Mark :=
  .fixed (.word a.kind.keyword) ::
    (optionMarks (Sensitivity.marks style) a.sensitivity ++ a.body.marks style)

def InitialBlock.marks (style : Style) (i : InitialBlock α) : List Mark :=
  .fixed (.word .kwInitial) :: i.body.marks style

/-- The marks of a label behind a closing word. -/
def closingMarks (style : Style) (label : Option String) : List Mark :=
  if style.closingLabels then labelMarks label else []

namespace BodyItem

mutual

/-- The lexemes that write an item of a module body down in a style. -/
def marks (style : ModuleStyle) : BodyItem α → List Mark
  | parameters group => group.marks
  | ports group => group.marks
  | signals group => group.marks
  | genvars group => group.marks
  | assign group => group.marks
  | always a => a.marks style.toStyle
  | initial i => i.marks style.toStyle
  | instantiation inst => inst.marks style
  | block b => marksBlock style b
  | region _ items =>
    .fixed (.word .kwGenerate) :: (marksAll style items ++ [.fixed (.word .kwEndGenerate)])
  | generateIf _ condition thenBlock elseBlock => .fixed (.word .kwIf) ::
      (conditionMarks condition ++ (marksBlock style thenBlock ++ marksElse style elseBlock))
  | generateFor _ header body => .fixed (.word .kwFor) :: (header.marks ++ marksBlock style body)
  | generateCase _ selector items default => .fixed (.word .kwCase) ::
      ((conditionMarks selector ++ (marksCases style items ++ marksDefault style default)) ++
        [.fixed (.word .kwEndCase)])
  | directive d => d.kind.marks
  | empty _ => [.fixed (.op .semicolon)]

/-- The lexemes of a generate block. -/
def marksBlock (style : ModuleStyle) : GenerateBlock α (BodyItem α) → List Mark
  | ⟨_, label, items⟩ => (.fixed (.word .kwBegin) :: ((labelMarks label ++ marksAll style items) ++
      [.fixed (.word .kwEnd)])) ++ closingMarks style.toStyle label

/-- The lexemes of items, one after the other. -/
def marksAll (style : ModuleStyle) : List (BodyItem α) → List Mark
  | [] => []
  | item :: items => item.marks style ++ marksAll style items

/-- The lexemes of the block behind an `else`. -/
def marksElse (style : ModuleStyle) : Option (GenerateBlock α (BodyItem α)) → List Mark
  | none => []
  | some b => .fixed (.word .kwElse) :: marksBlock style b

/-- The lexemes of the default item. -/
def marksDefault (style : ModuleStyle) : Option (GenerateBlock α (BodyItem α)) → List Mark
  | none => []
  | some b => .fixed (.word .kwDefault) ::
      ((if style.defaultColons then [.fixed (.op .colon)] else []) ++ marksBlock style b)

/-- The lexemes of case items, one after the other. -/
def marksCases (style : ModuleStyle) :
    List (CaseItem α (GenerateBlock α (BodyItem α))) → List Mark
  | [] => []
  | ⟨_, labels, body⟩ :: items => Expr.marksList labels ++ .fixed (.op .colon) ::
      (marksBlock style body ++ marksCases style items)

end

end BodyItem

def Module.marks (style : ModuleStyle) (m : Module α) : List Mark :=
  (.fixed (.word .kwModule) :: ((.word m.name :: (parametersMarks style m.params ++ (m.ports.marks style ++
    .fixed (.op .semicolon) :: BodyItem.marksAll style m.body))) ++ [.fixed (.word .kwEndModule)])) ++
      closingMarks style.toStyle (some m.name)

/-- The lexemes that write an item of a source down in a style. -/
def Item.marks (style : ModuleStyle) : Item α → List Mark
  | design m => m.marks style
  | directive d => d.kind.marks

/-! ### Lexemes in modules -/

def Dimension.Lexical : Dimension α → Prop
  | bounds b => b.Lexical
  | size _ index => index.Lexical

structure Declarator.Lexical (d : Declarator α) : Prop where
  name : isNameText d.name = true
  dims : ∀ dim ∈ d.dims, dim.Lexical
  value : ∀ e, d.value = some e → e.Lexical

/-- The lexemes in a data type, if there is one, and in what is declared with it. -/
structure LexicalDeclared (type : Option (DataType α)) (declarators : List (Declarator α)) : Prop where
  type : ∀ t, type = some t → t.Lexical
  declarators : ∀ d ∈ declarators, d.Lexical

def PortList.Lexical : PortList α → Prop
  | empty => True
  | ansi groups => ∀ group ∈ groups, LexicalDeclared group.type group.declarators
  | nonAnsi names => ∀ name ∈ names, isNameText name.name = true

structure Connection.Lexical (c : Connection α) : Prop where
  name : ∀ name, c.name = some name → isNameText name = true
  value : ∀ e, c.value = some e → e.Lexical

/-- Whether a text is an identifier: a word that is not reserved. -/
def isIdentifierText (text : String) : Bool := isWord text && TokenKind.ofWord text == .identifier

structure Instantiation.Lexical (inst : Instantiation α) : Prop where
  moduleName : isIdentifierText inst.moduleName = true
  params : ∀ c ∈ inst.params, c.Lexical
  instanceName : isIdentifierText inst.instanceName = true
  ports : ∀ c ∈ inst.ports, c.Lexical

/-- Strings are the interiors of string literals, a net type is an identifier or a word for one. -/
def DirectiveKind.Lexical : DirectiveKind α → Prop
  | beginKeywords version => IsLiteral .string (quoted version)
  | includeFile path => IsLiteral .string (quoted path)
  | defaultNettype netType => isWord netType = true ∧
      (TokenKind.ofWord netType = .identifier ∨ (TokenKind.ofWord netType).isNetType = true)
  | _ => True

structure ContinuousAssign.Lexical (group : ContinuousAssign α) : Prop where
  delay : ∀ d, group.delay = some d → d.magnitude.Lexical
  assignments : ∀ e ∈ group.assignments, e.Lexical

structure AlwaysBlock.Lexical (a : AlwaysBlock α) : Prop where
  sensitivity : ∀ s, a.sensitivity = some s → ∀ event ∈ s.events, event.expr.Lexical
  body : a.body.Lexical

namespace BodyItem

mutual

/-- The names, labels and literals of the item are lexemes. -/
def Lexical : BodyItem α → Prop
  | parameters group => LexicalDeclared group.type group.declarators
  | ports group => LexicalDeclared group.type group.declarators
  | signals group => LexicalDeclared group.type group.declarators
  | genvars group => ∀ name ∈ group.names, isNameText name = true
  | assign group => group.Lexical
  | always a => a.Lexical
  | initial i => i.body.Lexical
  | instantiation inst => inst.Lexical
  | block b => LexicalBlock b
  | region _ items => LexicalAll items
  | generateIf _ condition thenBlock elseBlock =>
    condition.Lexical ∧ LexicalBlock thenBlock ∧ LexicalOption elseBlock
  | generateFor _ header body => header.Lexical ∧ LexicalBlock body
  | generateCase _ selector items default =>
    selector.Lexical ∧ LexicalCases items ∧ LexicalOption default
  | directive d => d.kind.Lexical
  | empty _ => True

def LexicalBlock : GenerateBlock α (BodyItem α) → Prop
  | ⟨_, label, items⟩ => (∀ name, label = some name → isNameText name = true) ∧ LexicalAll items

def LexicalAll : List (BodyItem α) → Prop
  | [] => True
  | item :: items => item.Lexical ∧ LexicalAll items

def LexicalOption : Option (GenerateBlock α (BodyItem α)) → Prop
  | none => True
  | some b => LexicalBlock b

def LexicalCases : List (CaseItem α (GenerateBlock α (BodyItem α))) → Prop
  | [] => True
  | ⟨_, labels, body⟩ :: items => (∀ e ∈ labels, e.Lexical) ∧ LexicalBlock body ∧ LexicalCases items

end

end BodyItem

structure Module.Lexical (m : Module α) : Prop where
  name : isNameText m.name = true
  params : ∀ group ∈ m.params, LexicalDeclared group.type group.declarators
  ports : m.ports.Lexical
  body : BodyItem.LexicalAll m.body

/-- The names, labels and literals of the item are lexemes. -/
def Item.Lexical : Item α → Prop
  | design m => m.Lexical
  | directive d => d.kind.Lexical

end SystemVerilog
