import SystemVerilog.Tree.Module

/-!
# Changing the tags of trees

Trees that differ only in their tags say the same. `map` changes the tags of declarations, statements and
items as `Expr.map` does for expressions, and `erase` takes them away.
-/

namespace SystemVerilog

variable {α β γ δ : Type}

theorem Expr.assigns?_map (f : α → β) (e : Expr α) : (e.map f).assigns? = e.assigns? := by
  cases e <;> rfl

/-! ### Parts of statements -/

def Bounds.map (f : α → β) (b : Bounds α) : Bounds β := ⟨f b.tag, b.left.map f, b.right.map f⟩

def DataType.map (f : α → β) (type : DataType α) : DataType β :=
  ⟨f type.tag, type.keyword, type.signing, type.packed.map (Bounds.map f)⟩

def Delay.map (f : α → β) (delay : Delay α) : Delay β :=
  ⟨f delay.tag, delay.magnitude.map f, delay.unit⟩

def Event.map (f : α → β) (event : Event α) : Event β :=
  ⟨f event.tag, event.edge, event.expr.map f⟩

def Sensitivity.map (f : α → β) (sensitivity : Sensitivity α) : Sensitivity β :=
  ⟨f sensitivity.tag, sensitivity.star, sensitivity.events.map (Event.map f)⟩

def LoopInit.map (f : α → β) (init : LoopInit α) : LoopInit β :=
  ⟨f init.tag, init.genvar, init.type.map (DataType.map f), init.assignment.map f⟩

def LoopHeader.map (f : α → β) (header : LoopHeader α) : LoopHeader β :=
  ⟨f header.tag, header.init.map (LoopInit.map f), header.condition.map (Expr.map f),
    header.step.map (Expr.map f)⟩

/-! ### Statements -/

namespace Statement

mutual

/-- The same statement with other tags. -/
def map (f : α → β) : Statement α → Statement β
  | block tag label statements => .block (f tag) label (mapAll f statements)
  | ifElse tag condition thenBranch elseBranch =>
    .ifElse (f tag) (condition.map f) (thenBranch.map f) (mapOption f elseBranch)
  | caseOf tag kind selector items default =>
    .caseOf (f tag) kind (selector.map f) (mapItems f items) (mapOption f default)
  | loop tag header body => .loop (f tag) (header.map f) (body.map f)
  | delayed tag delay body => .delayed (f tag) (delay.map f) (body.map f)
  | event tag sensitivity body => .event (f tag) (sensitivity.map f) (body.map f)
  | expression tag expr => .expression (f tag) (expr.map f)
  | empty tag => .empty (f tag)

/-- The same statements with other tags. -/
def mapAll (f : α → β) : List (Statement α) → List (Statement β)
  | [] => []
  | s :: ss => s.map f :: mapAll f ss

/-- The same statement with other tags, if there is one. -/
def mapOption (f : α → β) : Option (Statement α) → Option (Statement β)
  | none => none
  | some s => some (s.map f)

/-- The same case items with other tags. -/
def mapItems (f : α → β) :
    List (CaseItem α (Statement α)) → List (CaseItem β (Statement β))
  | [] => []
  | ⟨tag, labels, body⟩ :: items => ⟨f tag, labels.map (Expr.map f), body.map f⟩ :: mapItems f items

end

/-- The statement without its tags. -/
def erase (s : Statement α) : Statement Unit := s.map fun _ => ()

end Statement

/-- The same case item with other tags. -/
def CaseItem.map (f : α → β) (g : γ → δ) (item : CaseItem α γ) : CaseItem β δ :=
  ⟨f item.tag, item.labels.map (Expr.map f), g item.body⟩

namespace Statement

theorem mapAll_eq_map (f : α → β) (ss : List (Statement α)) : mapAll f ss = ss.map (map f) := by
  induction ss with
  | nil => rfl
  | cons s ss ih => rw [mapAll, ih, List.map_cons]

theorem mapOption_eq_map (f : α → β) (o : Option (Statement α)) : mapOption f o = o.map (map f) := by
  cases o <;> rfl

theorem mapItems_eq_map (f : α → β) (items : List (CaseItem α (Statement α))) :
    mapItems f items = items.map (CaseItem.map f (map f)) := by
  induction items with
  | nil => rfl
  | cons item items ih =>
    rw [mapItems, ih, List.map_cons]
    rfl

end Statement

/-! ### Declarations -/

def Dimension.map (f : α → β) : Dimension α → Dimension β
  | bounds b => .bounds (b.map f)
  | size tag index => .size (f tag) (index.map f)

def Declarator.map (f : α → β) (d : Declarator α) : Declarator β :=
  ⟨f d.tag, d.name, d.dims.map (Dimension.map f), d.value.map (Expr.map f)⟩

def ParameterGroup.map (f : α → β) (group : ParameterGroup α) : ParameterGroup β :=
  ⟨f group.tag, group.isLocal, group.type.map (DataType.map f), group.declarators.map (Declarator.map f)⟩

def PortGroup.map (f : α → β) (group : PortGroup α) : PortGroup β :=
  ⟨f group.tag, group.direction, group.net, group.type.map (DataType.map f),
    group.declarators.map (Declarator.map f)⟩

def SignalGroup.map (f : α → β) (group : SignalGroup α) : SignalGroup β :=
  ⟨f group.tag, group.net, group.type.map (DataType.map f), group.declarators.map (Declarator.map f)⟩

def PortName.map (f : α → β) (name : PortName α) : PortName β := ⟨f name.tag, name.name⟩

def PortList.map (f : α → β) : PortList α → PortList β
  | empty => .empty
  | ansi groups => .ansi (groups.map (PortGroup.map f))
  | nonAnsi names => .nonAnsi (names.map (PortName.map f))

def Genvars.map (f : α → β) (group : Genvars α) : Genvars β := ⟨f group.tag, group.names⟩

def Connection.map (f : α → β) (c : Connection α) : Connection β :=
  ⟨f c.tag, c.name, c.value.map (Expr.map f)⟩

def Instantiation.map (f : α → β) (inst : Instantiation α) : Instantiation β :=
  ⟨f inst.tag, inst.moduleName, inst.params.map (Connection.map f), inst.instanceName,
    inst.ports.map (Connection.map f)⟩

/-! ### Directives -/

def DirectiveKind.map (f : α → β) : DirectiveKind α → DirectiveKind β
  | resetAll => .resetAll
  | cellDefine => .cellDefine
  | endCellDefine => .endCellDefine
  | beginKeywords version => .beginKeywords version
  | endKeywords => .endKeywords
  | includeFile path => .includeFile path
  | timescale unit precision => .timescale unit precision
  | defaultNettype netType => .defaultNettype netType
  | unconnectedDrive pull => .unconnectedDrive pull
  | noUnconnectedDrive => .noUnconnectedDrive
  | conditional negated macroName skipped => .conditional negated macroName (f skipped)

def Directive.map (f : α → β) (d : Directive α) : Directive β := ⟨f d.tag, d.kind.map f⟩

/-! ### Items -/

def ContinuousAssign.map (f : α → β) (group : ContinuousAssign α) : ContinuousAssign β :=
  ⟨f group.tag, group.delay.map (Delay.map f), group.assignments.map (Expr.map f)⟩

def AlwaysBlock.map (f : α → β) (a : AlwaysBlock α) : AlwaysBlock β :=
  ⟨f a.tag, a.kind, a.sensitivity.map (Sensitivity.map f), a.body.map f⟩

def InitialBlock.map (f : α → β) (i : InitialBlock α) : InitialBlock β := ⟨f i.tag, i.body.map f⟩

namespace BodyItem

mutual

/-- The same item with other tags. -/
def map (f : α → β) : BodyItem α → BodyItem β
  | parameters group => .parameters (group.map f)
  | ports group => .ports (group.map f)
  | signals group => .signals (group.map f)
  | genvars group => .genvars (group.map f)
  | assign group => .assign (group.map f)
  | always a => .always (a.map f)
  | initial i => .initial (i.map f)
  | instantiation inst => .instantiation (inst.map f)
  | block b => .block (mapBlock f b)
  | region tag items => .region (f tag) (mapAll f items)
  | generateIf tag condition thenBlock elseBlock =>
    .generateIf (f tag) (condition.map f) (mapBlock f thenBlock) (mapOption f elseBlock)
  | generateFor tag header body => .generateFor (f tag) (header.map f) (mapBlock f body)
  | generateCase tag selector items default =>
    .generateCase (f tag) (selector.map f) (mapItems f items) (mapOption f default)
  | directive d => .directive (d.map f)
  | empty tag => .empty (f tag)

/-- The same generate scope with other tags. -/
def mapBlock (f : α → β) : GenerateBlock α (BodyItem α) → GenerateBlock β (BodyItem β)
  | ⟨tag, label, items⟩ => ⟨f tag, label, mapAll f items⟩

/-- The same items with other tags. -/
def mapAll (f : α → β) : List (BodyItem α) → List (BodyItem β)
  | [] => []
  | item :: items => item.map f :: mapAll f items

/-- The same generate scope with other tags, if there is one. -/
def mapOption (f : α → β) :
    Option (GenerateBlock α (BodyItem α)) → Option (GenerateBlock β (BodyItem β))
  | none => none
  | some b => some (mapBlock f b)

/-- The same case items with other tags. -/
def mapItems (f : α → β) : List (CaseItem α (GenerateBlock α (BodyItem α))) →
    List (CaseItem β (GenerateBlock β (BodyItem β)))
  | [] => []
  | ⟨tag, labels, body⟩ :: items =>
    ⟨f tag, labels.map (Expr.map f), mapBlock f body⟩ :: mapItems f items

end

theorem mapAll_eq_map (f : α → β) (items : List (BodyItem α)) : mapAll f items = items.map (map f) := by
  induction items with
  | nil => rfl
  | cons item items ih => rw [mapAll, ih, List.map_cons]

theorem mapOption_eq_map (f : α → β) (o : Option (GenerateBlock α (BodyItem α))) :
    mapOption f o = o.map (mapBlock f) := by
  cases o <;> rfl

theorem mapItems_eq_map (f : α → β) (items : List (CaseItem α (GenerateBlock α (BodyItem α)))) :
    mapItems f items = items.map (CaseItem.map f (mapBlock f)) := by
  induction items with
  | nil => rfl
  | cons item items ih =>
    rw [mapItems, ih, List.map_cons]
    rfl

end BodyItem

/-! ### Sources -/

def Module.map (f : α → β) (m : Module α) : Module β :=
  ⟨f m.tag, m.name, m.params.map (ParameterGroup.map f), m.ports.map f, m.body.map (BodyItem.map f)⟩

/-- The same item with other tags. -/
def Item.map (f : α → β) : Item α → Item β
  | design m => .design (m.map f)
  | directive d => .directive (d.map f)

/-- The item without its tags. -/
def Item.erase (i : Item α) : Item Unit := i.map fun _ => ()

/-! ### Keeping the tags -/

/-- A value that stays as it is where there is one. -/
theorem option_map_id {f : α → α} (h : ∀ a, f a = a) (o : Option α) : o.map f = o := by
  cases o with
  | none => rfl
  | some a => rw [Option.map_some, h]

namespace Expr

mutual

theorem map_id : ∀ e : Expr α, e.map id = e
  | identifier .. => rfl
  | systemIdentifier .. => rfl
  | literal .. => rfl
  | unary _ _ operand => by rw [map, map_id operand, id]
  | binary _ _ lhs rhs => by rw [map, map_id lhs, map_id rhs, id]
  | parenthesis _ inner => by rw [map, map_id inner, id]
  | index _ target subscript => by rw [map, map_id target, map_id subscript, id]
  | slice _ _ target left right => by rw [map, map_id target, map_id left, map_id right, id]
  | conditional _ condition thenExpr elseExpr => by
    rw [map, map_id condition, map_id thenExpr, map_id elseExpr, id]
  | assignment _ _ target value => by rw [map, map_id target, map_id value, id]
  | delayedAssignment _ _ target _ magnitude _ value => by
    rw [map, map_id target, map_id magnitude, map_id value, id, id]
  | concatenation _ items => by rw [map, mapAll_id items, id]
  | replication _ count items => by rw [map, map_id count, mapAll_id items, id]
  | arrayPattern _ items => by rw [map, mapAll_id items, id]
  | call _ callee _ args => by rw [map, map_id callee, mapAll_id args, id, id]
  | member _ target _ => by rw [map, map_id target, id]
  | scope _ outer _ => by rw [map, map_id outer, id]

theorem mapAll_id : ∀ es : List (Expr α), mapAll id es = es
  | [] => rfl
  | e :: es => by rw [mapAll, map_id e, mapAll_id es]

end

end Expr

theorem Bounds.map_id (b : Bounds α) : b.map id = b := by
  rw [map, Expr.map_id, Expr.map_id, id]

theorem DataType.map_id (type : DataType α) : type.map id = type := by
  rw [map, List.map_id'' Bounds.map_id, id]

theorem Delay.map_id (delay : Delay α) : delay.map id = delay := by
  rw [map, Expr.map_id, id]

theorem Event.map_id (event : Event α) : event.map id = event := by
  rw [map, Expr.map_id, id]

theorem Sensitivity.map_id (sensitivity : Sensitivity α) : sensitivity.map id = sensitivity := by
  rw [map, List.map_id'' Event.map_id, id]

theorem LoopInit.map_id (init : LoopInit α) : init.map id = init := by
  rw [map, option_map_id DataType.map_id, Expr.map_id, id]

theorem LoopHeader.map_id (header : LoopHeader α) : header.map id = header := by
  rw [map, option_map_id LoopInit.map_id, option_map_id Expr.map_id, option_map_id Expr.map_id, id]

namespace Statement

mutual

theorem map_id : ∀ s : Statement α, s.map id = s
  | block _ _ statements => by rw [map, mapAll_id statements, id]
  | ifElse _ condition thenBranch elseBranch => by
    rw [map, condition.map_id, map_id thenBranch, mapOption_id elseBranch, id]
  | caseOf _ _ selector items default => by
    rw [map, selector.map_id, mapItems_id items, mapOption_id default, id]
  | loop _ header body => by rw [map, header.map_id, map_id body, id]
  | delayed _ delay body => by rw [map, delay.map_id, map_id body, id]
  | event _ sensitivity body => by rw [map, sensitivity.map_id, map_id body, id]
  | expression _ expr => by rw [map, expr.map_id, id]
  | empty _ => rfl

theorem mapAll_id : ∀ ss : List (Statement α), mapAll id ss = ss
  | [] => rfl
  | s :: ss => by rw [mapAll, map_id s, mapAll_id ss]

theorem mapOption_id : ∀ o : Option (Statement α), mapOption id o = o
  | none => rfl
  | some s => by rw [mapOption, map_id s]

theorem mapItems_id : ∀ items : List (CaseItem α (Statement α)), mapItems id items = items
  | [] => rfl
  | ⟨_, _, body⟩ :: items => by rw [mapItems, List.map_id'' Expr.map_id, map_id body, mapItems_id items, id]

end

end Statement

theorem Dimension.map_id (d : Dimension α) : d.map id = d := by
  cases d with
  | bounds b => rw [map, b.map_id]
  | size tag index => rw [map, index.map_id, id]

theorem Declarator.map_id (d : Declarator α) : d.map id = d := by
  rw [map, List.map_id'' Dimension.map_id, option_map_id Expr.map_id, id]

theorem ParameterGroup.map_id (group : ParameterGroup α) : group.map id = group := by
  rw [map, option_map_id DataType.map_id, List.map_id'' Declarator.map_id, id]

theorem PortGroup.map_id (group : PortGroup α) : group.map id = group := by
  rw [map, option_map_id DataType.map_id, List.map_id'' Declarator.map_id, id]

theorem SignalGroup.map_id (group : SignalGroup α) : group.map id = group := by
  rw [map, option_map_id DataType.map_id, List.map_id'' Declarator.map_id, id]

theorem PortList.map_id (ports : PortList α) : ports.map id = ports := by
  cases ports with
  | empty => rfl
  | ansi groups => rw [map, List.map_id'' PortGroup.map_id]
  | nonAnsi names => rw [map, List.map_id'' (f := PortName.map id) fun _ => rfl]

theorem Connection.map_id (c : Connection α) : c.map id = c := by
  rw [map, option_map_id Expr.map_id, id]

theorem Instantiation.map_id (inst : Instantiation α) : inst.map id = inst := by
  rw [map, List.map_id'' Connection.map_id, List.map_id'' Connection.map_id, id]

theorem Directive.map_id (d : Directive α) : d.map id = d := by
  rw [map, id]
  cases d with
  | mk tag kind => cases kind <;> rfl

theorem ContinuousAssign.map_id (group : ContinuousAssign α) : group.map id = group := by
  rw [map, option_map_id Delay.map_id, List.map_id'' Expr.map_id, id]

theorem AlwaysBlock.map_id (a : AlwaysBlock α) : a.map id = a := by
  rw [map, option_map_id Sensitivity.map_id, Statement.map_id, id]

theorem InitialBlock.map_id (i : InitialBlock α) : i.map id = i := by
  rw [map, Statement.map_id, id]

namespace BodyItem

mutual

theorem map_id : ∀ item : BodyItem α, item.map id = item
  | parameters group => by rw [map, group.map_id]
  | ports group => by rw [map, group.map_id]
  | signals group => by rw [map, group.map_id]
  | genvars _ => rfl
  | assign group => by rw [map, group.map_id]
  | always a => by rw [map, a.map_id]
  | initial i => by rw [map, i.map_id]
  | instantiation inst => by rw [map, inst.map_id]
  | block b => by rw [map, mapBlock_id b]
  | region _ items => by rw [map, mapAll_id items, id]
  | generateIf _ condition thenBlock elseBlock => by
    rw [map, condition.map_id, mapBlock_id thenBlock, mapOption_id elseBlock, id]
  | generateFor _ header body => by rw [map, header.map_id, mapBlock_id body, id]
  | generateCase _ selector items default => by
    rw [map, selector.map_id, mapItems_id items, mapOption_id default, id]
  | directive d => by rw [map, d.map_id]
  | empty _ => rfl

theorem mapBlock_id : ∀ b : GenerateBlock α (BodyItem α), mapBlock id b = b
  | ⟨_, _, items⟩ => by rw [mapBlock, mapAll_id items, id]

theorem mapAll_id : ∀ items : List (BodyItem α), mapAll id items = items
  | [] => rfl
  | item :: items => by rw [mapAll, map_id item, mapAll_id items]

theorem mapOption_id : ∀ o : Option (GenerateBlock α (BodyItem α)), mapOption id o = o
  | none => rfl
  | some b => by rw [mapOption, mapBlock_id b]

theorem mapItems_id : ∀ items : List (CaseItem α (GenerateBlock α (BodyItem α))), mapItems id items = items
  | [] => rfl
  | ⟨_, _, body⟩ :: items => by
    rw [mapItems, List.map_id'' Expr.map_id, mapBlock_id body, mapItems_id items, id]

end

end BodyItem

theorem Module.map_id (m : Module α) : m.map id = m := by
  rw [map, List.map_id'' ParameterGroup.map_id, PortList.map_id, List.map_id'' BodyItem.map_id, id]

/-- Items stay as they are if their tags do. -/
theorem Item.map_id (i : Item α) : i.map id = i := by
  cases i with
  | design m => rw [map, m.map_id]
  | directive d => rw [map, d.map_id]

end SystemVerilog
