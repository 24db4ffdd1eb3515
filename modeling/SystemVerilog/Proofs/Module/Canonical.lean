import SystemVerilog.Proofs.Statement.Canonical

/-!
# Canonical modules

A list of modules and directives is canonical if it can be written down so that it is read back as it is:
its expressions and statements are canonical, every declaration declares something, what a declaration
leaves out is not needed to tell it from other items, and no name with a dollar sign is spelled like a
word that opens or closes a block, a generate region or a module.
-/

namespace SystemVerilog

variable {α : Type}

/-! ### Names with a dollar sign -/

/-- Names spelled like the words that open or close a module or a generate region. -/
def scopeNames : List String := ["$module", "$endmodule", "$generate", "$endgenerate"]

/-- None of the names is spelled like a word that opens or closes a module or a generate region. -/
def Unscoped (names : List String) : Prop := ∀ name ∈ names, name ∉ scopeNames

theorem unscoped_append {ms ns : List String} : Unscoped (ms ++ ns) ↔ Unscoped ms ∧ Unscoped ns :=
  List.forall_mem_append

theorem unscoped_flatMap {β : Type} {f : β → List String} {bs : List β} :
    Unscoped (bs.flatMap f) ↔ ∀ b ∈ bs, Unscoped (f b) := by
  unfold Unscoped
  constructor
  · intro h b hb name hname
    exact h name (List.mem_flatMap.2 ⟨b, hb, hname⟩)
  · intro h name hname
    obtain ⟨b, hb, hname⟩ := List.mem_flatMap.1 hname
    exact h b hb name hname

/-- The names with a dollar sign in something that may be missing. -/
def optionNames {β : Type} (names : β → List String) (o : Option β) : List String :=
  o.toList.flatMap names

theorem Unscoped.option {β : Type} {names : β → List String} {o : Option β}
    (h : Unscoped (optionNames names o)) {b : β} (hb : o = some b) : Unscoped (names b) :=
  unscoped_flatMap.1 h b (Option.mem_toList.2 hb)

def Bounds.systemNames (b : Bounds α) : List String := b.left.systemNames ++ b.right.systemNames

def DataType.systemNames (type : DataType α) : List String := type.packed.flatMap Bounds.systemNames

def Sensitivity.systemNames (sensitivity : Sensitivity α) : List String :=
  sensitivity.events.flatMap fun event => event.expr.systemNames

def LoopInit.systemNames (init : LoopInit α) : List String :=
  optionNames DataType.systemNames init.type ++ init.assignment.systemNames

def LoopHeader.systemNames (header : LoopHeader α) : List String :=
  optionNames LoopInit.systemNames header.init ++
    (optionNames Expr.systemNames header.condition ++ optionNames Expr.systemNames header.step)

namespace Statement

mutual

/-- The names with a dollar sign that occur in a statement. -/
def systemNames : Statement α → List String
  | block _ _ statements => systemNamesAll statements
  | ifElse _ condition thenBranch elseBranch =>
    condition.systemNames ++ (thenBranch.systemNames ++ systemNamesOption elseBranch)
  | caseOf _ _ selector items default =>
    selector.systemNames ++ (systemNamesItems items ++ systemNamesOption default)
  | loop _ header body => header.systemNames ++ body.systemNames
  | delayed _ delay body => delay.magnitude.systemNames ++ body.systemNames
  | event _ sensitivity body => sensitivity.systemNames ++ body.systemNames
  | expression _ e => e.systemNames
  | empty _ => []

def systemNamesAll : List (Statement α) → List String
  | [] => []
  | s :: ss => s.systemNames ++ systemNamesAll ss

def systemNamesOption : Option (Statement α) → List String
  | none => []
  | some s => s.systemNames

def systemNamesItems : List (CaseItem α (Statement α)) → List String
  | [] => []
  | ⟨_, labels, body⟩ :: items =>
    labels.flatMap Expr.systemNames ++ (body.systemNames ++ systemNamesItems items)

end

end Statement

/-! ### Declarations -/

/-- An expression that may stand anywhere in a module. -/
def Expr.Fits (e : Expr α) : Prop := e.Embeds ∧ Unscoped e.systemNames

/-- A data type that may stand anywhere in a module. -/
def DataType.Fits (type : DataType α) : Prop := type.Canonical ∧ Unscoped type.systemNames

def Dimension.Canonical : Dimension α → Prop
  | bounds b => b.Canonical ∧ Unscoped b.systemNames
  | size _ index => index.Fits

structure Declarator.Canonical (d : Declarator α) : Prop where
  dims : ∀ dim ∈ d.dims, dim.Canonical
  value : ∀ e, d.value = some e → e.Fits

/-- At least one name is declared, with a type that may be missing. -/
structure Declares (type : Option (DataType α)) (declarators : List (Declarator α)) : Prop where
  type : ∀ t, type = some t → t.Fits
  nonempty : declarators ≠ []
  declarators : ∀ d ∈ declarators, d.Canonical

def ParameterGroup.Canonical (group : ParameterGroup α) : Prop := Declares group.type group.declarators

structure PortGroup.Canonical (group : PortGroup α) : Prop where
  net : ∀ k, group.net = some k → k.isNetType = true
  declares : Declares group.type group.declarators

/-- A declaration of signals starts with a word: a net type or that of a data type. -/
structure SignalGroup.Canonical (group : SignalGroup α) : Prop where
  net : ∀ k, group.net = some k → k.isNetType = true
  worded : group.net ≠ none ∨ ∃ type, group.type = some type ∧ type.keyword ≠ none
  declares : Declares group.type group.declarators

def PortList.Canonical : PortList α → Prop
  | empty => True
  | ansi groups => groups ≠ [] ∧ ∀ group ∈ groups, group.Canonical
  | nonAnsi names => names ≠ []

/-- A connection says what is connected, what it is connected to, or both. -/
structure Connection.Canonical (c : Connection α) : Prop where
  present : c.name ≠ none ∨ c.value ≠ none
  value : ∀ e, c.value = some e → e.Fits

structure Instantiation.Canonical (inst : Instantiation α) : Prop where
  params : ∀ c ∈ inst.params, c.Canonical
  ports : ∀ c ∈ inst.ports, c.Canonical

/-! ### Directives -/

def TimeValue.Canonical (t : TimeValue) : Prop := t.magnitude = 1 ∨ t.magnitude = 10 ∨ t.magnitude = 100

/-- A directive other than a conditional region, with arguments that can be given to it. -/
def DirectiveKind.Canonical : DirectiveKind α → Prop
  | timescale unit precision => unit.Canonical ∧ precision.Canonical
  | unconnectedDrive pull => pull.isPull = true
  | conditional _ _ _ => False
  | _ => True

/-! ### Items -/

/-- A statement that may stand in a module. -/
def Statement.Fits (s : Statement α) : Prop := s.Canonical ∧ Unscoped s.systemNames

/-- Whether a statement waits for an event. -/
def Statement.isEvent : Statement α → Bool
  | event _ _ _ => true
  | _ => false

/-- A plain assignment to an operand. -/
def Expr.AssignsPlainly : Expr α → Prop
  | assignment _ op _ _ => op = .assign
  | _ => False

structure ContinuousAssign.Canonical (group : ContinuousAssign α) : Prop where
  delay : ∀ d, group.delay = some d → d.Canonical ∧ Unscoped d.magnitude.systemNames
  nonempty : group.assignments ≠ []
  assignments : ∀ e ∈ group.assignments, e.AssignsPlainly ∧ e.Acts ∧ e.Unblocked ∧ Unscoped e.systemNames

/-- An event control in front of the body would be taken for that of the block. -/
structure AlwaysBlock.Canonical (a : AlwaysBlock α) : Prop where
  sensitivity : ∀ s, a.sensitivity = some s → s.Canonical ∧ Unscoped s.systemNames
  body : a.body.Fits
  controlled : a.sensitivity = none → a.body.isEvent = false

namespace BodyItem

mutual

/-- The item can be written down so that it is read back as it is. -/
def Canonical : BodyItem α → Prop
  | parameters group => group.Canonical
  | ports group => group.Canonical
  | signals group => group.Canonical
  | genvars group => group.names ≠ []
  | assign group => group.Canonical
  | always a => a.Canonical
  | initial i => i.body.Fits
  | instantiation inst => inst.Canonical
  | block b => CanonicalBlock b
  | region _ items => CanonicalAll items
  | generateIf _ condition thenBlock elseBlock =>
    condition.Fits ∧ CanonicalBlock thenBlock ∧ CanonicalOption elseBlock
  | generateFor _ header body => header.Canonical ∧ Unscoped header.systemNames ∧ CanonicalBlock body
  | generateCase _ selector items default =>
    selector.Fits ∧ CanonicalCases items ∧ CanonicalOption default
  | directive d => d.kind.Canonical
  | empty _ => True

def CanonicalBlock : GenerateBlock α (BodyItem α) → Prop
  | ⟨_, _, items⟩ => CanonicalAll items

def CanonicalAll : List (BodyItem α) → Prop
  | [] => True
  | item :: items => item.Canonical ∧ CanonicalAll items

def CanonicalOption : Option (GenerateBlock α (BodyItem α)) → Prop
  | none => True
  | some b => CanonicalBlock b

/-- Every case item has a label. -/
def CanonicalCases : List (CaseItem α (GenerateBlock α (BodyItem α))) → Prop
  | [] => True
  | ⟨_, labels, body⟩ :: items =>
    labels ≠ [] ∧ (∀ e ∈ labels, e.Fits) ∧ CanonicalBlock body ∧ CanonicalCases items

end

theorem canonicalAll_iff {items : List (BodyItem α)} : CanonicalAll items ↔ ∀ item ∈ items, item.Canonical := by
  induction items with
  | nil => simp [CanonicalAll]
  | cons item items ih => rw [CanonicalAll, ih, List.forall_mem_cons]

theorem canonicalOption_iff {o : Option (GenerateBlock α (BodyItem α))} :
    CanonicalOption o ↔ ∀ b ∈ o, CanonicalBlock b := by
  cases o <;> simp [CanonicalOption]

theorem canonicalCases_iff {items : List (CaseItem α (GenerateBlock α (BodyItem α)))} : CanonicalCases items ↔
    ∀ item ∈ items, item.labels ≠ [] ∧ (∀ e ∈ item.labels, e.Fits) ∧ CanonicalBlock item.body := by
  induction items with
  | nil => simp [CanonicalCases]
  | cons item items ih => rw [CanonicalCases, ih, List.forall_mem_cons, and_assoc, and_assoc]

end BodyItem

structure Module.Canonical (m : Module α) : Prop where
  params : ∀ group ∈ m.params, group.Canonical
  ports : m.ports.Canonical
  body : BodyItem.CanonicalAll m.body

def Item.Canonical : Item α → Prop
  | design m => m.Canonical
  | directive d => d.kind.Canonical

end SystemVerilog
