import SystemVerilog.Proofs.Tree.Expressions

/-!
# The data types of a tree

The data types that stand in a tree are listed in the order of the constructors: those of parameters, ports,
nets and variables, and those of the variables that loops start with. The expressions in the bounds of these data
types are among the expressions of the tree.
-/

namespace SystemVerilog

variable {α : Type}

/-! ### Statements -/

def LoopHeader.dataTypes (header : LoopHeader α) : List (DataType α) :=
  header.init.toList.flatMap fun init => init.type.toList

namespace Statement

mutual

/-- The data types of a statement, at any depth. -/
def dataTypes : Statement α → List (DataType α)
  | block _ _ statements => dataTypesAll statements
  | ifElse _ _ thenBranch elseBranch => thenBranch.dataTypes ++ dataTypesOption elseBranch
  | caseOf _ _ _ items default => dataTypesItems items ++ dataTypesOption default
  | loop _ header body => header.dataTypes ++ body.dataTypes
  | delayed _ _ body => body.dataTypes
  | event _ _ body => body.dataTypes
  | expression _ _ | empty _ => []

def dataTypesAll : List (Statement α) → List (DataType α)
  | [] => []
  | s :: ss => s.dataTypes ++ dataTypesAll ss

def dataTypesOption : Option (Statement α) → List (DataType α)
  | none => []
  | some s => s.dataTypes

def dataTypesItems : List (CaseItem α (Statement α)) → List (DataType α)
  | [] => []
  | ⟨_, _, body⟩ :: items => body.dataTypes ++ dataTypesItems items

end

end Statement

/-! ### Module items -/

namespace BodyItem

mutual

/-- The data types of a body item, at any depth. -/
def dataTypes : BodyItem α → List (DataType α)
  | parameters group => group.type.toList
  | ports group => group.type.toList
  | signals group => group.type.toList
  | always a => a.body.dataTypes
  | initial i => i.body.dataTypes
  | block b => dataTypesBlock b
  | region _ items => dataTypesAll items
  | generateIf _ _ thenBlock elseBlock => dataTypesBlock thenBlock ++ dataTypesOption elseBlock
  | generateFor _ header body => header.dataTypes ++ dataTypesBlock body
  | generateCase _ _ items default => dataTypesItems items ++ dataTypesOption default
  | genvars _ | assign _ | instantiation _ | directive _ | empty _ => []

def dataTypesBlock : GenerateBlock α (BodyItem α) → List (DataType α)
  | ⟨_, _, items⟩ => dataTypesAll items

def dataTypesAll : List (BodyItem α) → List (DataType α)
  | [] => []
  | item :: items => item.dataTypes ++ dataTypesAll items

def dataTypesOption : Option (GenerateBlock α (BodyItem α)) → List (DataType α)
  | none => []
  | some b => dataTypesBlock b

def dataTypesItems : List (CaseItem α (GenerateBlock α (BodyItem α))) → List (DataType α)
  | [] => []
  | ⟨_, _, body⟩ :: items => dataTypesBlock body ++ dataTypesItems items

end

end BodyItem

/-! ### Sources -/

/-- The data types of the ports that a header declares. -/
def PortList.dataTypes : PortList α → List (DataType α)
  | empty | nonAnsi _ => []
  | ansi groups => groups.flatMap fun group => group.type.toList

def Module.dataTypes (m : Module α) : List (DataType α) :=
  (m.params.flatMap fun group => group.type.toList) ++ (m.ports.dataTypes ++ m.body.flatMap BodyItem.dataTypes)

def Item.dataTypes : Item α → List (DataType α)
  | design m => m.dataTypes
  | directive _ => []

/-- Every data type of a source unit. -/
def SourceUnit.dataTypes (unit : SourceUnit) : List (DataType Site) := unit.items.flatMap Item.dataTypes

/-! ### The expressions of data types -/

/-- The expressions of all the data types are among these. -/
def Covers (types : List (DataType α)) (es : List (Expr α)) : Prop := ∀ type ∈ types, type.expressions ⊆ es

namespace Covers

variable {types types' : List (DataType α)} {es es' : List (Expr α)} {e : Expr α}

theorem nil : Covers [] es := List.forall_mem_nil _

theorem append (h : Covers types es) (h' : Covers types' es') : Covers (types ++ types') (es ++ es') := by
  intro type htype
  rcases List.mem_append.1 htype with htype | htype
  · exact List.subset_append_of_subset_left _ (h type htype)
  · exact List.subset_append_of_subset_right _ (h' type htype)

theorem left (h : Covers types es) : Covers types (es ++ es') :=
  fun type htype => List.subset_append_of_subset_left _ (h type htype)

theorem right (h : Covers types es) : Covers types (es' ++ es) :=
  fun type htype => List.subset_append_of_subset_right _ (h type htype)

theorem cons (h : Covers types es) : Covers types (e :: es) :=
  fun type htype => List.subset_cons_of_subset _ (h type htype)

theorem flatMap {β : Type} {f : β → List (DataType α)} {g : β → List (Expr α)} (h : ∀ b, Covers (f b) (g b))
    (bs : List β) : Covers (bs.flatMap f) (bs.flatMap g) := by
  induction bs with
  | nil => exact .nil
  | cons b bs ih =>
    rw [List.flatMap_cons, List.flatMap_cons]
    exact (h b).append ih

theorem toList (type : Option (DataType α)) : Covers type.toList (type.toList.flatMap DataType.expressions) :=
  fun _ htype _ he => List.mem_flatMap.2 ⟨_, htype, he⟩

theorem group (type : Option (DataType α)) (declarators : List (Declarator α)) :
    Covers type.toList (groupExpressions type declarators) := (toList type).left

end Covers

theorem LoopHeader.covers (header : LoopHeader α) : Covers header.dataTypes header.expressions := by
  have hinit (init : LoopInit α) : Covers init.type.toList init.expressions := (Covers.toList init.type).left
  exact (Covers.flatMap hinit _).left

namespace Statement

mutual

theorem covers : (s : Statement α) → Covers s.dataTypes s.expressions
  | block _ _ statements => coversAll statements
  | ifElse _ _ thenBranch elseBranch => (thenBranch.covers.append (coversOption elseBranch)).cons
  | caseOf _ _ _ items default => ((coversItems items).append (coversOption default)).cons
  | loop _ header body => header.covers.append body.covers
  | delayed _ _ body => body.covers.right
  | event _ _ body => body.covers.right
  | expression _ _ => .nil
  | empty _ => .nil

theorem coversAll : (ss : List (Statement α)) → Covers (dataTypesAll ss) (expressionsAll ss)
  | [] => .nil
  | s :: ss => s.covers.append (coversAll ss)

theorem coversOption : (o : Option (Statement α)) → Covers (dataTypesOption o) (expressionsOption o)
  | none => .nil
  | some s => s.covers

theorem coversItems : (items : List (CaseItem α (Statement α))) → Covers (dataTypesItems items) (expressionsItems items)
  | [] => .nil
  | ⟨_, _, body⟩ :: items => body.covers.right.append (coversItems items)

end

end Statement

namespace BodyItem

mutual

theorem covers : (item : BodyItem α) → Covers item.dataTypes item.expressions
  | parameters group => .group group.type group.declarators
  | ports group => .group group.type group.declarators
  | signals group => .group group.type group.declarators
  | always a => a.body.covers.right
  | initial i => i.body.covers
  | block b => coversBlock b
  | region _ items => coversAll items
  | generateIf _ _ thenBlock elseBlock => ((coversBlock thenBlock).append (coversOption elseBlock)).cons
  | generateFor _ header body => header.covers.append (coversBlock body)
  | generateCase _ _ items default => ((coversItems items).append (coversOption default)).cons
  | genvars _ => .nil
  | assign _ => .nil
  | instantiation _ => .nil
  | directive _ => .nil
  | empty _ => .nil

theorem coversBlock : (b : GenerateBlock α (BodyItem α)) → Covers (dataTypesBlock b) (expressionsBlock b)
  | ⟨_, _, items⟩ => coversAll items

theorem coversAll : (items : List (BodyItem α)) → Covers (dataTypesAll items) (expressionsAll items)
  | [] => .nil
  | item :: items => item.covers.append (coversAll items)

theorem coversOption : (o : Option (GenerateBlock α (BodyItem α))) → Covers (dataTypesOption o) (expressionsOption o)
  | none => .nil
  | some b => coversBlock b

theorem coversItems : (items : List (CaseItem α (GenerateBlock α (BodyItem α)))) →
    Covers (dataTypesItems items) (expressionsItems items)
  | [] => .nil
  | ⟨_, _, body⟩ :: items => (coversBlock body).right.append (coversItems items)

end

end BodyItem

theorem Module.covers (m : Module α) : Covers m.dataTypes m.expressions := by
  have hparameters (group : ParameterGroup α) : Covers group.type.toList group.expressions :=
    .group group.type group.declarators
  have hports (group : PortGroup α) : Covers group.type.toList group.expressions :=
    .group group.type group.declarators
  refine (Covers.flatMap hparameters _).append (.append ?_ (.flatMap BodyItem.covers _))
  cases m.ports with
  | empty => exact .nil
  | nonAnsi names => exact .nil
  | ansi groups => exact .flatMap hports _

/-- The expressions of the data types in a tree are expressions of the tree. -/
theorem SourceUnit.covers (unit : SourceUnit) : Covers unit.dataTypes (unit.items.flatMap Item.expressions) :=
  .flatMap (fun item => match item with
    | .design m => m.covers
    | .directive _ => .nil) _

end SystemVerilog
