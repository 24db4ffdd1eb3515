import SystemVerilog.Tree.Module

/-!
# The directives of a tree

A directive stands at the top of a source, in the body of a module or in a generate construct of it. The
directives of a node are listed in the order of the constructor, those of a generate case with the default
last.
-/

namespace SystemVerilog

variable {α : Type}

namespace BodyItem

mutual

/-- The directives of a body item, at any depth. -/
def directives : BodyItem α → List (Directive α)
  | parameters _ | ports _ | signals _ | genvars _ | assign _ | always _ | initial _ | instantiation _ => []
  | block b => directivesBlock b
  | region _ items => directivesAll items
  | generateIf _ _ thenBlock elseBlock => directivesBlock thenBlock ++ directivesOption elseBlock
  | generateFor _ _ body => directivesBlock body
  | generateCase _ _ items default => directivesItems items ++ directivesOption default
  | directive d => [d]
  | empty _ => []

def directivesBlock : GenerateBlock α (BodyItem α) → List (Directive α)
  | ⟨_, _, items⟩ => directivesAll items

def directivesAll : List (BodyItem α) → List (Directive α)
  | [] => []
  | item :: items => item.directives ++ directivesAll items

def directivesOption : Option (GenerateBlock α (BodyItem α)) → List (Directive α)
  | none => []
  | some b => directivesBlock b

def directivesItems : List (CaseItem α (GenerateBlock α (BodyItem α))) → List (Directive α)
  | [] => []
  | ⟨_, _, body⟩ :: items => directivesBlock body ++ directivesItems items

end

theorem directivesAll_eq (items : List (BodyItem α)) : directivesAll items = items.flatMap directives := by
  induction items with
  | nil => rfl
  | cons item items ih => rw [directivesAll, ih, List.flatMap_cons]

end BodyItem

/-- The directives in the body of a module. -/
def Module.directives (m : Module α) : List (Directive α) := m.body.flatMap BodyItem.directives

namespace Item

/-- The directives of an item of a source, at any depth. -/
def directives : Item α → List (Directive α)
  | design m => m.directives
  | directive d => [d]

/-- The directive that an item is. -/
def directive? : Item α → Option (Directive α)
  | design _ => none
  | directive d => some d

end Item

end SystemVerilog
