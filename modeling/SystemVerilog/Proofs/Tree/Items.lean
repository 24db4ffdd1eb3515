import SystemVerilog.Tree.Module

/-!
# The items of a tree

An item of a module body may have items inside it: a block, a region, or one of the generate constructs. The walk
over an item comes by the item and by all items inside it, at any depth.
-/

namespace SystemVerilog

variable {α : Type}

namespace BodyItem

mutual

/-- The items inside an item, at any depth. -/
def inside : BodyItem α → List (BodyItem α)
  | parameters _ | ports _ | signals _ | genvars _ | assign _ | always _ | initial _ | instantiation _ => []
  | block b => insideBlock b
  | region _ items => walkAll items
  | generateIf _ _ thenBlock elseBlock => insideBlock thenBlock ++ insideOption elseBlock
  | generateFor _ _ body => insideBlock body
  | generateCase _ _ items default => insideItems items ++ insideOption default
  | directive _ | empty _ => []

def insideBlock : GenerateBlock α (BodyItem α) → List (BodyItem α)
  | ⟨_, _, items⟩ => walkAll items

/-- The items, each before those inside it. -/
def walkAll : List (BodyItem α) → List (BodyItem α)
  | [] => []
  | item :: items => item :: (item.inside ++ walkAll items)

def insideOption : Option (GenerateBlock α (BodyItem α)) → List (BodyItem α)
  | none => []
  | some b => insideBlock b

def insideItems : List (CaseItem α (GenerateBlock α (BodyItem α))) → List (BodyItem α)
  | [] => []
  | ⟨_, _, body⟩ :: items => insideBlock body ++ insideItems items

end

/-- An item and the items inside it. -/
def walk (i : BodyItem α) : List (BodyItem α) := i :: i.inside

theorem walkAll_eq (items : List (BodyItem α)) : walkAll items = items.flatMap walk := by
  induction items with
  | nil => rfl
  | cons item items ih =>
    rw [walkAll, ih, List.flatMap_cons]
    rfl

theorem insideOption_eq (o : Option (GenerateBlock α (BodyItem α))) :
    insideOption o = o.toList.flatMap insideBlock := by
  cases o with
  | none => rfl
  | some b => rw [insideOption, Option.toList_some, List.flatMap_singleton]

theorem insideItems_eq (items : List (CaseItem α (GenerateBlock α (BodyItem α)))) :
    insideItems items = items.flatMap fun i => insideBlock i.body := by
  induction items with
  | nil => rfl
  | cons item items ih => rw [insideItems, ih, List.flatMap_cons]

end BodyItem

/-- The items in the body of a module, at any depth. -/
def Module.bodyItems (m : Module α) : List (BodyItem α) := m.body.flatMap BodyItem.walk

end SystemVerilog
