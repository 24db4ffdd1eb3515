import SystemVerilog.Proofs.Roots.Items
import SystemVerilog.Proofs.Tree.Items

/-!
# Properties of items

A property of items is shown for the declarations of ports, for the instances, and for all other items. Where items
are read with the property, the items inside them have it too, since these were read as items.
-/

namespace SystemVerilog

open SystemVerilog.Parser

/-- An item that neither declares ports nor is an instance. -/
def BodyItem.IsOther : BodyItem Site → Prop
  | .ports _ | .instantiation _ => False
  | _ => True

variable {ts : List Token} {c : Cursor}

namespace Opens

/-! ### Items of items -/

section Nested

variable {nested : NestedItem} {P R : BodyItem Site → Prop} (hi : ∀ c₁, Opens ts c₁ nested fun i => Every R i.walk)
  {word : Keyword}

include hi

theorem insideBlockOf :
    Opens ts c (SystemVerilog.generateBlockOf nested) fun b => Every R (BodyItem.insideBlock b) := by
  refine .tagged <| lookLifted rfl ?_
  cases c.check (.word .kwBegin) with
  | true =>
    refine bind (P := fun r => Every R (r.2.flatMap BodyItem.walk)) ?_ fun r _ hr =>
      silent (lift (endLabel _)) fun _ _ => .pure fun _ => ?_
    · exact enclosed rfl rfl fun _ => silent (lift blockLabel) fun _ _ => bind (untilEnd hi) fun _ _ hitems =>
        .pure (List.forall_mem_flatMap.2 hitems)
    · rw [BodyItem.insideBlock, BodyItem.walkAll_eq]
      exact hr
  | false =>
    refine bind (hi _) fun only _ honly => .pure fun _ => ?_
    rw [BodyItem.insideBlock, BodyItem.walkAll_eq, List.flatMap_singleton]
    exact honly

variable (hports : Opens ts c Parser.portDeclaration fun g => P (.ports g))
  (hother : ∀ i, BodyItem.IsOther i → Every R i.inside → P i)

include hports hother

theorem wordItemOf_of_kind (hword : c.currentKind? = some (.word word)) (token : Token) :
    Opens ts c (SystemVerilog.wordItemOf nested word token) P := by
  have hnone : Every R [] := List.forall_mem_nil _
  unfold SystemVerilog.wordItemOf
  split
  · exact silent (lift (alwaysBlock hword _).settles) fun _ _ => .pure (hother _ trivial hnone)
  · split
    · exact bind (lift hports) fun _ _ hgroup => .pure hgroup
    · split
      · exact silent (lift signalDeclaration.settles) fun _ _ => .pure (hother _ trivial hnone)
      · split
        · exact silent (lift (parameterDeclaration hword).settles) fun _ _ => .pure (hother _ trivial hnone)
        · exact silent (lift (parameterDeclaration hword).settles) fun _ _ => .pure (hother _ trivial hnone)
        · exact silent (lift genvarDeclaration) fun _ _ => .pure (hother _ trivial hnone)
        · exact silent (lift continuousAssign.settles) fun _ _ => .pure (hother _ trivial hnone)
        · exact silent (lift initialBlock.settles) fun _ _ => .pure (hother _ trivial hnone)
        · exact bind (insideBlockOf hi) fun _ _ hblock => .pure (hother _ trivial hblock)
        · refine .tagged <| enclosed rfl rfl fun _ => bind (untilEnd hi) fun _ _ hitems => .pure fun _ =>
            hother _ trivial ?_
          rw [BodyItem.inside, BodyItem.walkAll_eq]
          exact List.forall_mem_flatMap.2 hitems
        · refine .tagged <| silent (lift (consumeWord hword)) fun _ _ => silent (lift condition.settles) fun _ _ =>
            bind (insideBlockOf hi) fun _ _ hthen => silent (lift (eat rfl)) fun _ _ => ?_
          split
          · exact bind (insideBlockOf hi) fun _ _ helse => .pure fun _ =>
              hother _ trivial (List.forall_mem_append.2 ⟨hthen, helse⟩)
          · exact .pure fun _ => hother _ trivial (List.forall_mem_append.2 ⟨hthen, hnone⟩)
        · exact .tagged <| silent (lift (consumeWord hword)) fun _ _ => silent (lift loopHeader.settles) fun _ _ =>
            bind (insideBlockOf hi) fun _ _ hbody => .pure fun _ => hother _ trivial hbody
        · refine .tagged <| enclosed rfl rfl fun _ => silent (lift condition.settles) fun _ _ =>
            bind (caseItems fun _ => insideBlockOf hi) fun _ _ hfound => .pure fun _ => hother _ trivial ?_
          rw [BodyItem.inside, BodyItem.insideItems_eq, BodyItem.insideOption_eq]
          exact List.forall_mem_append.2 ⟨List.forall_mem_flatMap.2 fun i hmem => (hfound.items i hmem).2,
            List.forall_mem_flatMap.2 fun b hmem => hfound.fallback b (Option.mem_toList.1 hmem)⟩
        · exact lift fail

theorem bodyItemOf_of_kind (hinst : Parser.startsInstantiation c = .ok (true, c) →
      Opens ts c Parser.instantiation fun inst => P (.instantiation inst)) :
    Opens ts c (SystemVerilog.bodyItemOf nested) P := by
  have hnone : Every R [] := List.forall_mem_nil _
  refine lookLifted rfl ?_
  split
  · exact lift (of_error fun _ _ => unexpectedEnd_ne_ok)
  · rename_i token htoken
    refine lookLifted rfl ?_
    split
    · rename_i hstarts
      refine bind (lift (hinst ?_)) fun _ _ h => .pure h
      rw [Parser.startsInstantiation, hstarts]
    · split
      · rename_i word hkind
        refine wordItemOf_of_kind hi hports hother ?_ token
        rw [Cursor.currentKind?, htoken, Option.map_some, hkind]
      · exact silent directive fun _ _ => .pure (hother _ trivial hnone)
      · rename_i hkind
        refine lift (emptyItem (fun _ => hother _ trivial hnone) ?_)
        rw [Cursor.currentKind?, htoken, Option.map_some, hkind]
      · exact lift fail

end Nested

section Items

variable {P : BodyItem Site → Prop} (hports : ∀ c₁, Opens ts c₁ Parser.portDeclaration fun g => P (.ports g))
  (hinst : ∀ c₁, Parser.startsInstantiation c₁ = .ok (true, c₁) →
    Opens ts c₁ Parser.instantiation fun inst => P (.instantiation inst))
  (hother : ∀ i, BodyItem.IsOther i → P i)

include hports hinst hother

/-- A property of declared ports, of instances and of all other items is one of every item, and of those inside it. -/
theorem bodyItemWithin_of_kinds (budget : Nat) :
    Opens ts c (SystemVerilog.bodyItemWithin budget) fun i => Every P i.walk := by
  induction budget generalizing c with
  | zero => exact lift (of_error fun _ _ => bottomless_ne_ok)
  | succ budget ih =>
    have hleaf {i : BodyItem Site} (h : P i) (hinside : Every P i.inside) : Every P i.walk :=
      List.forall_mem_cons.2 ⟨h, hinside⟩
    have hnone : Every P [] := List.forall_mem_nil _
    exact bodyItemOf_of_kind (P := fun i => Every P i.walk) (fun _ => ih)
      ((hports c).mono fun _ h => hleaf h hnone) (fun i hi hinside => hleaf (hother i hi) hinside)
      fun hstarts => (hinst c hstarts).mono fun _ h => hleaf h hnone

theorem bodyItem_of_kinds : Opens ts c SystemVerilog.bodyItem fun i => Every P i.walk :=
  get (bodyItemWithin_of_kinds hports hinst hother _)

end Items

/-! ### Modules -/

section Modules

variable {P : PortList Site → Prop} {Q : BodyItem Site → Prop} (hports : ∀ c₁, Opens ts c₁ Parser.portList P)
  (hempty : P .empty) (hitem : ∀ c₁, Opens ts c₁ SystemVerilog.bodyItem Q)

include hports hempty

theorem moduleHeader_of_ports : Opens ts c Parser.moduleHeader fun header => P header.ports := by
  refine silent (expect rfl) fun _ _ => silent name fun _ _ => silent moduleParameters.settles fun _ _ =>
    bind (P := P) (look rfl ?_) fun _ _ hgiven => silent (expectAs rfl) fun _ _ => .pure hgiven
  split
  · exact enclosed rfl rfl fun _ => hports _
  · exact .pure hempty

include hitem

theorem moduleItem_of_parts (depth : Depth) :
    Opens ts c (SystemVerilog.moduleItem depth) fun m => P m.ports ∧ ∀ i ∈ m.body, Q i := by
  refine .tagged <| bind (lift (spanToCloser rfl)) fun part _ hpart => ?_
  refine bind (within hpart (P := fun r => P r.1.ports ∧ ∀ i ∈ r.2, Q i) ?_) fun r _ hr => ?_
  · refine bind (lift (moduleHeader_of_ports hports hempty)) fun _ _ hheader =>
      bind (P := fun items => ∀ i ∈ items, Q i) ?_ fun _ _ hbody => .pure ⟨hheader, hbody⟩
    cases depth with
    | headers => exact .pure (List.forall_mem_nil _)
    | bodies => exact untilEnd hitem
  · exact silent (lift (endLabel _)) fun _ _ => silent (notice _) fun _ _ => .pure fun _ => hr

theorem item_of_parts (depth : Depth) : Opens ts c (SystemVerilog.item depth) fun i =>
    ∀ m ∈ i.module?, P m.ports ∧ ∀ i ∈ m.body, Q i :=
  lookLifted rfl <| by
    split
    · exact lift (of_error fun _ _ => unexpectedEnd_ne_ok)
    · split
      · refine bind (moduleItem_of_parts hports hempty hitem depth) fun m _ hm => .pure ?_
        rintro _ ⟨⟩
        exact hm
      · exact silent directive fun _ _ => .pure fun _ h => by cases h
      · exact lift fail

end Modules

end Opens

/-- What holds of the ports of every header and of every item that is read holds in the modules of a text. -/
theorem readText_modules {text : String} {options : ReadOptions} {unit : SourceUnit} {P : PortList Site → Prop}
    {Q : BodyItem Site → Prop} (h : (readText text options).result = .ok unit)
    (hports : ∀ c, Opens unit.code c Parser.portList P) (hempty : P .empty)
    (hitem : ∀ c, Opens unit.code c bodyItem Q) : ∀ m ∈ unit.modules, P m.ports ∧ ∀ i ∈ m.body, Q i := by
  intro m hm
  obtain ⟨tokens, htokens, hread⟩ := readText_eq_ok h
  obtain ⟨is, c', hgives, rfl⟩ := Arena.read_eq_ok hread
  have hready := Arena.ready_root (Arena.ofSource_of_tokens htokens)
  obtain ⟨-, hitems⟩ :=
    Opens.untilEnd (fun _ => Opens.item_of_parts hports hempty hitem options.depth) hready hgives
  obtain ⟨i, hi, hmodule⟩ := List.mem_filterMap.1 hm
  exact hitems i hi m hmodule

end SystemVerilog
