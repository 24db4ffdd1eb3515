import SystemVerilog.Proofs.Expression.Complete
import SystemVerilog.Proofs.Roots.Judgement
import SystemVerilog.Proofs.Walks.Paths

/-!
# The parts of what is read as an expression

What holds of everything in the walks of the nested expressions holds of the parts of an expression that is made
of them. The parts of a call and of what a connective makes are in addition those of the expression before it,
itself included.
-/

namespace SystemVerilog

open SystemVerilog.Parser

theorem every_walkAll {P : Expr Site → Prop} {es : List (Expr Site)} (h : Every (fun e => Every P e.walk) es) :
    Every P (Expr.walkAll es) := by
  intro e he
  rw [Expr.walkAll_eq] at he
  obtain ⟨e', he', hmem⟩ := List.mem_flatMap.1 he
  exact h e' he' e hmem

section Parts

variable {ts : List Token} {P : Expr Site → Prop} {nested : Nested} {lhs : Expr Site}

namespace Ensures

/-- A name that starts with a dollar sign has no parts. -/
theorem systemIdentifier : Ensures ts Parser.systemIdentifier fun e => e.walk = [e] := by
  refine .tagged <| silent Takes.consume.lays fun _ => silent .current? fun _ => ?_
  split
  · split
    · exact silent .advance? fun _ => .pure fun _ => rfl
    · exact of_error fun _ _ _ => fail_ne_ok
  · exact of_error fun _ _ _ => fail_ne_ok

variable (hn : ∀ floor, Ensures ts (nested floor) fun e => Every P e.walk)

include hn

/-- The parts of a call are what is called and the arguments. -/
theorem callOf {callee : Expr Site} (hcallee : Every P callee.walk) :
    Ensures ts (Parser.callOf nested callee) fun e => Every P e.walk.tail :=
  silent (.check _) fun _ => by
    split
    · refine bind (P := fun r => Every P (Expr.walkAll r.2)) ?_ fun r hr => ?_
      · exact .tagged <| bind (enclosed (listOf (hn 0))) fun _ hargs => .pure fun _ => every_walkAll hargs
      · have hlook {c : Cursor} : Lays ts c (Parser.since callee.tag) fun _ => [] := .look rfl
        exact silent hlook fun _ => .pure (List.forall_mem_append.2 ⟨hcallee, hr⟩)
    · exact .pure fun e he => hcallee e (List.mem_of_mem_tail he)

theorem bracesOf : Ensures ts (Parser.bracesOf nested) fun e => Every P e.walk.tail := by
  refine .tagged <| .enclosed <| bind (hn 0) fun first hfirst => silent (.check _) fun _ => ?_
  split
  · exact bind (enclosed (listOf (hn 0))) fun _ hitems => silent (.expectEnd _) fun _ => .pure fun _ =>
      List.forall_mem_append.2 ⟨hfirst, every_walkAll hitems⟩
  · exact bind (followers (Takes.comma _).lays (hn 0)) fun _ hrest => .pure fun _ =>
      List.forall_mem_append.2 ⟨hfirst, every_walkAll hrest⟩

theorem selectorOf {target : Expr Site} (htarget : Every P target.walk) :
    Ensures ts (Parser.selectorOf nested target) fun node => ∀ site, Every P (node site).walk.tail := by
  refine bind (hn 0) fun first hfirst => silent .current? fun _ => ?_
  split
  · exact .pure fun _ => List.forall_mem_append.2 ⟨htarget, hfirst⟩
  · split
    · exact of_error fun _ _ _ => unexpected_ne_ok
    · exact silent .advance? fun _ => bind (filling _ (hn 0)) fun _ hsecond => .pure fun _ =>
        List.forall_mem_append.2 ⟨htarget, List.forall_mem_append.2 ⟨hfirst, hsecond⟩⟩

theorem assignmentOf {target : Expr Site} (op : AssignOp) (htarget : Every P target.walk) :
    Ensures ts (Parser.assignmentOf nested op target) fun node =>
      ∀ site, Every P (node site).walk.tail := by
  refine silent (.check _) fun _ => ?_
  split
  · exact bind (delayOf (hn _)) fun _ hdelay => bind (hn _) fun _ hvalue => .pure fun _ =>
      List.forall_mem_append.2 ⟨htarget, List.forall_mem_append.2 ⟨hdelay, hvalue⟩⟩
  · exact bind (hn _) fun _ hvalue => .pure fun _ => List.forall_mem_append.2 ⟨htarget, hvalue⟩

/-- The parts of what a connective makes are those of the expression before it, itself included, and those of the
expressions behind it. -/
theorem connectiveOf (k : Connective) (hlhs : Every P lhs.walk) :
    Ensures ts (Parser.connectiveOf nested k lhs) fun node =>
      ∀ site, Every P (node site).walk.tail := by
  cases k with
  | select => exact .enclosed (selectorOf hn hlhs)
  | scope => exact silent .advance? fun _ => silent Takes.name.lays fun _ => .pure fun _ => hlhs
  | member => exact silent .advance? fun _ => silent Takes.name.lays fun _ => .pure fun _ => hlhs
  | postfixOp op => exact silent .advance? fun _ => .pure fun _ => hlhs
  | conditional =>
    exact silent .advance? fun _ => bind (hn 0) fun _ hthen => silent (Takes.expectAs _ _).lays fun _ =>
      bind (hn _) fun _ helse => .pure fun _ =>
        List.forall_mem_append.2 ⟨hlhs, List.forall_mem_append.2 ⟨hthen, helse⟩⟩
  | assignment op => exact silent .advance? fun _ => assignmentOf hn op hlhs
  | binary op =>
    exact silent .advance? fun _ => bind (hn _) fun _ hrhs => .pure fun _ => List.forall_mem_append.2 ⟨hlhs, hrhs⟩

/-- The parts of an operand that is not called stand between brackets. -/
theorem primaryOf_uncalled {token : Token} (hdollar : token.kind ≠ .op .dollar) (hname : ¬token.kind.isName = true) :
    Ensures ts (Parser.primaryOf nested token) fun e => Every P e.walk.tail := by
  unfold Parser.primaryOf
  split
  · exact .tagged <| bind (enclosed (filling _ (hn 0))) fun _ hinner => .pure fun _ => hinner
  · exact bracesOf hn
  · refine silent (.peekKind? 1) fun _ => ?_
    split
    · exact .tagged <| silent .advance? fun _ => bind (enclosed (listOf (hn 0))) fun _ hitems =>
        .pure fun _ => every_walkAll hitems
    · exact of_error fun _ _ _ => fail_ne_ok
  · exact .tagged <| silent .advance? fun _ => .pure fun _ => nofun
  · exact .tagged <| silent .advance? fun _ => .pure fun _ => nofun
  · rename_i hkind
    exact absurd hkind hdollar
  · rw [if_neg hname]
    exact of_error fun _ _ _ => fail_ne_ok

/-- The parts of an operand, if every leaf will do as what is called. -/
theorem operandOf (hleaf : ∀ e : Expr Site, e.walk = [e] → P e) :
    Ensures ts (Parser.operandOf nested) fun e => Every P e.walk.tail := by
  have hcalled {p : Parser (Expr Site)} (hp : Ensures ts p fun e => e.walk = [e]) :
      Ensures ts (p >>= Parser.callOf nested) fun e => Every P e.walk.tail := by
    refine bind hp fun callee hwalk => callOf hn ?_
    rw [hwalk]
    exact List.forall_mem_singleton.2 (hleaf callee hwalk)
  refine silent .current? fun found => ?_
  split
  · exact of_error fun _ _ _ => unexpectedEnd_ne_ok
  · rename_i token
    split
    · exact .tagged <| silent .advance? fun _ => bind (hn _) fun _ hoperand => .pure fun _ => hoperand
    · by_cases hdollar : token.kind = .op .dollar
      · rw [Parser.primaryOf, hdollar]
        exact hcalled systemIdentifier
      · by_cases hname : token.kind.isName = true
        · rw [primaryOf_of_isName hname]
          exact hcalled <| .tagged <| silent .advance? fun _ => .pure fun _ => rfl
        · exact primaryOf_uncalled hn hdollar hname

end Ensures

end Parts

end SystemVerilog
