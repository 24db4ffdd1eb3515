import SystemVerilog.Proofs.Reading.Choices
import SystemVerilog.Proofs.Roots.Kinds

/-!
# What instances start with

A time unit may serve as a name, but not where a module instance starts: an item is an instance only if its first
token is an identifier and the second one another identifier or the mark in front of parameters. So no module that is
instantiated has the name of a time unit, nor has an instance without parameters. Where such a name stands first in an
item, or second behind an identifier, the item is refused.
-/

namespace SystemVerilog

open SystemVerilog.Parser

variable {ts : List Token} {c c' : Cursor}

/-! ### The tokens of an instance -/

theorem startsInstantiation_eq {t u : Token} {rest : List Token} (hafter : c.after = t :: u :: rest) :
    startsInstantiation c =
      .ok (t.kind == .identifier && (u.kind == .identifier || u.kind == .op .sharp), c) := by
  have hfirst : c.check .identifier = (t.kind == .identifier) := by
    rw [Cursor.check, Cursor.currentKind?_of_after hafter rfl]
    rfl
  have hsecond : c.peekKind? 1 = some u.kind := by
    rw [Cursor.peekKind?, Cursor.peek?, hafter]
    rfl
  rw [startsInstantiation, hfirst, hsecond]
  rfl

theorem exists_of_startsInstantiation (h : startsInstantiation c = .ok (true, c)) :
    ∃ t u rest, c.after = t :: u :: rest := by
  cases hafter : c.after with
  | nil => simp [startsInstantiation, Cursor.check, Cursor.currentKind?, Cursor.current?, hafter] at h
  | cons t rest =>
    cases rest with
    | nil => simp [startsInstantiation, Cursor.peekKind?, Cursor.peek?, hafter] at h
    | cons u rest => exact ⟨t, u, rest, rfl⟩

/-- The first name is that of the module; unless parameters follow, the next one is that of the instance. -/
theorem instantiation_inv {inst : Instantiation Site} (h : instantiation c = .ok (inst, c')) : ∃ t rest,
    c.after = t :: rest ∧ inst.moduleName = t.text ∧ inst.tag.range.start = c.position ∧
      ∀ u us, rest = u :: us → u.kind ≠ .op .sharp → inst.instanceName = u.text := by
  rw [instantiation_eq] at h
  obtain ⟨node, hnode, rfl⟩ := tagged_eq_ok.1 h
  obtain ⟨part, c₁, hspan, hwithin⟩ := bind_eq_ok.1 hnode
  obtain ⟨n, hn, rfl, rfl⟩ := spanBefore_inv hspan
  obtain ⟨⟨c₂, hinner⟩, -⟩ := within_eq_ok.1 hwithin
  obtain ⟨moduleName, d, hname, hinner⟩ := bind_eq_ok.1 hinner
  obtain ⟨t, part, hpart, -, rfl, rfl⟩ := name_eq_ok.1 hname
  obtain ⟨params, d₁, hparams, hinner⟩ := bind_eq_ok.1 hinner
  obtain ⟨instanceName, d₂, hinstance, hinner⟩ := bind_eq_ok.1 hinner
  obtain ⟨ports, d₃, -, hinner⟩ := bind_eq_ok.1 hinner
  obtain ⟨_, d₄, -, hinner⟩ := bind_eq_ok.1 hinner
  cases hinner
  -- the names stand in front of the semicolon
  obtain ⟨more, hmore⟩ := List.take_prefix n c.after
  rw [← Cursor.ahead_after, hpart] at hmore
  refine ⟨t, part ++ more, hmore.symm, rfl, rfl, fun u us hrest husharp => ?_⟩
  have hnext : ∀ v vs, ((c.ahead n).skip 1).after = v :: vs → v = u := by
    intro v vs hv
    rw [Cursor.skip_after, hpart] at hv
    obtain rfl : part = v :: vs := hv
    exact (List.cons.inj hrest).1
  have huneaten : ((c.ahead n).skip 1).check (.op .sharp) = false :=
    Cursor.check_eq_false fun v vs hv => hnext v vs hv ▸ husharp
  rw [instanceParameters, bind_of_ok (eat_of_check huneaten)] at hparams
  cases hparams
  obtain ⟨v, vs, hv, -, rfl, -⟩ := name_eq_ok.1 hinstance
  rw [hnext v vs hv]

/-! ### The instances of a tree -/

/-- The tokens from the start of an instance on are the name of its module, which is no time unit, and either the mark
in front of parameters or the name of the instance, which is no time unit, either. -/
def Instantiation.Headed (ts : List Token) (inst : Instantiation Site) : Prop := ∃ t u,
  ts[inst.tag.range.start]? = some t ∧ ts[inst.tag.range.start + 1]? = some u ∧
    t.toLexeme = ⟨.identifier, inst.moduleName⟩ ∧
    (u.kind = .op .sharp ∨ u.toLexeme = ⟨.identifier, inst.instanceName⟩)

/-- An item is headed if it is no instance or one that starts with names that are no time units. -/
def BodyItem.Headed (ts : List Token) : BodyItem Site → Prop
  | .instantiation inst => inst.Headed ts
  | _ => True

namespace Opens

theorem headedInstantiation (hstarts : Parser.startsInstantiation c = .ok (true, c)) :
    Opens ts c Parser.instantiation fun inst => inst.Headed ts := by
  intro hc inst c' hread
  obtain ⟨hc', -⟩ := instantiation hc hread
  refine ⟨hc', ?_⟩
  obtain ⟨t, u, rest, hafter⟩ := exists_of_startsInstantiation hstarts
  rw [startsInstantiation_eq hafter] at hstarts
  obtain ⟨ht, hu⟩ : t.kind = .identifier ∧ (u.kind = .identifier ∨ u.kind = .op .sharp) := by
    simpa using hstarts
  obtain ⟨t', rest', hafter', hmodule, hstart, hinstance⟩ := instantiation_inv hread
  obtain ⟨rfl, rfl⟩ := List.cons.inj (hafter.symm.trans hafter')
  have hget (n : Nat) {v : Token} (hv : c.after[n]? = some v) : ts[inst.tag.range.start + n]? = some v := by
    rw [hstart]
    exact hc.sees.getElem? hv
  refine ⟨t, u, hget 0 (by rw [hafter]; rfl), hget 1 (by rw [hafter]; rfl), ?_, ?_⟩
  · rw [hmodule, ← ht]
  · rcases hu with hu | hu
    · refine .inr ?_
      rw [hinstance u rest rfl (by rw [hu]; exact fun h => by cases h), ← hu]
    · exact .inl hu

theorem headedItem : Opens ts c SystemVerilog.bodyItem fun i => Every (BodyItem.Headed ts) i.walk :=
  bodyItem_of_kinds (fun _ => portDeclaration.settles) (fun _ => headedInstantiation) fun i hi => by
    cases i with
    | instantiation inst => exact hi.elim
    | _ => exact trivial

end Opens

/-- Every instance in the tree of a text starts with names that are no time units. -/
theorem readText_instantiations {text : String} {options : ReadOptions} {unit : SourceUnit} {m : Module Site}
    {inst : Instantiation Site} (h : (readText text options).result = .ok unit) (hm : m ∈ unit.modules)
    (hinst : .instantiation inst ∈ m.bodyItems) : inst.Headed unit.code := by
  obtain ⟨-, hbody⟩ := readText_modules (P := fun _ => True) h (fun _ => Opens.portList.settles) trivial
    (fun _ => Opens.headedItem) m hm
  obtain ⟨i, hi, hwalk⟩ := List.mem_flatMap.1 hinst
  exact hbody i hi _ hwalk

/-- Behind parameters an instance may be named like a time unit. -/
example : (readText "module m; x #(1) s (a); endmodule" {}).result.toOption.map (fun unit => unit.modules.map fun m =>
    m.bodyItems.filterMap fun
      | .instantiation inst => some (inst.moduleName, inst.instanceName)
      | _ => none) = some [[("x", "s")]] := by
  decide +kernel

/-! ### Items that are refused -/

theorem wordItemOf_of_isTimeUnit {nested : NestedItem} {word : Keyword} (h : word.isTimeUnit = true) (token : Token) :
    wordItemOf nested word token = monadLift (fail (.unimplemented token.toLexeme) token.location) := by
  cases word with
  | kwSecond | kwMilliSecond | kwMicroSecond | kwNanoSecond | kwPicoSecond | kwFemtoSecond => rfl
  | _ => cases h

/-- An item that starts with a name but not as an instance does is refused at the name. -/
theorem bodyItem_refused {t : Token} {rest : List Token} (hafter : c.after = t :: rest) (ht : t.kind.isName = true)
    (hstarts : startsInstantiation c = .ok (false, c)) :
    Reader.Stops bodyItem c ⟨.unimplemented t.toLexeme, t.location⟩ := by
  have hcurrent : current? c = .ok (some t, c) := by
    rw [current?, Cursor.current?, hafter]
    rfl
  refine Reader.stops_then (Reader.get c) ?_
  refine Reader.stops_then (Reader.lift hcurrent) (Reader.stops_then (Reader.lift hstarts) ?_)
  have hstop : Reader.Stops (monadLift (fail (.unimplemented t.toLexeme) t.location : Parser (BodyItem Site)) :
      Recorder (BodyItem Site)) c ⟨.unimplemented t.toLexeme, t.location⟩ := Reader.stops_lift rfl
  cases hkind : t.kind with
  | identifier => exact hstop
  | word word =>
    have hunit : word.isTimeUnit = true := by
      rw [hkind] at ht
      exact ht
    simp only [Bool.false_eq_true, if_false, wordItemOf_of_isTimeUnit hunit]
    exact hstop
  | _ =>
    rw [hkind] at ht
    cases ht

/-- So is every item whose first two tokens are names, one of them a time unit. -/
theorem bodyItem_timeUnit {t u : Token} {rest : List Token} (hafter : c.after = t :: u :: rest)
    (ht : t.kind.isName = true) (hunit : t.kind.isTimeUnit = true ∨ u.kind.isTimeUnit = true) :
    Reader.Stops bodyItem c ⟨.unimplemented t.toLexeme, t.location⟩ := by
  refine bodyItem_refused hafter ht ?_
  have hne {kind : TokenKind} (h : kind.isTimeUnit = true) : kind ≠ .identifier ∧ kind ≠ .op .sharp := by
    constructor <;> rintro rfl <;> cases h
  rw [startsInstantiation_eq hafter]
  rcases hunit with h | h
  · simp [hne h]
  · simp [hne h]

end SystemVerilog
