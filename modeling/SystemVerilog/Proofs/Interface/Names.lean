import Mathlib.Data.List.Forall2
import SystemVerilog.Interface.Basic

/-!
# Names in an interface

What a module declares is known by its names: those of its parameters, which must differ, and those that
the port declarations of its body give, which are passed over where the header says what the ports are. A list
has no first repeated name if and only if its names differ.
-/

namespace SystemVerilog.Interface

variable {unit : SourceUnit} {m : Module Site}

/-! ### Steps that may fail -/

theorem bind_eq_ok {ε α β : Type} {x : Except ε α} {f : α → Except ε β} {b : β} :
    (x >>= f) = .ok b ↔ ∃ a, x = .ok a ∧ f a = .ok b := by
  cases x with
  | error e => exact ⟨nofun, fun ⟨_, h, _⟩ => nomatch h⟩
  | ok a =>
    constructor
    · intro h
      exact ⟨a, rfl, h⟩
    · rintro ⟨_, ha, h⟩
      cases ha
      exact h

/-- A function that may fail gives a value for every element of a list, or none for the list. -/
theorem mapM_eq_ok {ε α β : Type} {f : α → Except ε β} {as : List α} {bs : List β} :
    as.mapM f = .ok bs ↔ List.Forall₂ (fun a b => f a = .ok b) as bs := by
  induction as generalizing bs with
  | nil =>
    rw [List.mapM_nil, List.forall₂_nil_left_iff]
    exact ⟨fun h => (Except.ok.inj h).symm, fun h => congrArg Except.ok h.symm⟩
  | cons a as ih =>
    rw [List.mapM_cons, bind_eq_ok, List.forall₂_cons_left_iff]
    constructor
    · rintro ⟨b, hb, h⟩
      obtain ⟨bs, hbs, h⟩ := bind_eq_ok.1 h
      cases h
      exact ⟨b, bs, hb, ih.1 hbs, rfl⟩
    · rintro ⟨b, bs, hb, hbs, rfl⟩
      exact ⟨b, hb, bind_eq_ok.2 ⟨bs, ih.2 hbs, rfl⟩⟩

/-! ### Repetitions -/

theorem firstRepeated?_eq_none_iff {seen names : List String} :
    firstRepeated? seen names = none ↔ names.Nodup ∧ ∀ name ∈ names, name ∉ seen := by
  induction names generalizing seen with
  | nil => simp [firstRepeated?]
  | cons name names ih =>
    rw [firstRepeated?, List.nodup_cons, List.forall_mem_cons]
    by_cases hseen : name ∈ seen
    · rw [if_pos (List.contains_iff_mem.2 hseen)]
      exact ⟨nofun, fun h => absurd hseen h.2.1⟩
    · rw [if_neg (fun h => hseen (List.contains_iff_mem.1 h)), ih]
      constructor
      · rintro ⟨hnodup, hnew⟩
        refine ⟨⟨fun h => hnew name h (List.mem_cons_self ..), hnodup⟩, hseen, fun n hn h => ?_⟩
        exact hnew n hn (List.mem_cons_of_mem _ h)
      · rintro ⟨⟨hname, hnodup⟩, -, hnew⟩
        refine ⟨hnodup, fun n hn h => ?_⟩
        rcases List.mem_cons.1 h with rfl | h
        · exact hname hn
        · exact hnew n hn h

/-! ### Parameters -/

/-- The names of the parameters of a module, in the header and in the body. -/
def parameterNames (m : Module Site) : List String :=
  (parameterGroups m).flatMap fun group => group.declarators.map fun d => d.name

theorem name_groupParameters (unit : SourceUnit) (m : Module Site) :
    ((parameterGroups m).flatMap (groupParameters unit)).map (fun p => p.name) = parameterNames m := by
  rw [List.map_flatMap, parameterNames]
  congr 1
  funext group
  rw [groupParameters, List.map_map]
  rfl

/-- The parameters of a module can be read off if and only if their names differ. -/
theorem parameters_eq_ok {found : List Parameter} : parameters unit m = .ok found ↔
    (parameterNames m).Nodup ∧ found = (parameterGroups m).flatMap (groupParameters unit) := by
  have hnone : firstRepeated? [] (parameterNames m) = none ↔ _ := firstRepeated?_eq_none_iff
  unfold parameters
  simp only [name_groupParameters]
  split
  · rename_i name hname
    refine ⟨nofun, fun h => ?_⟩
    rw [hnone.2 ⟨h.1, fun _ _ => List.not_mem_nil⟩] at hname
    cases hname
  · rename_i hname
    constructor
    · rintro ⟨⟩
      exact ⟨(hnone.1 hname).1, rfl⟩
    · rintro ⟨-, rfl⟩
      rfl

/-- The names that the port declarations of a body give, in order. -/
def bodyPortNames (m : Module Site) : List String :=
  (bodyPortGroups m).flatMap fun group => group.declarators.map fun d => d.name

/-! ### Ports of the body -/

/-- The module without the port declarations of its body. -/
def withoutBodyPorts (m : Module Site) : Module Site :=
  { m with body := m.body.filter fun
      | .ports _ => false
      | _ => true }

theorem parameterGroups_withoutBodyPorts (m : Module Site) :
    parameterGroups (withoutBodyPorts m) = parameterGroups m := by
  unfold parameterGroups withoutBodyPorts
  rw [List.filterMap_filter]
  congr 2
  funext item
  cases item <;> rfl

/-- Where the header declares the ports or has none, what the body declares as ports is passed over. -/
theorem ofModule_withoutBodyPorts (options : Options) (h : ∀ names, m.ports ≠ .nonAnsi names) :
    ofModule unit options (withoutBodyPorts m) = ofModule unit options m := by
  have hparameters : parameters unit (withoutBodyPorts m) = parameters unit m := by
    rw [parameters, parameters, parameterGroups_withoutBodyPorts]
  have hports (known : List String) : ports unit options known (withoutBodyPorts m) = ports unit options known m := by
    have hheader : (withoutBodyPorts m).ports = m.ports := rfl
    unfold ports
    rw [hheader]
    cases hstyle : m.ports with
    | empty => rfl
    | ansi groups => rfl
    | nonAnsi names => exact absurd hstyle (h names)
  unfold ofModule extract
  rw [hparameters]
  simp only [hports]
  rfl

end SystemVerilog.Interface
