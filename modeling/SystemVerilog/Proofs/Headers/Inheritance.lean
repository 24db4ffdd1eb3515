import SystemVerilog.Proofs.Faults.Causes
import SystemVerilog.Proofs.Headers.Entries

/-!
# What the entries of a header inherit

A group of header entries stands for its declarators, each with the direction, the types or the keyword of the
group. An entry that joins a group takes all of them over, an entry that opens one takes over what it leaves out of
its direction or keyword. So what is declared for an entry is told from the entries up to it: by the nearest that
has a direction or a keyword, and by the nearest that opens a group.
-/

namespace SystemVerilog

open SystemVerilog.Parser

/-! ### The nearest entry -/

section Nearest

variable {ε β : Type} {f : ε → Option β} {seen : List ε} {e : ε}

/-- What the last element says that says something. -/
def nearest? (f : ε → Option β) (seen : List ε) : Option β := (seen.filterMap f).getLast?

theorem nearest?_append_of_some {b : β} (h : f e = some b) : nearest? f (seen ++ [e]) = some b := by
  rw [nearest?, List.filterMap_append, List.filterMap_cons_some h, List.filterMap_nil, List.getLast?_concat]

theorem nearest?_append_of_none (h : f e = none) : nearest? f (seen ++ [e]) = nearest? f seen := by
  rw [nearest?, List.filterMap_append, List.filterMap_cons_none h, List.filterMap_nil, List.append_nil, nearest?]

end Nearest

/-! ### Elements and groups -/

section Gathering

variable {ε ρ γ : Type} {D : List ε → ρ → Prop} {seen es : List ε} {e : ε} {row : ρ} {rows : List ρ}

/-- Behind some elements there is one row for each of some more, and it tells of the elements up to that one. -/
def Tracks (D : List ε → ρ → Prop) (seen es : List ε) (rows : List ρ) : Prop :=
  rows.length = es.length ∧ ∀ i row, rows[i]? = some row → D (seen ++ es.take (i + 1)) row

theorem Tracks.nil : Tracks D seen [] [] := ⟨rfl, nofun⟩

theorem Tracks.cons (h : D (seen ++ [e]) row) (htracks : Tracks D (seen ++ [e]) es rows) :
    Tracks D seen (e :: es) (row :: rows) := by
  refine ⟨congrArg Nat.succ htracks.1, fun i row' hrow => ?_⟩
  cases i with
  | zero =>
    obtain rfl := Option.some.inj hrow
    exact h
  | succ i =>
    have hrest := htracks.2 i row' hrow
    rw [List.append_assoc, List.singleton_append] at hrest
    exact hrest

/-- An element either opens a group of its own behind the one that is open, or it joins that one. -/
inductive Places (gather : γ → List ε → List γ) (rowsOf : γ → List ρ) (g : γ) (e : ε) (g' : γ) (row : ρ) : Prop
  | opens (h : ∀ es, gather g (e :: es) = g :: gather g' es) (rows : rowsOf g' = [row])
  | joins (h : ∀ es, gather g (e :: es) = gather g' es) (rows : rowsOf g' = rowsOf g ++ [row])

/-- If the open group sums up the elements behind it at every step, the rows of all groups track the elements. -/
theorem tracks_gather {gather : γ → List ε → List γ} {rowsOf : γ → List ρ} {Sums : List ε → γ → Prop} {g : γ}
    (es : List ε)
    (hstep : ∀ seen g e, Sums seen g → ∃ g' row, Sums (seen ++ [e]) g' ∧ D (seen ++ [e]) row ∧
      Places gather rowsOf g e g' row)
    (hnil : ∀ g, gather g [] = [g])
    (h : Sums seen g) : ∃ rows, (gather g es).flatMap rowsOf = rowsOf g ++ rows ∧ Tracks D seen es rows := by
  induction es generalizing seen g with
  | nil => exact ⟨[], by rw [hnil, List.flatMap_singleton, List.append_nil], .nil⟩
  | cons e es ih =>
    obtain ⟨g', row, hsums, hrow, hplaces⟩ := hstep seen g e h
    obtain ⟨rows, hrows, htracks⟩ := ih hsums
    refine ⟨row :: rows, ?_, .cons hrow htracks⟩
    cases hplaces with
    | opens hopens hown => rw [hopens, List.flatMap_cons, hrows, hown, List.singleton_append]
    | joins hjoins hown => rw [hjoins, hrows, hown, List.append_assoc, List.singleton_append]

end Gathering

/-! ### Parameters -/

/-- A parameter as the group of its declarator declares it. -/
structure DeclaredParameter where
  isLocal : Bool
  type : Option (DataType Site)
  declarator : Declarator Site

/-- The parameters of a group. -/
def ParameterGroup.parameters (g : ParameterGroup Site) : List DeclaredParameter :=
  g.declarators.map fun d => ⟨g.isLocal, g.type, d⟩

namespace ParameterEntry

variable {seen : List ParameterEntry} {g : ParameterGroup Site} {e : ParameterEntry}

/-- The parameter is what the last of some entries declares: it is local if the nearest keyword says so, and has the
type of the nearest entry with a keyword or a type. -/
structure Declares (seen : List ParameterEntry) (p : DeclaredParameter) : Prop where
  declarator : seen.getLast?.map ParameterEntry.declarator = some p.declarator
  isLocal : p.isLocal = (nearest? ParameterEntry.isLocal seen).getD false
  type : p.type = (nearest? (Option.guard opens) seen).bind ParameterEntry.type

/-- The group says what the last of some entries declares. -/
structure Sums (seen : List ParameterEntry) (g : ParameterGroup Site) : Prop where
  isLocal : g.isLocal = (nearest? ParameterEntry.isLocal seen).getD false
  type : g.type = (nearest? (Option.guard opens) seen).bind ParameterEntry.type

theorem Sums.declares (h : Sums (seen ++ [e]) g) : Declares (seen ++ [e]) ⟨g.isLocal, g.type, e.declarator⟩ :=
  ⟨by rw [List.getLast?_concat, Option.map_some], h.isLocal, h.type⟩

theorem isLocal_nearest : (nearest? ParameterEntry.isLocal (seen ++ [e])).getD false =
    e.isLocal.getD ((nearest? ParameterEntry.isLocal seen).getD false) := by
  cases hlocal : e.isLocal with
  | none => rw [nearest?_append_of_none hlocal, Option.getD_none]
  | some b => rw [nearest?_append_of_some hlocal, Option.getD_some, Option.getD_some]

theorem nearest?_opens (ho : e.opens = true) : nearest? (Option.guard opens) (seen ++ [e]) = some e :=
  nearest?_append_of_some (Option.guard_eq_some_iff.2 ⟨rfl, ho⟩)

theorem nearest?_joins (ho : e.opens = false) :
    nearest? (Option.guard opens) (seen ++ [e]) = nearest? (Option.guard opens) seen :=
  nearest?_append_of_none (Option.guard_eq_none_iff.2 ho)

/-- An entry that joins a group has neither a keyword nor a type. -/
theorem eq_none_of_joins (ho : e.opens = false) : e.isLocal = none ∧ e.type = none := by
  simpa [opens] using ho

theorem Sums.group (h : Sums seen g) (ho : e.opens = true) : Sums (seen ++ [e]) (e.group g.isLocal) := by
  refine ⟨?_, ?_⟩
  · rw [isLocal_nearest, ← h.isLocal, ParameterEntry.group]
  · rw [nearest?_opens ho, Option.bind_some, ParameterEntry.group]

theorem Sums.join (h : Sums seen g) (ho : e.opens = false) : Sums (seen ++ [e]) (e.join g) := by
  refine ⟨?_, ?_⟩
  · rw [nearest?_append_of_none (eq_none_of_joins ho).1, ← h.isLocal, ParameterEntry.join]
  · rw [nearest?_joins ho, ← h.type, ParameterEntry.join]

/-- The first entry opens a group, even without a keyword or a type. -/
theorem sums_first (e : ParameterEntry) : Sums ([] ++ [e]) (e.group false) := by
  refine ⟨?_, ?_⟩
  · rw [isLocal_nearest]
    rfl
  · cases ho : e.opens with
    | true => rw [nearest?_opens ho, Option.bind_some, ParameterEntry.group]
    | false =>
      rw [nearest?_joins ho, ParameterEntry.group, (eq_none_of_joins ho).2]
      rfl

theorem sums_step (seen : List ParameterEntry) (g : ParameterGroup Site) (e : ParameterEntry) (h : Sums seen g) :
    ∃ g' p, Sums (seen ++ [e]) g' ∧ Declares (seen ++ [e]) p ∧
      Places gather ParameterGroup.parameters g e g' p := by
  cases ho : e.opens with
  | true =>
    have hsums := h.group ho
    exact ⟨_, _, hsums, hsums.declares, .opens (fun es => by rw [gather, if_pos ho]) rfl⟩
  | false =>
    have hsums := h.join ho
    refine ⟨_, _, hsums, hsums.declares, .joins (fun es => by rw [gather, if_neg (by rw [ho]; decide)]) ?_⟩
    exact List.map_append

theorem tracks_groups (es : List ParameterEntry) :
    Tracks Declares [] es ((groups es).flatMap ParameterGroup.parameters) := by
  cases es with
  | nil => exact .nil
  | cons e es =>
    obtain ⟨ps, hps, htracks⟩ := tracks_gather es sums_step (fun _ => rfl) (sums_first e)
    rw [groups, hps]
    exact .cons (sums_first e).declares htracks

end ParameterEntry

/-! ### Ports -/

/-- A port as the group of its declarator declares it. -/
structure DeclaredPort where
  direction : Direction
  net : Option Keyword
  type : Option (DataType Site)
  declarator : Declarator Site

/-- The ports of a group. -/
def PortGroup.ports (g : PortGroup Site) : List DeclaredPort :=
  g.declarators.map fun d => ⟨g.direction, g.net, g.type, d⟩

namespace PortEntry

variable {seen : List PortEntry} {g : PortGroup Site} {e : PortEntry}

/-- The types that the entry writes. -/
def types (e : PortEntry) : Option Keyword × Option (DataType Site) := (e.net, e.type)

/-- The port is what the last of some entries declares: it has the direction of the nearest entry with a direction,
and the types of the nearest entry with a direction or types. -/
structure Declares (seen : List PortEntry) (p : DeclaredPort) : Prop where
  declarator : seen.getLast?.map PortEntry.declarator = some p.declarator
  direction : nearest? PortEntry.direction seen = some p.direction
  types : (nearest? (Option.guard opens) seen).map PortEntry.types = some (p.net, p.type)

/-- The group says what the last of some entries declares. -/
structure Sums (seen : List PortEntry) (g : PortGroup Site) : Prop where
  direction : nearest? PortEntry.direction seen = some g.direction
  types : (nearest? (Option.guard opens) seen).map PortEntry.types = some (g.net, g.type)

theorem Sums.declares (h : Sums (seen ++ [e]) g) : Declares (seen ++ [e]) ⟨g.direction, g.net, g.type, e.declarator⟩ :=
  ⟨by rw [List.getLast?_concat, Option.map_some], h.direction, h.types⟩

theorem nearest?_opens (ho : e.opens = true) : nearest? (Option.guard opens) (seen ++ [e]) = some e :=
  nearest?_append_of_some (Option.guard_eq_some_iff.2 ⟨rfl, ho⟩)

theorem Sums.group (h : Sums seen g) (ho : e.opens = true) : Sums (seen ++ [e]) (e.group g.direction) := by
  refine ⟨?_, ?_⟩
  · cases hdirection : e.direction with
    | none => rw [nearest?_append_of_none hdirection, h.direction, PortEntry.group, hdirection, Option.getD_none]
    | some d => rw [nearest?_append_of_some hdirection, PortEntry.group, hdirection, Option.getD_some]
  · rw [nearest?_opens ho]
    rfl

theorem Sums.join (h : Sums seen g) (ho : e.opens = false) : Sums (seen ++ [e]) (e.join g) := by
  have hdirection : e.direction = none := by
    simp only [opens, Bool.or_eq_false_iff, Option.isSome_eq_false_iff, Option.isNone_iff_eq_none] at ho
    exact ho.1.1
  refine ⟨?_, ?_⟩
  · rw [nearest?_append_of_none hdirection, h.direction, PortEntry.join]
  · rw [nearest?_append_of_none (Option.guard_eq_none_iff.2 ho), h.types, PortEntry.join]

theorem sums_first {direction : Direction} (h : e.direction = some direction) :
    Sums ([] ++ [e]) (e.group direction) := by
  have ho : e.opens = true := by rw [opens, h]; rfl
  refine ⟨?_, ?_⟩
  · rw [nearest?_append_of_some h, PortEntry.group, h, Option.getD_some]
  · rw [nearest?_opens ho, Option.map_some, types, PortEntry.group]

theorem sums_step (seen : List PortEntry) (g : PortGroup Site) (e : PortEntry) (h : Sums seen g) :
    ∃ g' p, Sums (seen ++ [e]) g' ∧ Declares (seen ++ [e]) p ∧ Places gather PortGroup.ports g e g' p := by
  cases ho : e.opens with
  | true =>
    have hsums := h.group ho
    exact ⟨_, _, hsums, hsums.declares, .opens (fun es => by rw [gather, if_pos ho]) rfl⟩
  | false =>
    have hsums := h.join ho
    refine ⟨_, _, hsums, hsums.declares, .joins (fun es => by rw [gather, if_neg (by rw [ho]; decide)]) ?_⟩
    exact List.map_append

theorem tracks_gather {direction : Direction} (h : e.direction = some direction) (es : List PortEntry) :
    Tracks Declares [] (e :: es) ((gather (e.group direction) es).flatMap PortGroup.ports) := by
  obtain ⟨ps, hps, htracks⟩ := SystemVerilog.tracks_gather es sums_step (fun _ => rfl) (sums_first h)
  rw [hps]
  exact .cons (sums_first h).declares htracks

end PortEntry

/-! ### Reading entries -/

/-- A span that holds a parameter entry: it is read in full, and its keyword is its first token. -/
structure ParameterEntry.StandsAt (d : Cursor) (e : ParameterEntry) : Prop where
  read : d.ReadsAs parameterEntry e
  parameter : e.isLocal = some false ↔ d.check (.word .kwParameter) = true
  localparam : e.isLocal = some true ↔ d.check (.word .kwLocalparam) = true

/-- A span that holds a port entry: it is read in full, and its direction is its first token. -/
structure PortEntry.StandsAt (d : Cursor) (e : PortEntry) : Prop where
  read : d.ReadsAs portEntry e
  direction : e.direction = d.currentKind?.bind Direction.ofKind?

section Reading

variable {c c' d : Cursor}

theorem parameterKeyword_eq_ok {isLocal : Option Bool} (h : parameterKeyword c = .ok (isLocal, c')) :
    (isLocal = some false ↔ c.check (.word .kwParameter) = true) ∧
      (isLocal = some true ↔ c.check (.word .kwLocalparam) = true) := by
  have hone : c.check (.word .kwParameter) = true → c.check (.word .kwLocalparam) = false := by
    intro hparameter
    rw [Cursor.check, eq_of_beq hparameter]
    decide
  unfold parameterKeyword at h
  cases hparameter : c.check (.word .kwParameter) with
  | true =>
    obtain ⟨t, rest, hafter, ht⟩ := Cursor.after_of_check hparameter
    rw [bind_of_ok (eat_of_after hafter ht), if_pos rfl] at h
    obtain ⟨rfl, -⟩ := pure_eq_ok.1 h
    rw [hone hparameter]
    decide
  | false =>
    rw [bind_of_ok (eat_of_check hparameter), if_neg Bool.false_ne_true] at h
    cases hlocalparam : c.check (.word .kwLocalparam) with
    | true =>
      obtain ⟨t, rest, hafter, ht⟩ := Cursor.after_of_check hlocalparam
      rw [bind_of_ok (eat_of_after hafter ht), if_pos rfl] at h
      obtain ⟨rfl, -⟩ := pure_eq_ok.1 h
      decide
    | false =>
      rw [bind_of_ok (eat_of_check hlocalparam), if_neg Bool.false_ne_true] at h
      obtain ⟨rfl, -⟩ := pure_eq_ok.1 h
      decide

theorem parameterEntry_standsAt {e : ParameterEntry} (h : d.ReadsAs parameterEntry e) :
    ParameterEntry.StandsAt d e := by
  obtain ⟨d', hread, -⟩ := id h
  obtain ⟨node, hnode, rfl⟩ := tagged_eq_ok.1 hread
  obtain ⟨isLocal, d₁, hkeyword, hrest⟩ := bind_eq_ok.1 hnode
  obtain ⟨type, d₂, -, hrest⟩ := bind_eq_ok.1 hrest
  obtain ⟨declarator, d₃, -, hpure⟩ := bind_eq_ok.1 hrest
  obtain ⟨rfl, -⟩ := pure_eq_ok.1 hpure
  exact ⟨h, (parameterKeyword_eq_ok hkeyword).1, (parameterKeyword_eq_ok hkeyword).2⟩

/-- The first token of an entry tells its direction. -/
theorem portEntry_direction {e : PortEntry} (h : portEntry c = .ok (e, c')) :
    e.direction = c.currentKind?.bind Direction.ofKind? := by
  obtain ⟨node, hnode, rfl⟩ := tagged_eq_ok.1 h
  obtain ⟨direction, c₁, hdirection, hrest⟩ := bind_eq_ok.1 hnode
  obtain ⟨net, c₂, -, hrest⟩ := bind_eq_ok.1 hrest
  obtain ⟨type, c₃, -, hrest⟩ := bind_eq_ok.1 hrest
  obtain ⟨declarator, c₄, -, hpure⟩ := bind_eq_ok.1 hrest
  obtain ⟨rfl, -⟩ := pure_eq_ok.1 hpure
  unfold tryBy at hdirection
  split at hdirection
  · rename_i hfound
    cases hdirection
    exact hfound.symm
  · rename_i hfound
    cases hdirection
    exact hfound.symm

theorem portEntry_standsAt {e : PortEntry} (h : d.ReadsAs portEntry e) : PortEntry.StandsAt d e := by
  obtain ⟨d', hread, -⟩ := id h
  exact ⟨h, portEntry_direction hread⟩

/-! ### Headers -/

theorem headerParameters_eq_ok {groups : List (ParameterGroup Site)} (h : headerParameters c = .ok (groups, c')) :
    ∃ es, Parser.entries "',' or ')'" parameterEntry c = .ok (es, c') ∧ groups = ParameterEntry.groups es := by
  obtain ⟨es, c₁, hes, hpure⟩ := bind_eq_ok.1 h
  obtain ⟨rfl, rfl⟩ := pure_eq_ok.1 hpure
  exact ⟨es, hes, rfl⟩

theorem headerPorts_eq_ok {groups : List (PortGroup Site)} (h : headerPorts c = .ok (groups, c')) :
    ∃ es, Parser.entries "',' or ')'" portEntry c = .ok (es, c') ∧
      Tracks PortEntry.Declares [] es (groups.flatMap PortGroup.ports) := by
  obtain ⟨es, c₁, hes, hgroups⟩ := bind_eq_ok.1 h
  cases es with
  | nil =>
    obtain ⟨rfl, rfl⟩ := pure_eq_ok.1 hgroups
    exact ⟨[], hes, .nil⟩
  | cons e es =>
    dsimp only at hgroups
    cases hdirection : e.direction with
    | none =>
      rw [hdirection] at hgroups
      exact absurd hgroups fail_ne_ok
    | some direction =>
      rw [hdirection] at hgroups
      obtain ⟨rfl, rfl⟩ := pure_eq_ok.1 hgroups
      exact ⟨e :: es, hes, PortEntry.tracks_gather hdirection es⟩

/-- Ports that a header declares are read as such. -/
theorem headerPorts_of_ansi {groups : List (PortGroup Site)} (h : portList c = .ok (.ansi groups, c')) :
    headerPorts c = .ok (groups, c') := by
  rw [portList, currentKind?_bind] at h
  cases hkind : c.currentKind? with
  | none =>
    rw [hkind] at h
    cases (pure_eq_ok.1 h).1
  | some kind =>
    rw [hkind] at h
    dsimp only at h
    split at h
    · obtain ⟨groups', c₁, hports, hpure⟩ := bind_eq_ok.1 h
      obtain ⟨heq, rfl⟩ := pure_eq_ok.1 hpure
      cases heq
      exact hports
    · obtain ⟨names, c₁, -, hpure⟩ := bind_eq_ok.1 h
      cases (pure_eq_ok.1 hpure).1

theorem TokenKind.direction_of_isDirection {kind : TokenKind} (h : kind.isDirection = true) :
    ∃ direction, Direction.ofKind? kind = some direction := by
  cases kind with
  | word k =>
    have hk : k.isDirection = true := h
    unfold Keyword.isDirection at hk
    split at hk
    · exact ⟨_, rfl⟩
    · exact ⟨_, rfl⟩
    · exact ⟨_, rfl⟩
    · cases hk
  | _ => cases h

/-- Where the first token is a direction, the first port has one. -/
theorem portList_directed {fault : Fault} (h : portList c = .error fault) :
    fault.cause ≠ .malformed .undirectedPort := by
  rw [portList, currentKind?_bind] at h
  cases hkind : c.currentKind? with
  | none =>
    rw [hkind] at h
    cases h
  | some kind =>
    rw [hkind] at h
    dsimp only at h
    split at h
    · rename_i hdirection
      obtain ⟨direction, hmeaning⟩ := TokenKind.direction_of_isDirection hdirection
      rcases bind_eq_error h with hports | ⟨_, _, _, hpure⟩
      · rcases bind_eq_error hports with hentries | ⟨es, c₁, hentries, hgroups⟩
        · exact (Blames.entries _ .portEntry hentries).directed
        · cases es with
          | nil => cases hgroups
          | cons e es =>
            have hdirected : e.direction = some direction := by
              cases listed_of_entries hentries with
              | last hread _ => rw [portEntry_direction hread, hkind, Option.bind_some, hmeaning]
              | more hread _ _ => rw [portEntry_direction hread, hkind, Option.bind_some, hmeaning]
            dsimp only at hgroups
            rw [hdirected] at hgroups
            cases hgroups
      · cases hpure
    · rcases bind_eq_error h with hnames | ⟨_, _, _, hpure⟩
      · exact (Blames.portNames hnames).directed
      · cases hpure

end Reading

/-- The groups of a header stand for one declarator for each entry between commas, in order. A port has the direction
of the nearest entry with one, and the types of the nearest entry with a direction or types; a parameter is local if
the nearest keyword says so, and has the type of the nearest entry with a keyword or a type. No port is reported to
lack a direction. -/
theorem headerGroups_inherit (c : Cursor) :
    (∀ groups c', portList c = .ok (.ansi groups, c') → ∃ es, List.Forall₂ PortEntry.StandsAt c.entries es ∧
      (groups.flatMap PortGroup.ports).length = es.length ∧
      ∀ i p, (groups.flatMap PortGroup.ports)[i]? = some p → PortEntry.Declares (es.take (i + 1)) p) ∧
    (∀ fault, portList c = .error fault → fault.cause ≠ .malformed .undirectedPort) ∧
    ∀ groups c', headerParameters c = .ok (groups, c') → ∃ es,
      List.Forall₂ ParameterEntry.StandsAt c.entries es ∧
      (groups.flatMap ParameterGroup.parameters).length = es.length ∧
      ∀ i p, (groups.flatMap ParameterGroup.parameters)[i]? = some p → ParameterEntry.Declares (es.take (i + 1)) p := by
  refine ⟨fun groups c' h => ?_, fun fault => portList_directed, fun groups c' h => ?_⟩
  · obtain ⟨es, hes, htracks⟩ := headerPorts_eq_ok (headerPorts_of_ansi h)
    have hentries := readsAs_of_listed (fun _ => .portEntry) (fun _ _ => .portEntry) (listed_of_entries hes)
    exact ⟨es, hentries.imp fun _ _ => portEntry_standsAt, htracks⟩
  · obtain ⟨es, hes, rfl⟩ := headerParameters_eq_ok h
    have hentries := readsAs_of_listed (fun _ => .parameterEntry) (fun _ _ => .parameterEntry) (listed_of_entries hes)
    exact ⟨es, hentries.imp fun _ _ => parameterEntry_standsAt, ParameterEntry.tracks_groups es⟩

/-- In `input wire a = f(x, y), b, output c,` the second port is an input wire and the third has no net type; in
`localparam p, q` both parameters are local. A direction without a name is not reported as a missing direction. -/
theorem headerGroups_inherit_joined :
    let token (kind : TokenKind) (text : String) : Token := ⟨⟨kind, text⟩, 0, .origin, .origin⟩
    let comma := token (.op .comma) ","
    let ports : Cursor := ⟨.origin, 0, [], [token (.word .kwInput) "input", token (.word .kwWire) "wire",
      token .identifier "a", token (.op .assignment) "=", token .identifier "f", token (.op .lParen) "(",
      token .identifier "x", comma, token .identifier "y", token (.op .rParen) ")", comma, token .identifier "b", comma,
      token (.word .kwOutput) "output", token .identifier "c", comma]⟩
    let parameters : Cursor := ⟨.origin, 0, [], [token (.word .kwLocalparam) "localparam", token .identifier "p", comma,
      token .identifier "q"]⟩
    let nameless : Cursor := ⟨.origin, 0, [], [token (.word .kwInput) "input"]⟩
    (∃ groups c' es, portList ports = .ok (.ansi groups, c') ∧ List.Forall₂ PortEntry.StandsAt ports.entries es ∧
      es.length = 3 ∧ (groups.flatMap PortGroup.ports).map (fun p => (p.direction, p.net, p.declarator.name)) =
        [(.input, some .kwWire, "a"), (.input, some .kwWire, "b"), (.output, none, "c")]) ∧
    (∃ groups c' es, headerParameters parameters = .ok (groups, c') ∧
      List.Forall₂ ParameterEntry.StandsAt parameters.entries es ∧ es.length = 2 ∧
      (groups.flatMap ParameterGroup.parameters).map (fun p => (p.isLocal, p.declarator.name)) =
        [(true, "p"), (true, "q")]) ∧
    ∃ fault, portList nameless = .error fault ∧ fault.cause ≠ .malformed .undirectedPort := by
  intro token comma ports parameters nameless
  obtain ⟨es, hes, hlength, -⟩ := (headerGroups_inherit ports).1 _ _ rfl
  obtain ⟨es', hes', hlength', -⟩ := (headerGroups_inherit parameters).2.2 _ _ rfl
  exact ⟨⟨_, _, es, rfl, hes, hlength.symm, rfl⟩, ⟨_, _, es', rfl, hes', hlength'.symm, rfl⟩,
    _, rfl, (headerGroups_inherit nameless).2.1 _ rfl⟩

end SystemVerilog
