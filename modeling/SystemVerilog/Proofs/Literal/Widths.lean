import SystemVerilog.Proofs.Interface.Declared
import SystemVerilog.Proofs.Literal.Decoding
import SystemVerilog.Proofs.Readings.Assignments
import SystemVerilog.Proofs.Rereading.Nodes
import SystemVerilog.Proofs.Tree.DataTypes

/-!
# Widths from literals

Where the upper bound of a packed dimension is a literal, the width is one more than the value of its digits,
however many there are: the value is never cut off. A literal whose value, or whose width, reaches the bound on
values is refused, and so is a literal that is no integer, or has a digit that is not valid before the bound is
reached.
-/

namespace SystemVerilog

open SystemVerilog.Parser

/-! ### Literals of a source -/

section Literals

variable {nested : Nested} {reading : LessEqualReading} {floor budget n : Nat} {c c' : Cursor} {e lhs : Expr Site}
  {t : Token}

theorem Parser.Turns.eq_of_unjoined (h : Turns nested reading floor n lhs c e c') (he : e.joint? = none) :
    e = lhs := by
  induction h with
  | stop => rfl
  | turn _ hk _ hnode _ ih =>
    rw [ih he, grown, connectiveOf_joint hk hnode] at he
    cases he

/-- A literal is read from a token that it copies. -/
theorem expressionWithin_literal {tag : Site} {kind : LiteralKind} {text : String}
    (h : expressionWithin budget reading floor c = .ok (.literal tag kind text, c')) :
    ∃ t rest, c.after = t :: rest ∧ t.literalKind? = some kind ∧ t.text = text := by
  cases budget with
  | zero => exact absurd h bottomless_ne_ok
  | succ budget =>
    obtain ⟨lhs, c₁, hlhs, hclimb⟩ := bind_eq_ok.1 h
    obtain rfl := (climbUpTo_eq_ok.1 hclimb).eq_of_unjoined rfl
    obtain ⟨t, rest, hafter, ⟨op, operand, -, -, heq⟩ | ⟨-, hprimary⟩⟩ := operandOf_inv hlhs
    · cases heq
    · cases primaryOf_inv hafter hprimary with
      | literal hcopies => exact ⟨t, rest, hafter, hcopies, rfl⟩
      | named hname hcalled =>
        cases hcalled
        cases hname

variable {source : String} {options : ReadOptions} {unit : SourceUnit} {tag : Site} {kind : LiteralKind}
  {text : String}

/-- Integer literals in the tree of a text are recognised as such. -/
theorem readText_isLiteral (h : (readText source options).result = .ok unit)
    (he : .literal tag kind text ∈ unit.expressionNodes) (hkind : kind = .based ∨ kind = .integer) :
    IsLiteral kind text := by
  obtain ⟨c, c', hsees, -, hread, -⟩ := readText_rereads h he nofun
  obtain ⟨t, rest, hafter, hliteral, rfl⟩ := expressionWithin_literal hread
  have hcode : t ∈ unit.code := by
    refine List.mem_of_mem_drop (hsees.subset ?_)
    rw [hafter]
    exact List.mem_cons_self ..
  obtain ⟨harena, -⟩ := readText_rooted h
  obtain ⟨front, htokens, -, -, -, hfront⟩ := Arena.ofSource_inv harena
  have ht : t ∈ front ++ [(options.source source).endMark] := by
    have hmem : t ∈ uncommented front := hfront ▸ hcode
    exact List.mem_append_left _ (List.filter_sublist.subset hmem)
  unfold Token.literalKind? at hliteral
  split at hliteral
  · rename_i htoken
    cases hliteral
    exact Source.isLiteral_of_mem_tokens htokens ht htoken hkind
  · cases hliteral
    rcases hkind with hkind | hkind <;> cases hkind
  · cases hliteral

/-- No plus sign leads the digits of an integer literal. -/
theorem IsLiteral.unsigned {radix : Radix} {digits : List Char}
    (h : kind = .based ∨ kind = .integer → IsLiteral kind text)
    (hdigits : SystemVerilog.integerDigits? kind text.toList = some (radix, digits)) : Unsigned digits := by
  have hkind : kind = .based ∨ kind = .integer := by
    cases kind with
    | based => exact .inl rfl
    | integer => exact .inr rfl
    | _ => cases hdigits
  obtain ⟨head, radix', written, hnumeral⟩ := (h hkind).numeral hkind
  have hfound : SystemVerilog.integerDigits? head.kind (head.chars ++ written) =
      some (radix', written.filter (· != '_')) := integerDigits?_written hnumeral.announces
  rw [← hnumeral.text_eq, hnumeral.kind_eq, hdigits] at hfound
  cases hfound
  intro rest heq
  have hmem : '+' ∈ written.filter (· != '_') := heq ▸ List.mem_cons_self ..
  exact hnumeral.plus_notMem (List.mem_of_mem_filter hmem)

end Literals

/-- The expressions of a tree are among its nodes. -/
theorem SourceUnit.mem_expressionNodes (unit : SourceUnit) {e : Expr Site}
    (he : e ∈ unit.items.flatMap Item.expressions) : e ∈ unit.expressionNodes := by
  refine List.mem_flatMap.2 ⟨e, he, ?_⟩
  rw [Expr.walk_eq]
  exact List.mem_cons_self ..

/-! ### Bounds that are literals -/

namespace Radix

/-- The digits have a value, and a number one larger than it stays below the bound. -/
def GivesWidth (radix : Radix) (digits : List Char) : Prop :=
  digits ≠ [] ∧ (∀ c ∈ digits, radix.isDigit c = true) ∧ radix.value digits ≤ 2 ^ 128 - 2

/-- The value reaches the bound before a digit that is not valid, or a number one larger than it does. -/
def OverflowsWidth (radix : Radix) (digits : List Char) : Prop :=
  (∃ p, p <+: digits ∧ (∀ c ∈ p, radix.isDigit c = true) ∧ 2 ^ 128 ≤ radix.value p) ∨
    digits ≠ [] ∧ (∀ c ∈ digits, radix.isDigit c = true) ∧ radix.value digits = 2 ^ 128 - 1

end Radix

namespace Interface

section Bounds

variable {unit : SourceUnit} {known : List String} {type : DataType Site} {b : Bounds Site}
  {rest : List (Bounds Site)} {radix : Radix} {digits : List Char}

/-- The width that digits give as an upper bound. -/
def digitsWidth (range : String) (radix : Radix) (digits : List Char) : Except InterfaceCause Width :=
  match readDigits radix digits with
  | .ok value => if value + 1 < valueBound then .ok (.bits (value + 1)) else .error (.indexOverflow range)
  | .error .overflow => .error (.indexOverflow range)
  | .error _ => .error (.nonIntegerIndex range)

/-- Above a literal zero, a literal gives the width of its digits. -/
theorem boundsWidth_of_literal (hzero : b.right.integerValue? = some 0) (hleft : b.left.isLiteral = true) :
    boundsWidth unit known b =
      match b.left.integerDigits? with
      | none => .error (.nonIntegerIndex (unit.nodeText b.tag))
      | some (radix, digits) => digitsWidth (unit.nodeText b.tag) radix digits := by
  have hlow : literalBound (unit.nodeText b.tag) b.right = .ok (some 0) := literalBound_eq_some.2 hzero
  unfold boundsWidth
  simp only [hlow]
  cases hb : b.left with
  | literal tag kind text =>
    have hknown : firstUnknown? known (Expr.literal tag kind text).identifiers = none := rfl
    simp only [bind, Except.bind, if_true, hknown, literalBound]
    cases (Expr.literal tag kind text).integerDigits? with
    | none => rfl
    | some found =>
      obtain ⟨radix, digits⟩ := found
      dsimp only
      unfold digitsWidth
      cases readDigits radix digits with
      | ok value => rfl
      | error fault => cases fault <;> rfl
  | _ =>
    rw [hb] at hleft
    cases hleft

theorem typeShape_of_packed (hpacked : type.packed = b :: rest) :
    typeShape unit known type = (boundsWidth unit known b).map fun w => (unit.nodeText type.tag, some w) := by
  unfold typeShape
  rw [hpacked]
  dsimp only
  cases boundsWidth unit known b <;> rfl

variable {range : String} {w : Width} {cause : InterfaceCause}

/-- Only two causes keep digits from giving a width. -/
theorem digitsWidth_eq_error (h : digitsWidth range radix digits = .error cause) :
    cause = .indexOverflow range ∨ cause = .nonIntegerIndex range := by
  unfold digitsWidth at h
  split at h
  · split at h <;> cases h
    exact .inl rfl
  · exact .inl (Except.error.inj h).symm
  · exact .inr (Except.error.inj h).symm

variable (hdigits : Unsigned digits)

include hdigits

theorem digitsWidth_eq_ok : digitsWidth range radix digits = .ok w ↔
    radix.GivesWidth digits ∧ w = .bits (radix.value digits + 1) := by
  unfold digitsWidth
  constructor
  · intro h
    split at h
    · rename_i value hvalue
      obtain ⟨hne, hvalid, rfl, -⟩ := (readDigits_eq_ok hdigits).1 hvalue
      split at h
      · rename_i hbelow
        cases h
        exact ⟨⟨hne, hvalid, add_one_lt_valueBound.1 hbelow⟩, rfl⟩
      · cases h
    · cases h
    · cases h
  · rintro ⟨⟨hne, hvalid, hle⟩, rfl⟩
    have hbelow := add_one_lt_valueBound.2 hle
    rw [(readDigits_eq_ok hdigits).2 ⟨hne, hvalid, rfl, Nat.lt_of_succ_lt hbelow⟩]
    exact if_pos hbelow

theorem digitsWidth_eq_overflow :
    digitsWidth range radix digits = .error (.indexOverflow range) ↔ radix.OverflowsWidth digits := by
  unfold digitsWidth
  constructor
  · intro h
    split at h
    · rename_i value hvalue
      obtain ⟨hne, hvalid, rfl, hlt⟩ := (readDigits_eq_ok hdigits).1 hvalue
      split at h
      · cases h
      · rename_i hreached
        have hbound : valueBound = 2 ^ 128 := rfl
        exact .inr ⟨hne, hvalid, by omega⟩
    · rename_i hoverflow
      exact .inl ((readDigits_eq_overflow hdigits).1 hoverflow)
    · cases h
  · rintro (hreached | ⟨hne, hvalid, heq⟩)
    · rw [(readDigits_eq_overflow hdigits).2 hreached]
    · have hlt : radix.value digits < valueBound := by
        rw [heq]
        decide
      rw [(readDigits_eq_ok hdigits).2 ⟨hne, hvalid, rfl, hlt⟩]
      exact if_neg (by rw [heq]; decide)

end Bounds

/-! ### Widths -/

/-- Above a literal zero, a literal gives a width if and only if it is an integer with digits that are all valid, and
one more than its value stays below the bound. The width is then the decimal numeral of one more than the value. The
overflow is reported if the value of the digits reaches the bound before a digit that is not valid, or if one more
than the value does; in all other cases the literal is reported not to be an integer. -/
theorem literalWidth_exact {source : String} {options : ReadOptions} {unit : SourceUnit}
    (h : (readText source options).result = .ok unit) {type : DataType Site} (htype : type ∈ unit.dataTypes)
    {b : Bounds Site} {rest : List (Bounds Site)} (hpacked : type.packed = b :: rest)
    (hleft : b.left.isLiteral = true) (hzero : b.right.integerValue? = some 0) (known : List String) :
    ((∃ shape, typeShape unit known type = .ok shape) ↔
      ∃ radix digits, b.left.integerDigits? = some (radix, digits) ∧ radix.GivesWidth digits) ∧
    (∀ shape, typeShape unit known type = .ok shape → ∃ radix digits w,
      b.left.integerDigits? = some (radix, digits) ∧ shape = (unit.nodeText type.tag, some w) ∧
        w.text = toString (radix.value digits + 1)) ∧
    (typeShape unit known type = .error (.indexOverflow (unit.nodeText b.tag)) ↔
      ∃ radix digits, b.left.integerDigits? = some (radix, digits) ∧ radix.OverflowsWidth digits) ∧
    ∀ cause, typeShape unit known type = .error cause →
      cause = .indexOverflow (unit.nodeText b.tag) ∨ cause = .nonIntegerIndex (unit.nodeText b.tag) := by
  have hshape := @typeShape_of_packed unit known type b rest hpacked
  rw [boundsWidth_of_literal hzero hleft] at hshape
  have hunsigned (radix : Radix) (digits : List Char) (hd : b.left.integerDigits? = some (radix, digits)) :
      Unsigned digits := by
    have hmem : b.left ∈ type.expressions := by
      rw [DataType.expressions, hpacked]
      exact List.mem_append_left _ (List.mem_cons_self ..)
    have hnode := unit.mem_expressionNodes (unit.covers type htype hmem)
    cases hb : b.left with
    | literal tag kind text =>
      rw [hb] at hnode hd
      exact IsLiteral.unsigned (fun hkind => readText_isLiteral h hnode hkind) hd
    | _ =>
      rw [hb] at hd
      cases hd
  cases hd : b.left.integerDigits? with
  | none =>
    rw [hshape, hd]
    refine ⟨⟨nofun, nofun⟩, nofun, ⟨nofun, nofun⟩, fun cause hcause => .inr ?_⟩
    exact (Except.error.inj hcause).symm
  | some found =>
    obtain ⟨radix, digits⟩ := found
    have hunsigned := hunsigned radix digits hd
    -- the digits are those of the literal, so each part speaks of them
    have hfound (P : Radix → List Char → Prop) :
        (∃ radix' digits', some (radix, digits) = some (radix', digits') ∧ P radix' digits') ↔ P radix digits := by
      constructor
      · rintro ⟨_, _, ⟨⟩, hP⟩
        exact hP
      · intro hP
        exact ⟨radix, digits, rfl, hP⟩
    rw [hfound, hfound, hshape, hd]
    dsimp only
    cases hwidth : digitsWidth (unit.nodeText b.tag) radix digits with
    | ok w =>
      obtain ⟨hgives, rfl⟩ := (digitsWidth_eq_ok hunsigned).1 hwidth
      refine ⟨⟨fun _ => hgives, fun _ => ⟨_, rfl⟩⟩, ?_, ⟨nofun, fun hover => ?_⟩, nofun⟩
      · rintro _ ⟨⟩
        exact ⟨radix, digits, _, rfl, rfl, rfl⟩
      · rw [(digitsWidth_eq_overflow hunsigned).2 hover] at hwidth
        cases hwidth
    | error cause =>
      refine ⟨⟨nofun, fun hgives => ?_⟩, nofun, ?_, ?_⟩
      · rw [(digitsWidth_eq_ok hunsigned).2 ⟨hgives, rfl⟩] at hwidth
        cases hwidth
      · rw [← digitsWidth_eq_overflow hunsigned, hwidth]
        exact ⟨fun h => congrArg Except.error (Except.error.inj h), fun h => congrArg Except.error (Except.error.inj h)⟩
      · rintro _ ⟨⟩
        exact digitsWidth_eq_error hwidth

/-- The net of the type `['shF_f:0]` is 256 bits wide. -/
theorem literalWidth_exact_signed :
    let text := "module m;\n  wire ['shF_f:0] a;\nendmodule"
    ∃ unit type name w, (readText text {}).result = .ok unit ∧ type ∈ unit.dataTypes ∧
      typeShape unit [] type = .ok (name, some w) ∧ w.text = "256" := by
  intro text
  have hread : ((readText text {}).result.toOption.bind fun unit => unit.dataTypes.head?.bind fun type =>
      type.packed.head?.map fun b => (b.left.isLiteral, b.right.integerValue?, b.left.integerDigits?)) =
      some (true, some 0, some (.hexadecimal, ['F', 'f'])) := by decide +kernel
  cases hresult : (readText text {}).result with
  | error e =>
    rw [hresult] at hread
    cases hread
  | ok unit =>
    rw [hresult] at hread
    obtain ⟨_, ⟨⟩, hread⟩ := Option.bind_eq_some_iff.1 hread
    obtain ⟨type, htype, hfound⟩ := Option.bind_eq_some_iff.1 hread
    obtain ⟨b, hb, heq⟩ := Option.map_eq_some_iff.1 hfound
    obtain ⟨hleft, hrest⟩ := Prod.mk.inj heq
    obtain ⟨hzero, hdigits⟩ := Prod.mk.inj hrest
    obtain ⟨rest, hpacked⟩ := List.head?_eq_some_iff.1 hb
    have hmem : type ∈ unit.dataTypes := List.mem_of_head? htype
    obtain ⟨hgives, hwidth, -, -⟩ := literalWidth_exact hresult hmem hpacked hleft hzero []
    obtain ⟨shape, hshape⟩ := hgives.2 ⟨_, _, hdigits, by decide, List.all_eq_true.1 rfl, by decide⟩
    obtain ⟨radix, digits, w, hfound, rfl, htext⟩ := hwidth shape hshape
    rw [hdigits] at hfound
    cases hfound
    exact ⟨unit, type, _, w, rfl, hmem, hshape, htext⟩

end Interface

end SystemVerilog
