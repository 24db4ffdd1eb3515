import SystemVerilog.Grammar.Statement

/-!
# Readers with a part that may be missing

Where a part of a construct is read only under a condition, what follows it is the same in both cases.
The readers of data types, instances and loop headers are put into this form: the part is a reader of its
own (`signingOf`, `packedOf`, `instanceParameters`, `loopStep`), and what follows it stands once. The unit of
a delay is there if two tokens say so (`unitBehind`).
-/

namespace SystemVerilog

namespace Parser

/-- The unit of time that a token is if it touches the token before it. -/
def unitBehind : Option Token → Option Token → Option TimeUnit
  | some last, some t => if t.touches last then TimeUnit.ofKind? t.kind else none
  | _, _ => none

theorem delayUnit_eq (c : Cursor) : delayUnit c = .ok (unitBehind c.last? c.current?,
    c.skip (unitBehind c.last? c.current?).isSome.toNat) := by
  unfold delayUnit Cursor.last? Cursor.current?
  cases c.before with
  | nil => rfl
  | cons last before =>
    cases c.after with
    | nil => rfl
    | cons t ts =>
      dsimp only [List.head?, unitBehind]
      split
      · rename_i unit hunit
        rw [hunit]
        split <;> rfl
      · rename_i hunit
        rw [hunit, ite_self]
        rfl

/-- Reads the signing of a data type with this keyword. -/
def signingOf (keyword : Option Keyword) : Parser (Option Signing) :=
  if admitsSigning keyword then tryBy Signing.ofKind? else pure none

/-- Reads the packed dimensions of a data type with this keyword. -/
def packedOf (keyword : Option Keyword) : Parser (List (Bounds Site)) :=
  if admitsPacked keyword then bracketed packedBounds else pure []

/-- Reads the parts of a data type, which is there. -/
def typeParts : Parser (Site → Option (DataType Site)) := do
  let keyword ← tryBy (TokenKind.keywordIn? Keyword.namesDataType)
  let signing ← signingOf keyword
  let packed ← packedOf keyword
  return fun tag => some ⟨tag, keyword, signing, packed⟩

theorem dataType_eq : dataType = do
    match ← currentKind? with
    | none => return none
    | some kind => if kind.startsDataType then tagged typeParts else return none := by
  have hparts : (do
      let keyword ← tryBy (TokenKind.keywordIn? Keyword.namesDataType)
      let signing ← if admitsSigning keyword then tryBy Signing.ofKind? else pure none
      let packed ← if admitsPacked keyword then bracketed packedBounds else pure []
      return fun tag => some ⟨tag, keyword, signing, packed⟩) = typeParts := by
    unfold typeParts signingOf packedOf
    congr 1
    funext keyword
    split <;> split <;> rfl
  unfold dataType
  exact hparts ▸ rfl

/-- Reads the connections of the parameters of an instance, if there are any. -/
def instanceParameters : Parser (List (Connection Site)) := do
  if ← eat (.op .sharp) then connections else return []

theorem instantiation_eq : instantiation = tagged (beforeSemicolon do
    let moduleName ← name
    let params ← instanceParameters
    let instanceName ← name
    let ports ← connections
    expectEnd "';'"
    return fun tag => ⟨tag, moduleName, params, instanceName, ports⟩) := by
  unfold instantiation instanceParameters
  congr 3
  funext moduleName
  rw [bind_assoc]
  congr 1
  funext named
  cases named <;> rfl

/-- Reads the last clause of a loop header, if there is one. -/
def loopStep : Parser (Option (Expr Site)) := do
  if ← atEnd then return none
  else return some (← filling "')'" statementExpression)

theorem loopHeader_eq : loopHeader = tagged (enclosed (.op .lParen) (.op .rParen) do
    let first ← loopClause
    let second ← loopClause
    let init ← optionally first loopInit
    let condition ← optionally second (filling "';'" expression)
    let step ← loopStep
    return fun tag => ⟨tag, init, condition, step⟩) := by
  unfold loopHeader loopStep
  congr 3
  funext first
  congr 1
  funext second
  congr 1
  funext init
  congr 1
  funext condition
  rw [bind_assoc]
  congr 1
  funext done
  cases done with
  | true => rfl
  | false => exact (bind_assoc (filling "')'" statementExpression) _ _).symm

end Parser

end SystemVerilog
