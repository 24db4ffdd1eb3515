/-!
# Byte measures of a text

Offsets into a text count the bytes of its UTF-8 encoding, while the text itself is handled as a
list of characters. `byteLength` is the measure, and `dropBytes`, `takeBytes` and `byteSlice` cut a
text at byte offsets; a cut inside a character has no answer.
-/

namespace SystemVerilog

/-- The number of bytes in the UTF-8 encoding of some characters. -/
def byteLength : List Char → Nat
  | [] => 0
  | c :: cs => c.utf8Size + byteLength cs

/-- What is left of some characters after `n` bytes. -/
def dropBytes : Nat → List Char → Option (List Char)
  | 0, cs => some cs
  | _ + 1, [] => none
  | n + 1, c :: cs => if c.utf8Size ≤ n + 1 then dropBytes (n + 1 - c.utf8Size) cs else none

/-- The characters that make up the first `n` bytes. -/
def takeBytes : Nat → List Char → Option (List Char)
  | 0, _ => some []
  | _ + 1, [] => none
  | n + 1, c :: cs =>
    if c.utf8Size ≤ n + 1 then (takeBytes (n + 1 - c.utf8Size) cs).map (c :: ·) else none

/-- The characters between two byte offsets. -/
def byteSlice (start stop : Nat) (cs : List Char) : Option (List Char) :=
  if start ≤ stop then (dropBytes start cs).bind (takeBytes (stop - start)) else none

/-! ### The measure on lists -/

@[simp] theorem byteLength_nil : byteLength [] = 0 := rfl

@[simp] theorem byteLength_cons (c : Char) (cs : List Char) :
    byteLength (c :: cs) = c.utf8Size + byteLength cs := rfl

@[simp] theorem byteLength_append (as bs : List Char) :
    byteLength (as ++ bs) = byteLength as + byteLength bs := by
  induction as with
  | nil => simp
  | cons a as ih => simp [ih, Nat.add_assoc]

/-- Cutting at the end of a leading part gives back what follows it. -/
@[simp] theorem dropBytes_byteLength_append (as bs : List Char) :
    dropBytes (byteLength as) (as ++ bs) = some bs := by
  induction as with
  | nil => cases bs <;> rfl
  | cons a as ih =>
    obtain ⟨n, hn⟩ : ∃ n, a.utf8Size = n + 1 := ⟨a.utf8Size - 1, by have := a.utf8Size_pos; omega⟩
    have : a.utf8Size + byteLength as = (n + byteLength as) + 1 := by omega
    rw [byteLength_cons, List.cons_append, this, dropBytes, if_pos (by omega), ← this,
      Nat.add_sub_cancel_left, ih]

/-- The bytes of a leading part are that part. -/
@[simp] theorem takeBytes_byteLength_append (as bs : List Char) :
    takeBytes (byteLength as) (as ++ bs) = some as := by
  induction as with
  | nil => cases bs <;> rfl
  | cons a as ih =>
    obtain ⟨n, hn⟩ : ∃ n, a.utf8Size = n + 1 := ⟨a.utf8Size - 1, by have := a.utf8Size_pos; omega⟩
    have : a.utf8Size + byteLength as = (n + byteLength as) + 1 := by omega
    rw [byteLength_cons, List.cons_append, this, takeBytes, if_pos (by omega), ← this,
      Nat.add_sub_cancel_left, ih, Option.map_some]

end SystemVerilog
