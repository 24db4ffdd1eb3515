import SystemVerilog.Text.Bytes
import SystemVerilog.Token.Basic

/-!
# Tokens laid out in a text

`Laid gap offset ts cs` says that the characters `cs`, which start at a byte offset, are the texts of
the tokens `ts` one after the other with gaps before, between and behind them, and that every token
carries the offset at which its text stands. What a token knows about its place in the source follows
from it: its bytes, the order of the spans, and what stands outside all of them.
-/

namespace SystemVerilog

/-! ### Bytes -/

theorem size_utf8Encode (cs : List Char) : cs.utf8Encode.size = byteLength cs := by
  induction cs with
  | nil => rfl
  | cons c cs ih =>
    rw [List.utf8Encode_cons, ByteArray.size_append, ih, List.utf8Encode_singleton,
      List.size_toByteArray, String.length_utf8EncodeChar, byteLength_cons]

theorem toByteArray_eq_utf8Encode (s : String) : s.toByteArray = s.toList.utf8Encode := by
  rw [← String.toByteArray_ofList, String.ofList_toList]

theorem utf8ByteSize_eq_byteLength (s : String) : s.utf8ByteSize = byteLength s.toList := by
  rw [← String.size_toByteArray, toByteArray_eq_utf8Encode, size_utf8Encode]

/-- The bytes of a part of a text. -/
theorem extract_utf8Encode (as bs cs : List Char) :
    (as ++ bs ++ cs).utf8Encode.extract (byteLength as) (byteLength as + byteLength bs) =
      bs.utf8Encode := by
  rw [List.append_assoc, List.utf8Encode_append, List.utf8Encode_append, ← size_utf8Encode as]
  have h := ByteArray.extract_append_size_add (a := as.utf8Encode)
    (b := bs.utf8Encode ++ cs.utf8Encode) (i := 0) (j := byteLength bs)
  rw [Nat.add_zero] at h
  rw [h, ← size_utf8Encode bs, ByteArray.extract_append_size_left, ByteArray.extract_zero_size]

/-! ### Layouts -/

/-- The tokens stand in the text, which starts at a byte offset, with gaps around them. -/
inductive Laid (gap : List Char → Prop) : Nat → List Token → List Char → Prop
  | done {offset : Nat} {g : List Char} : gap g → Laid gap offset [] g
  | next {offset : Nat} {g cs : List Char} {t : Token} {ts : List Token} : gap g →
      t.offset = offset + byteLength g → t.text ≠ "" → Laid gap t.endOffset ts cs →
      Laid gap offset (t :: ts) (g ++ (t.text.toList ++ cs))

namespace Laid

variable {gap : List Char → Prop} {offset : Nat} {ts : List Token} {cs : List Char}

theorem endOffset_eq {t : Token} : t.endOffset = t.offset + byteLength t.text.toList := by
  rw [Token.endOffset, utf8ByteSize_eq_byteLength]

/-- Every token stands between the ends of the text. -/
theorem bounds (h : Laid gap offset ts cs) :
    ∀ t ∈ ts, offset ≤ t.offset ∧ t.endOffset ≤ offset + byteLength cs := by
  induction h with
  | done => simp
  | @next offset g cs t ts _ hoffset _ _ ih =>
    have hend := endOffset_eq (t := t)
    intro u hu
    simp only [byteLength_append]
    rcases List.mem_cons.1 hu with rfl | hu
    · omega
    · obtain ⟨h₁, h₂⟩ := ih u hu
      omega

/-- Every token has a text. -/
theorem text_ne_empty (h : Laid gap offset ts cs) : ∀ t ∈ ts, t.text ≠ "" := by
  induction h with
  | done => simp
  | next _ _ hne _ ih => exact List.forall_mem_cons.2 ⟨hne, ih⟩

/-- The spans of the tokens come in order and do not meet. -/
theorem pairwise (h : Laid gap offset ts cs) : ts.Pairwise fun t u => t.endOffset ≤ u.offset := by
  induction h with
  | done => exact .nil
  | next _ _ _ hlaid ih => exact List.pairwise_cons.2 ⟨fun u hu => (hlaid.bounds u hu).1, ih⟩

/-- Every token stands where it says, `before` being the text up to the start of the layout. -/
theorem stands (h : Laid gap offset ts cs) {before : List Char} (hb : byteLength before = offset) :
    ∀ t ∈ ts, ∃ left right, before ++ cs = left ++ t.text.toList ++ right ∧
      byteLength left = t.offset := by
  induction h generalizing before with
  | done => simp
  | @next offset g cs t ts _ hoffset _ _ ih =>
    intro u hu
    rcases List.mem_cons.1 hu with rfl | hu
    · exact ⟨before ++ g, cs, by simp, by rw [byteLength_append, hb, hoffset]⟩
    · have hb' : byteLength (before ++ g ++ t.text.toList) = t.endOffset := by
        rw [byteLength_append, byteLength_append, endOffset_eq, hb, hoffset]
      obtain ⟨left, right, heq, hleft⟩ := ih hb' u hu
      exact ⟨left, right, by rw [← heq]; simp, hleft⟩

/-- Behind its first gap a layout starts with its first token. -/
theorem at_first {t : Token} (hnil : gap []) (h : Laid gap offset (t :: ts) cs) : ∃ g rest, cs = g ++ rest ∧
    gap g ∧ t.offset = offset + byteLength g ∧ Laid gap t.offset (t :: ts) rest := by
  cases h with
  | @next _ g rest _ _ hg hoffset hne hlaid =>
    exact ⟨g, t.text.toList ++ rest, rfl, hg, hoffset, .next (g := []) hnil rfl hne hlaid⟩

/-- A layout is parted where its first tokens end. -/
theorem parted {us vs : List Token} (h : Laid gap offset (us ++ vs) cs) : ∃ left right, cs = left ++ right ∧
    offset + byteLength left = us.getLast?.elim offset Token.endOffset ∧
    (∀ t ∈ us, t.endOffset ≤ offset + byteLength left) ∧ Laid gap (offset + byteLength left) vs right := by
  induction us generalizing offset cs with
  | nil => exact ⟨[], cs, rfl, rfl, by simp, h⟩
  | cons u us ih =>
    cases h with
    | @next _ g cs _ _ hg hoffset _ hlaid =>
      obtain ⟨left, right, rfl, hlast, hbefore, hright⟩ := ih hlaid
      have hend : offset + byteLength (g ++ u.text.toList ++ left) = u.endOffset + byteLength left := by
        rw [byteLength_append, byteLength_append, endOffset_eq, hoffset]
        omega
      refine ⟨g ++ u.text.toList ++ left, right, by simp, ?_, ?_, hend ▸ hright⟩
      · rw [hend, hlast, List.getLast?_cons]
        cases us.getLast? <;> rfl
      · rw [hend]
        exact List.forall_mem_cons.2 ⟨Nat.le_add_right _ _, hbefore⟩

/-- The tokens at the head of a layout cover a part of the text, from the first character of the first
one to the last character of the last one. -/
theorem covered {us vs : List Token} {first last : Token} (hnil : gap []) (h : Laid gap offset (us ++ vs) cs)
    (hfirst : us.head? = some first) (hlast : us.getLast? = some last) : ∃ g mid rest, cs = g ++ (mid ++ rest) ∧
      gap g ∧ first.offset = offset + byteLength g ∧ last.endOffset = first.offset + byteLength mid ∧
      (∀ t ∈ us, first.offset ≤ t.offset ∧ t.endOffset ≤ last.endOffset) ∧ Laid gap last.endOffset vs rest := by
  obtain ⟨us, rfl⟩ := List.head?_eq_some_iff.1 hfirst
  rw [List.cons_append] at h
  obtain ⟨g, rest, rfl, hg, hoffset, hrun⟩ := at_first hnil h
  have hfrom := hrun.bounds
  rw [← List.cons_append] at hrun
  obtain ⟨mid, rest, rfl, hend, hwithin, hright⟩ := hrun.parted
  rw [hlast, Option.elim_some] at hend
  rw [hend] at hwithin hright
  exact ⟨g, mid, rest, rfl, hg, hoffset, hend.symm,
    fun t ht => ⟨(hfrom t (List.mem_append_left vs ht)).1, hwithin t ht⟩, hright⟩

/-- A place outside all tokens lies in a gap. -/
theorem uncovered (h : Laid gap offset ts cs) {before : List Char} (hb : byteLength before = offset)
    {i : Nat} (hi : offset ≤ i) (hi' : i < offset + byteLength cs)
    (hout : ∀ t ∈ ts, ¬(t.offset ≤ i ∧ i < t.endOffset)) :
    ∃ left g right, before ++ cs = left ++ g ++ right ∧ gap g ∧ byteLength left ≤ i ∧
      i < byteLength left + byteLength g := by
  induction h generalizing before with
  | @done offset g hg =>
    exact ⟨before, g, [], by simp, hg, by omega, by omega⟩
  | @next offset g cs t ts hg hoffset _ _ ih =>
    have hend := endOffset_eq (t := t)
    by_cases hgap : i < offset + byteLength g
    · exact ⟨before, g, t.text.toList ++ cs, by simp, hg, by omega, by omega⟩
    · have hpast : t.endOffset ≤ i := by
        have := hout t (by simp)
        omega
      have hb' : byteLength (before ++ g ++ t.text.toList) = t.endOffset := by
        simp only [byteLength_append]
        omega
      have hlt : i < t.endOffset + byteLength cs := by
        simp only [byteLength_append] at hi'
        omega
      obtain ⟨left, g', right, heq, hg', h₁, h₂⟩ := ih hb' hpast hlt fun u hu => hout u (by simp [hu])
      exact ⟨left, g', right, by rw [← heq]; simp, hg', h₁, h₂⟩

/-- The text is the texts of the tokens, each behind its gap, and a last gap. -/
theorem woven (h : Laid gap offset ts cs) : ∃ gaps last, gaps.length = ts.length ∧
    (∀ g ∈ gaps, gap g) ∧ gap last ∧
    cs = (List.zipWith (fun g t => g ++ t.text.toList) gaps ts).flatten ++ last := by
  induction h with
  | @done offset g hg => exact ⟨[], g, rfl, by simp, hg, by simp⟩
  | @next offset g cs t ts hg _ _ _ ih =>
    obtain ⟨gaps, last, hlen, hgaps, hlast, rfl⟩ := ih
    exact ⟨g :: gaps, last, by simp [hlen], List.forall_mem_cons.2 ⟨hg, hgaps⟩, hlast, by simp⟩

end Laid

end SystemVerilog
