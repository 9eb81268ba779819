/-!
# Texts and their byte offsets

A source is handled as the list of its characters, while every place in it is named by a *byte*
offset: the size of the text before that place in UTF-8. This file holds the type `Text`, the
size `Text.byteSize`, and the two ways of cutting a text at byte offsets.

* `byteSize_eq_utf8ByteSize`: the size is that of the encoded text.
* `byteSize_append`: sizes add up along a concatenation, so an offset can be computed from any
  division of the text before it.
* `append_of_splitAtByte?`: a cut loses nothing, and its first part has exactly the size asked
  for. A cut in the middle of a character, or past the end, is refused.
-/

namespace PioFrontEnd

/-- A text is the list of its characters. -/
abbrev Text := List Char

namespace Text

/-- The number of bytes of a text in UTF-8. -/
def byteSize : Text → Nat
  | [] => 0
  | c :: t => c.utf8Size + byteSize t

/-- The empty text has no bytes. -/
@[simp] theorem byteSize_nil : byteSize [] = 0 := rfl

/-- The first character of a text counts with the bytes that encode it. -/
@[simp] theorem byteSize_cons (c : Char) (t : Text) :
    byteSize (c :: t) = c.utf8Size + byteSize t := rfl

/-- The sizes of two texts add up when one is put after the other. -/
@[simp] theorem byteSize_append (s t : Text) : byteSize (s ++ t) = byteSize s + byteSize t := by
  induction s with
  | nil => simp
  | cons c s ih => simp [ih, Nat.add_assoc]

/-- The size is the one that the UTF-8 encoding of the text has. -/
theorem byteSize_eq_utf8ByteSize (t : Text) : byteSize t = (String.ofList t).utf8ByteSize := by
  induction t with
  | nil => rfl
  | cons c t ih =>
    have hsplit : String.ofList (c :: t) = String.singleton c ++ String.ofList t := by
      rw [String.singleton_eq_ofList, ← String.ofList_append, List.singleton_append]
    rw [byteSize_cons, ih, hsplit, String.utf8ByteSize_append, String.utf8ByteSize_singleton]

/-- Only the empty text has no bytes. -/
theorem byteSize_eq_zero {t : Text} : byteSize t = 0 ↔ t = [] := by
  cases t with
  | nil => simp
  | cons c t => simp [Nat.ne_of_gt c.utf8Size_pos]

/-- Cuts a text after its first `n` bytes, if a character ends there. -/
def splitAtByte? : Text → Nat → Option (Text × Text)
  | t, 0 => some ([], t)
  | [], _ + 1 => none
  | c :: t, n + 1 =>
    if c.utf8Size ≤ n + 1 then
      (splitAtByte? t (n + 1 - c.utf8Size)).map fun (s, rest) => (c :: s, rest)
    else none

/-- The part of a text between two byte offsets. It is refused when the offsets are out of order,
when the second lies past the end, or when one of them falls inside a character. -/
def slice? (t : Text) (first last : Nat) : Option Text :=
  if first ≤ last then do
    let (_, rest) ← splitAtByte? t first
    let (s, _) ← splitAtByte? rest (last - first)
    return s
  else none

/-- A text that is split at a byte is made of the two pieces, and the first has that size. -/
theorem append_of_splitAtByte? {t s rest : Text} {n : Nat}
    (h : splitAtByte? t n = some (s, rest)) : s ++ rest = t ∧ byteSize s = n := by
  fun_induction splitAtByte? t n generalizing s rest with
  | case1 => simp_all
  | case2 => simp at h
  | case3 c t n hc ih =>
    obtain ⟨⟨s', rest'⟩, hs, he⟩ := Option.map_eq_some_iff.1 h
    obtain ⟨rfl, rfl⟩ := Prod.mk.inj he
    obtain ⟨happ, hsize⟩ := ih hs
    refine ⟨by simp [happ], ?_⟩
    rw [byteSize_cons, hsize]
    omega
  | case4 => simp at h

/-- A text can be cut where a part of it ends. -/
theorem splitAtByte?_append (s t : Text) : splitAtByte? (s ++ t) (byteSize s) = some (s, t) := by
  induction s with
  | nil => simp [splitAtByte?]
  | cons c s ih =>
    obtain ⟨k, hk⟩ := Nat.exists_eq_succ_of_ne_zero (Nat.ne_of_gt c.utf8Size_pos)
    have hn : byteSize (c :: s) = (k + byteSize s) + 1 := by
      rw [byteSize_cons, hk]; omega
    have hsub : k + byteSize s + 1 - c.utf8Size = byteSize s := by omega
    rw [List.cons_append, hn, splitAtByte?, if_pos (by omega), hsub, ih]
    rfl

end Text

end PioFrontEnd
