import Mathlib.Data.List.Basic
import PioFrontEnd.Proofs.ByName.Simulation
import PioFrontEnd.Proofs.Token.Lossless

/-!
# Positions read off the bytes of a source

A reader who has the whole source in front of them finds the line of a byte by counting the line
feeds before it, and the column by looking for the last of these. Neither needs to know what a
token is, how far a stream has come, or which of its steps passed which line feed. This file writes
that reading down (`Text.positionAt`) and proves that it is what a stream answers at every moment
for all that it has passed.

The line breaks that a stream has noted are, one by one, the line feeds among the bytes it has
passed (`At.offsets_eq`). A line feed is one byte and no other character has a byte of its value,
so the line breaks counted by characters are the line feeds counted by bytes
(`LineBreaks.offsetsFrom_eq_idxsOf`), also below an offset inside a character.

* `TokenStream.position_afterDraws`: after any number of draws every offset up to the end of
  what has been drawn has the position that is read off the bytes, and so has the diagnostic of a
  source that does not compile.
-/

namespace PioFrontEnd

/-! ### Counting line feeds -/

namespace Text

/-- The bytes of a text in UTF-8. -/
def bytes (t : Text) : List UInt8 := t.flatMap String.utf8EncodeChar

/-- The offsets of the line feeds among so many first bytes of a text. -/
def lineFeeds (t : Text) (offset : Nat) : List Nat := ((bytes t).take offset).idxsOf 10

/-- The line and the column of an offset. Lines are counted by the line feeds before it, and columns
from the last of these; where there is none, or where it begins the text, they are one higher. -/
def positionAt (t : Text) (offset : Nat) : Position where
  line := 1 + ((bytes t).take offset).count 10
  column :=
    match (lineFeeds t offset).getLast? with
    | none | some 0 => offset + 1
    | some last => offset - last

/-- They are the bytes of the encoded text. -/
theorem toByteArray_bytes (t : Text) : (bytes t).toByteArray = (String.ofList t).toByteArray :=
  String.toByteArray_ofList.symm

/-- The bytes of two texts follow one another when one is put after the other. -/
theorem bytes_append (s t : Text) : bytes (s ++ t) = bytes s ++ bytes t := List.flatMap_append

/-- A text has as many bytes as its size says. -/
theorem length_bytes (t : Text) : (bytes t).length = byteSize t := by
  induction t with
  | nil => rfl
  | cons c t ih =>
    rw [bytes, List.flatMap_cons, List.length_append, String.length_utf8EncodeChar, byteSize_cons,
      ← ih, bytes]

/-- The first bytes of a text are those of its first part. -/
theorem take_bytes_append (s t : Text) : (bytes (s ++ t)).take (byteSize s) = bytes s := by
  rw [bytes_append, ← length_bytes, List.take_left]

/-- A byte below 128 is the only byte of a character, and its code. -/
theorem eq_of_mem_utf8EncodeChar {c : Char} {b : UInt8} (hb : b ∈ String.utf8EncodeChar c)
    (hlt : b.toNat < 128) : c.toNat = b.toNat := by
  have hcode : c.toNat = c.val.toNat := rfl
  simp only [String.utf8EncodeChar] at hb
  split at hb
  · rw [List.mem_singleton.1 hb, UInt8.toNat_ofNat', hcode]
    omega
  · -- in a longer encoding the first byte and all that follow it are at least 128
    repeat' split at hb
    all_goals
      simp only [List.mem_cons, List.not_mem_nil, or_false] at hb
      rcases hb with rfl | rfl | rfl | rfl <;> rw [UInt8.toNat_ofNat'] at hlt <;> omega

/-- Line feeds before an offset are at lesser offsets. -/
theorem lt_of_mem_lineFeeds {t : Text} {offset o : Nat} (h : o ∈ lineFeeds t offset) :
    o < offset := by
  have := List.lt_add_of_mem_idxsOf _ h
  rw [List.length_take] at this
  omega

/-- No number of a position outgrows its offset by more than one. -/
theorem positionAt_le (t : Text) (offset : Nat) :
    (positionAt t offset).line ≤ offset + 1 ∧ (positionAt t offset).column ≤ offset + 1 := by
  constructor
  · have hcount := List.count_le_length (a := (10 : UInt8)) (l := (bytes t).take offset)
    rw [List.length_take] at hcount
    show 1 + _ ≤ _
    omega
  · unfold positionAt
    dsimp only
    split <;> omega

end Text

/-! ### Line breaks are line feeds -/

namespace LineBreaks

/-- A line feed is one byte, and no other character has such a byte. -/
theorem idxsOf_utf8EncodeChar (c : Char) (offset : Nat) :
    (String.utf8EncodeChar c).idxsOf 10 offset = if c = '\n' then [offset] else [] := by
  by_cases hc : c = '\n'
  · subst hc
    rfl
  · rw [if_neg hc, List.idxsOf_eq_nil_iff]
    intro b hb
    rw [beq_eq_false_iff_ne]
    rintro rfl
    exact hc (Char.toNat_inj.1 (Text.eq_of_mem_utf8EncodeChar hb (by decide)))

/-- The line breaks of a text are the line feeds among its bytes. -/
theorem offsetsFrom_eq_idxsOf (offset : Nat) (t : Text) :
    offsetsFrom offset t = (Text.bytes t).idxsOf 10 offset := by
  induction t generalizing offset with
  | nil => rfl
  | cons c t ih =>
    rw [Text.bytes, List.flatMap_cons, List.idxsOf_append, String.length_utf8EncodeChar,
      idxsOf_utf8EncodeChar, offsetsFrom, ih, Text.bytes]
    split <;> rfl

/-- The line breaks before an offset are the line feeds among the bytes before it. -/
theorem before_ofText (source : Text) (offset : Nat) :
    (ofText source).before offset = source.lineFeeds offset := by
  have hsplit : (ofText source).offsets = source.lineFeeds offset ++
      (source.bytes.drop offset).idxsOf 10 (0 + (source.bytes.take offset).length) := by
    rw [ofText, offsetsFrom_eq_idxsOf, Text.lineFeeds, ← List.idxsOf_append,
      List.take_append_drop]
  have hearlier : ∀ o ∈ source.lineFeeds offset, decide (o < offset) = true :=
    fun o ho => decide_eq_true (Text.lt_of_mem_lineFeeds ho)
  have hlater : ∀ o ∈ (source.bytes.drop offset).idxsOf 10
      (0 + (source.bytes.take offset).length), offset ≤ o := by
    intro o ho
    rcases Nat.lt_or_ge source.bytes.length offset with hlength | hlength
    · rw [List.drop_eq_nil_of_le (Nat.le_of_lt hlength)] at ho
      cases ho
    · have hle := List.ge_of_mem_idxsOf o ho
      rwa [Nat.zero_add, List.length_take, Nat.min_eq_left hlength] at hle
  rw [before, hsplit, List.takeWhile_append_of_pos hearlier, takeWhile_of_le hlater,
    List.append_nil]

/-- The position in a source is read off its bytes. -/
theorem position_ofText (source : Text) (offset : Nat) :
    (ofText source).position offset = source.positionAt offset := by
  have hlength : (source.lineFeeds offset).length = (source.bytes.take offset).count 10 :=
    List.length_idxsOf
  simp only [position, before_ofText, Text.positionAt, hlength, Nat.add_comm 1]
  congr 1
  -- no line feed at all counts like one that begins the source
  rcases (source.lineFeeds offset).getLast? with _ | _ | last <;> rfl

end LineBreaks

/-! ### Streams and compilations -/

namespace TokenStream

variable {source : Text} {s : TokenStream}

/-- The line breaks that a stream has noted are the line feeds among the bytes it has passed. -/
theorem At.offsets_eq (h : At source s) :
    s.offset ≤ Text.byteSize source ∧ s.breaks.offsets = source.lineFeeds s.offset := by
  obtain ⟨passed, rfl, hsize, hnoted⟩ := h
  constructor
  · rw [hsize, Text.byteSize_append]
    exact Nat.le_add_right _ _
  · rw [hnoted, Text.lineFeeds, hsize, Text.take_bytes_append]
    exact LineBreaks.offsetsFrom_eq_idxsOf 0 passed

/-- Whatever has been drawn ends before the offset that has been reached. -/
theorem At.of_afterDraws (h : At source s) (n : Nat) :
    At source (s.afterDraws n) ∧ s.offset ≤ (s.afterDraws n).offset ∧
      ∀ item ∈ s.items.take n, endOf item ≤ (s.afterDraws n).offset := by
  induction n generalizing s with
  | zero => exact ⟨h, Nat.le_refl _, by simp⟩
  | succ n ih =>
    rw [afterDraws]
    rcases hnext : s.next? with _ | ⟨item, s'⟩
    · rw [items_of_none hnext]
      obtain ⟨hat, hle, -⟩ := ih h
      exact ⟨hat, hle, by simp⟩
    · obtain ⟨hat', hle', -, hend⟩ := h.ends_of_next? hnext
      obtain ⟨hat, hle, hitems⟩ := ih hat'
      rw [items_of_some hnext, List.take_succ_cons]
      refine ⟨hat, Nat.le_trans hle' hle, fun later hlater => ?_⟩
      rcases List.mem_cons.1 hlater with rfl | hlater
      · exact Nat.le_trans hend hle
      · exact hitems later hlater

end TokenStream

/-- What is reported of a source that does not compile is what its run stops at. -/
theorem compile_eq_error_iff {source : Text} {d : Diagnostic} :
    compile source = .error d ↔ ∃ fault, (Compilation.ofText source).run.1 = .error fault ∧
      fault.offset ≤ Text.byteSize source ∧
      d = ⟨fault.cause, source.positionAt fault.offset⟩ := by
  have hstart : (Compilation.ofText source).stream.At source := .ofText source
  unfold compile
  rcases hrun : (Compilation.ofText source).run with ⟨fault | ⟨⟩, c⟩
  · obtain ⟨hat, hle⟩ := Compilation.offset_le_of_run hstart (congrArg Prod.fst hrun)
    rw [hrun] at hat hle
    have hposition := (hat.position_eq hle).trans (LineBreaks.position_ofText source fault.offset)
    simp only [Fault.diagnose, hposition, Except.error.injEq, exists_eq_left', eq_comm,
      Nat.le_trans hle hat.offsets_eq.1, true_and]
  · simp

/-- After any number of draws a stream has noted every line feed that it has passed, once, and what
it has drawn lies before the offset that it has reached. Up to there the position of an offset is
the one that is read off the bytes of the whole source, and neither of its numbers outgrows the
offset by more than one. A source that does not compile is reported at the position, read in the
same way, of the offset where its run stops. -/
theorem TokenStream.position_afterDraws (source : Text) :
    (∀ n, let s := (TokenStream.ofText source).afterDraws n
      s.breaks.offsets = source.lineFeeds s.offset ∧ s.offset ≤ Text.byteSize source ∧
        (∀ item ∈ (tokenize source).take n, endOf item ≤ s.offset) ∧
        ∀ o ≤ s.offset, s.position o = source.positionAt o ∧
          (s.position o).line ≤ o + 1 ∧ (s.position o).column ≤ o + 1) ∧
    ∀ d, compile source = .error d ↔ ∃ fault, (Compilation.ofText source).run.1 = .error fault ∧
      fault.offset ≤ Text.byteSize source ∧
      d = ⟨fault.cause, source.positionAt fault.offset⟩ := by
  refine ⟨fun n => ?_, fun d => compile_eq_error_iff⟩
  obtain ⟨hat, -, hitems⟩ := (At.ofText source).of_afterDraws n
  refine ⟨hat.offsets_eq.2, hat.offsets_eq.1, hitems, fun o ho => ?_⟩
  have hposition : ((TokenStream.ofText source).afterDraws n).position o = source.positionAt o :=
    (hat.position_eq ho).trans (LineBreaks.position_ofText source o)
  rw [hposition]
  exact ⟨rfl, source.positionAt_le o⟩

/-- Empty lines, a keyword, a comment and an unknown directive lie before a malformed number. -/
theorem TokenStream.position_afterDraws_malformedNumber :
    let source : Text := "\n\n.define public A 1 // é\n\n .foo\n12x".toList
    let s := (TokenStream.ofText source).afterDraws 6
    let item : Except Fault Token := .error ⟨.malformedNumber, 34⟩
    item ∈ (tokenize source).take 6 ∧ endOf item ≤ s.offset ∧
      s.breaks.offsets = [0, 1, 26, 27, 33] ∧ s.position 34 = source.positionAt 34 ∧
      source.positionAt 34 = ⟨6, 1⟩ ∧ compile source = .error ⟨.malformedNumber, ⟨6, 1⟩⟩ := by
  intro source s item
  obtain ⟨hdraws, hcompile⟩ := position_afterDraws source
  obtain ⟨hoffsets, -, hends, hpositions⟩ := hdraws 6
  have hitem : item ∈ (tokenize source).take 6 := by decide +kernel
  have hend : endOf item ≤ s.offset := hends item hitem
  have hfeeds : source.lineFeeds s.offset = [0, 1, 26, 27, 33] := by decide +kernel
  have hposition : source.positionAt 34 = ⟨6, 1⟩ := by decide +kernel
  refine ⟨hitem, hend, hoffsets.trans hfeeds, (hpositions 34 hend).1, hposition,
    (hcompile _).2 ⟨⟨.malformedNumber, 34⟩, by decide +kernel, by decide +kernel, ?_⟩⟩
  exact congrArg (Diagnostic.mk _) hposition.symm

end PioFrontEnd
