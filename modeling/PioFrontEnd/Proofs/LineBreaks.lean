import Mathlib.Data.List.Induction
import Mathlib.Data.List.Perm.Subperm
import Mathlib.Data.List.TakeWhile
import PioFrontEnd.LineBreaks

/-!
# Line breaks in any order, and positions in the order of offsets

`LineBreaks.push` is not told that the offsets it is given are in order. What it makes of any offsets
is in order all the same: an offset stays if it exceeds all that came earlier, and the others are
passed over (`mem_noted_iff`). So the line breaks before an offset stand before all others, and a
search that looks only for the place where they end has one answer (`splits_iff`).

On such line breaks a position tells its offset. A greater offset is on a later line, or on the same
line and further on, because the column is counted from the same place on one line
(`before_of_lt`). This holds in spite of the two cases in which columns are one higher, no line
break and one that begins the source: both are decided by the line alone.

Offsets, lines and columns are natural numbers in this library. `reckon32?` finds a position as a
machine does whose numbers are words of 32 bits, and refuses to go below zero or beyond a word; for
the offset of a text whose size fits in a word it never refuses (`reckon32?_eq_some`).

* `position_determines_offset`: all of this, for whatever has been noted.
-/

namespace PioFrontEnd

/-- Whether a position comes before another one: on an earlier line, or earlier on the same line. -/
def Position.Before (p q : Position) : Prop :=
  p.line < q.line ∨ p.line = q.line ∧ p.column < q.column

/-- No position comes before itself. -/
theorem Position.Before.irrefl (p : Position) : ¬ p.Before p :=
  fun h => h.elim (Nat.lt_irrefl _) fun h => Nat.lt_irrefl _ h.2

namespace LineBreaks

/-! ### What is noted -/

/-- The line breaks that are known after these offsets have been noted, one after another. -/
def noted (pushed : List Nat) : LineBreaks := pushed.foldl push {}

/-- Whether an offset comes at some place where it exceeds all that came earlier. -/
def IsRecord (pushed : List Nat) (offset : Nat) : Prop :=
  ∃ earlier later, pushed = earlier ++ offset :: later ∧ ∀ e ∈ earlier, e < offset

variable {pushed : List Nat} {offset last : Nat}

/-- Offsets are noted one after another, the last one last. -/
theorem noted_concat (pushed : List Nat) (last : Nat) :
    noted (pushed ++ [last]) = (noted pushed).push last :=
  List.foldl_concat push {} last pushed

/-- The line breaks that are known are in order, whatever has been noted. -/
theorem pairwise_noted (pushed : List Nat) : (noted pushed).offsets.Pairwise (· < ·) := by
  induction pushed using List.reverseRecOn with
  | nil => exact .nil
  | append_singleton pushed last ih =>
    rw [noted_concat]
    exact pairwise_push ih last

/-- The last of the line breaks is the greatest offset that has been noted. -/
theorem all_getLast?_noted :
    (noted pushed).offsets.getLast?.all (· < offset) = true ↔ ∀ e ∈ pushed, e < offset := by
  induction pushed using List.reverseRecOn generalizing offset with
  | nil => exact iff_of_true rfl fun e he => absurd he List.not_mem_nil
  | append_singleton pushed last ih =>
    rw [noted_concat, push, List.forall_mem_append, List.forall_mem_singleton]
    split
    · rename_i hlast
      rw [List.getLast?_concat, Option.all_some, decide_eq_true_eq]
      exact ⟨fun h => ⟨fun e he => Nat.lt_trans (ih.1 hlast e he) h, h⟩, fun h => h.2⟩
    · -- some earlier offset is no less than the one that is passed over
      rename_i hlast
      rw [ih] at hlast
      rw [ih]
      refine ⟨fun h => ⟨h, ?_⟩, fun h => h.1⟩
      obtain ⟨e, he, hle⟩ : ∃ e ∈ pushed, ¬ e < last := by simpa using hlast
      exact Nat.lt_of_le_of_lt (Nat.not_lt.1 hle) (h e he)

/-- An offset more is passed over unless it exceeds all others. -/
theorem offsets_noted_concat (pushed : List Nat) (last : Nat) :
    (noted (pushed ++ [last])).offsets =
      if ∀ e ∈ pushed, e < last then (noted pushed).offsets ++ [last]
      else (noted pushed).offsets := by
  rw [noted_concat, push]
  simp only [all_getLast?_noted]
  split <;> rfl

/-- With one offset more, an offset exceeds all earlier ones if it did, or comes last and does. -/
theorem isRecord_concat : IsRecord (pushed ++ [last]) offset ↔
    IsRecord pushed offset ∨ (∀ e ∈ pushed, e < last) ∧ offset = last := by
  constructor
  · rintro ⟨earlier, later, heq, hearlier⟩
    rcases List.eq_nil_or_concat later with rfl | ⟨later, x, rfl⟩
    · obtain ⟨rfl, hlast⟩ := List.append_inj' heq rfl
      obtain rfl := List.singleton_inj.1 hlast
      exact .inr ⟨hearlier, rfl⟩
    · rw [List.concat_eq_append, ← List.cons_append, ← List.append_assoc] at heq
      exact .inl ⟨earlier, later, (List.append_inj' heq rfl).1, hearlier⟩
  · rintro (⟨earlier, later, rfl, hearlier⟩ | ⟨hall, rfl⟩)
    · exact ⟨earlier, later ++ [last], by simp, hearlier⟩
    · exact ⟨pushed, [], rfl, hall⟩

/-- The line breaks are the offsets that exceeded all earlier ones. -/
theorem mem_noted_iff : offset ∈ (noted pushed).offsets ↔ IsRecord pushed offset := by
  induction pushed using List.reverseRecOn with
  | nil =>
    refine iff_of_false List.not_mem_nil ?_
    rintro ⟨earlier, later, heq, -⟩
    exact absurd heq.symm (by simp)
  | append_singleton pushed last ih =>
    rw [offsets_noted_concat, isRecord_concat]
    split
    · rename_i hall
      rw [List.mem_append, List.mem_singleton, ih, and_iff_right hall]
    · rename_i hall
      rw [ih, or_iff_left fun h => hall h.1]

/-! ### The line breaks before an offset -/

/-- Whether so many of the line breaks, the first ones, are those before an offset. -/
def Splits (breaks : LineBreaks) (offset count : Nat) : Prop :=
  count ≤ breaks.offsets.length ∧
    ∀ i (h : i < breaks.offsets.length), breaks.offsets[i] < offset ↔ i < count

variable {breaks : LineBreaks} {count : Nat}

/-- The line breaks before an offset are less than it. -/
theorem lt_of_mem_before {o : Nat} (h : o ∈ breaks.before offset) : o < offset := by
  have hlt := List.mem_takeWhile_imp h
  exact of_decide_eq_true hlt

/-- Line breaks that are left out are not before the offset, if all are in order. -/
theorem le_of_mem_dropWhile {offsets : List Nat} (h : offsets.Pairwise (· < ·)) :
    ∀ o ∈ offsets.dropWhile (· < offset), offset ≤ o := by
  induction offsets with
  | nil => exact fun o ho => absurd ho List.not_mem_nil
  | cons first offsets ih =>
    obtain ⟨hfirst, hrest⟩ := List.pairwise_cons.1 h
    rw [List.dropWhile_cons]
    split
    · exact ih hrest
    · rename_i hle
      have hle : offset ≤ first := by simpa using hle
      intro o ho
      rcases List.mem_cons.1 ho with rfl | ho
      · exact hle
      · exact Nat.le_of_lt (Nat.lt_of_le_of_lt hle (hfirst o ho))

/-- As many line breaks are less than an offset as stand before it. -/
theorem countP_eq_length_before (h : breaks.offsets.Pairwise (· < ·)) (offset : Nat) :
    breaks.offsets.countP (· < offset) = (breaks.before offset).length := by
  have hsplit := List.takeWhile_append_dropWhile (p := (· < offset)) (l := breaks.offsets)
  have hbefore : (breaks.before offset).countP (· < offset) = (breaks.before offset).length :=
    List.countP_eq_length.2 fun o ho => decide_eq_true (lt_of_mem_before ho)
  have hafter : (breaks.offsets.dropWhile (· < offset)).countP (· < offset) = 0 :=
    List.countP_eq_zero.2 fun o ho => by simpa using le_of_mem_dropWhile h o ho
  conv_lhs => rw [← hsplit, List.countP_append, hafter]
  exact hbefore

/-- The line breaks before an offset are the first ones. -/
theorem splits_length_before (h : breaks.offsets.Pairwise (· < ·)) (offset : Nat) :
    breaks.Splits offset (breaks.before offset).length := by
  have hsplit : breaks.before offset ++ breaks.offsets.dropWhile (· < offset) = breaks.offsets :=
    List.takeWhile_append_dropWhile
  refine ⟨(List.takeWhile_prefix _).length_le, fun i hi => ?_⟩
  rw [List.getElem_of_eq hsplit.symm hi]
  by_cases hlt : i < (breaks.before offset).length
  · rw [List.getElem_append_left hlt]
    exact iff_of_true (lt_of_mem_before (List.getElem_mem hlt)) hlt
  · rw [List.getElem_append_right (Nat.not_lt.1 hlt)]
    exact iff_of_false (Nat.not_lt.2 (le_of_mem_dropWhile h _ (List.getElem_mem _))) hlt

/-- Only one number of line breaks are the first ones before an offset. -/
theorem Splits.unique {count' : Nat} (h : breaks.Splits offset count)
    (h' : breaks.Splits offset count') : count = count' := by
  have hle : ∀ {m n}, breaks.Splits offset m → breaks.Splits offset n → m ≤ n := by
    intro m n hm hn
    by_contra hlt
    have hlength : n < breaks.offsets.length := Nat.lt_of_lt_of_le (Nat.not_le.1 hlt) hm.1
    exact Nat.lt_irrefl n ((hn.2 n hlength).1 ((hm.2 n hlength).2 (Nat.not_le.1 hlt)))
  exact Nat.le_antisymm (hle h h') (hle h' h)

/-- A search that looks for the end of the line breaks before an offset finds how many there are. -/
theorem splits_iff (h : breaks.offsets.Pairwise (· < ·)) (offset : Nat) :
    breaks.Splits offset count ↔ count + 1 = (breaks.position offset).line := by
  show _ ↔ count + 1 = (breaks.before offset).length + 1
  rw [Nat.add_right_cancel_iff]
  refine ⟨fun hcount => hcount.unique (splits_length_before h offset), ?_⟩
  rintro rfl
  exact splits_length_before h offset

/-! ### Positions in the order of offsets -/

/-- The offset that columns are counted from. -/
def lineStart (breaks : LineBreaks) (offset : Nat) : Nat := (breaks.before offset).getLast?.getD 0

/-- A column counts from the line break before, or from the first byte if there is none or it is the
first byte. -/
theorem column_position (breaks : LineBreaks) (offset : Nat) :
    (breaks.position offset).column =
      if breaks.lineStart offset = 0 then offset + 1 else offset - breaks.lineStart offset := rfl

/-- Columns are counted from a place before the offset, unless that begins the source. -/
theorem lineStart_lt (breaks : LineBreaks) (offset : Nat) (h : breaks.lineStart offset ≠ 0) :
    breaks.lineStart offset < offset := by
  unfold lineStart at h ⊢
  rcases hlast : (breaks.before offset).getLast? with _ | o
  · rw [hlast] at h
    exact absurd rfl h
  · exact lt_of_mem_before (List.mem_of_getLast? hlast)

/-- What comes before an offset comes before a greater one, too. -/
theorem before_prefix {a b : Nat} (h : a ≤ b) : breaks.before a <+: breaks.before b := by
  have htwice : breaks.before a = (breaks.before b).takeWhile (· < a) := by
    rw [before, before, List.takeWhile_takeWhile]
    refine congrArg (List.takeWhile · breaks.offsets) (funext fun o => ?_)
    simp only [decide_eq_true_eq, decide_eq_decide]
    omega
  rw [htwice]
  exact List.takeWhile_prefix _

/-- A greater offset has a later position. -/
theorem before_of_lt (breaks : LineBreaks) {a b : Nat} (h : a < b) :
    (breaks.position a).Before (breaks.position b) := by
  have hprefix := breaks.before_prefix (Nat.le_of_lt h)
  rcases Nat.lt_or_eq_of_le hprefix.length_le with hlt | heq
  · exact .inl (Nat.succ_lt_succ hlt)
  · -- on one line columns are counted from one place
    have hstart : breaks.lineStart a = breaks.lineStart b := by
      rw [lineStart, lineStart, hprefix.eq_of_length heq]
    refine .inr ⟨congrArg Nat.succ heq, ?_⟩
    have hlt := breaks.lineStart_lt a
    rw [column_position, column_position, ← hstart]
    split <;> omega

/-- A position tells its offset. -/
theorem position_injective (breaks : LineBreaks) {a b : Nat}
    (h : breaks.position a = breaks.position b) : a = b := by
  rcases Nat.lt_trichotomy a b with hlt | heq | hlt
  · exact absurd (h ▸ breaks.before_of_lt hlt) (Position.Before.irrefl _)
  · exact heq
  · exact absurd (h ▸ breaks.before_of_lt hlt) (Position.Before.irrefl _)

/-- Columns begin with one. -/
theorem one_le_column (breaks : LineBreaks) (offset : Nat) :
    1 ≤ (breaks.position offset).column := by
  have hlt := breaks.lineStart_lt offset
  rw [column_position]
  split <;> omega

/-! ### Words of 32 bits -/

/-- The difference of two words, unless it falls below zero. -/
def difference32? (a b : Nat) : Option Nat := if b ≤ a then some (a - b) else none

/-- The sum of two words, unless it is too great for a word of 32 bits. -/
def sum32? (a b : Nat) : Option Nat := if a + b < UInt32.size then some (a + b) else none

/-- The last of so many first line breaks; the beginning of the source if these are none. -/
def lastOf? (breaks : LineBreaks) : Nat → Option Nat
  | 0 => some 0
  | count + 1 => breaks.offsets[count]?

/-- The position of an offset in words of 32 bits, given how many line breaks come before it. -/
def reckon32? (breaks : LineBreaks) (offset count : Nat) : Option Position := do
  let line ← sum32? count 1
  let lineStart ← breaks.lastOf? count
  let distance ← difference32? offset lineStart
  let column ← sum32? distance (if lineStart = 0 then 1 else 0)
  return ⟨line, column⟩

/-- There are no more line breaks before an offset than bytes. -/
theorem length_before_le (h : breaks.offsets.Pairwise (· < ·)) (offset : Nat) :
    (breaks.before offset).length ≤ offset := by
  have hnodup : (breaks.before offset).Nodup :=
    (h.sublist (List.takeWhile_sublist _)).imp Nat.ne_of_lt
  have hsubset : breaks.before offset ⊆ List.range offset :=
    fun o ho => List.mem_range.2 (lt_of_mem_before ho)
  have hle := (List.subperm_of_subset hnodup hsubset).length_le
  rwa [List.length_range] at hle

/-- The last line break before an offset stands where their number says. -/
theorem lastOf?_length_before (breaks : LineBreaks) (offset : Nat) :
    breaks.lastOf? (breaks.before offset).length = some (breaks.lineStart offset) := by
  rw [lineStart, List.getLast?_eq_getElem?]
  rcases hlength : (breaks.before offset).length with _ | k
  · rw [List.length_eq_zero_iff.1 hlength]
    rfl
  · have hlt : k < (breaks.before offset).length := by omega
    rw [lastOf?, Nat.add_sub_cancel, List.getElem?_eq_getElem hlt, Option.getD_some]
    exact List.prefix_iff_getElem?.1 (List.takeWhile_prefix _) k hlt

/-- In words of 32 bits the same position is found, if the offset is not the greatest word. -/
theorem reckon32?_eq_some (h : breaks.offsets.Pairwise (· < ·)) (ho : offset < UInt32.size - 1)
    (hcount : breaks.Splits offset count) :
    breaks.reckon32? offset count = some (breaks.position offset) := by
  obtain rfl := hcount.unique (splits_length_before h offset)
  have hlength := length_before_le h offset
  have hstart := breaks.lineStart_lt offset
  have hwords : UInt32.size = 4294967296 := rfl
  have hline : sum32? (breaks.before offset).length 1 = some (breaks.position offset).line :=
    if_pos (by omega)
  have hdistance : difference32? offset (breaks.lineStart offset) =
      some (offset - breaks.lineStart offset) := if_pos (by omega)
  have hcolumn : sum32? (offset - breaks.lineStart offset)
      (if breaks.lineStart offset = 0 then 1 else 0) = some (breaks.position offset).column := by
    rw [column_position, sum32?]
    by_cases hzero : breaks.lineStart offset = 0
    · rw [if_pos hzero, if_pos hzero, if_pos (by omega), hzero, Nat.sub_zero]
    · rw [if_neg hzero, if_neg hzero, if_pos (by omega), Nat.add_zero]
  rw [reckon32?, hline, lastOf?_length_before]
  simp only [Option.bind_eq_bind, Option.bind_some, hdistance, hcolumn]
  rfl

/-! ### Together -/

/-- Whatever offsets are noted, the line breaks are in increasing order, and they are the offsets that
exceeded all earlier ones. With them a greater offset has a later position, and no two offsets have
the same one. Lines and columns begin at one, the number of a line is one more than that of the line
breaks before the offset, and this is what any search for the last of these finds. The position is
then found in words of 32 bits, with no difference below zero and no sum too great for a word, if the
offset is less than the greatest word. -/
theorem position_determines_offset (pushed : List Nat) :
    let breaks : LineBreaks := noted pushed
    (breaks.offsets.Pairwise (· < ·) ∧
      ∀ offset, offset ∈ breaks.offsets ↔
        ∃ earlier later, pushed = earlier ++ offset :: later ∧ ∀ e ∈ earlier, e < offset) ∧
    (∀ a b, a < b → (breaks.position a).Before (breaks.position b)) ∧
    (∀ a b, breaks.position a = breaks.position b → a = b) ∧
    ∀ offset, 1 ≤ (breaks.position offset).line ∧ 1 ≤ (breaks.position offset).column ∧
      (breaks.position offset).line = 1 + breaks.offsets.countP (· < offset) ∧
      (∀ count, breaks.Splits offset count ↔ count + 1 = (breaks.position offset).line) ∧
      (offset < UInt32.size - 1 → ∀ count, breaks.Splits offset count →
        breaks.reckon32? offset count = some (breaks.position offset)) := by
  intro breaks
  have hpairwise : breaks.offsets.Pairwise (· < ·) := pairwise_noted pushed
  refine ⟨⟨hpairwise, fun offset => mem_noted_iff⟩, fun a b => breaks.before_of_lt,
    fun a b => breaks.position_injective, fun offset => ⟨Nat.le_add_left _ _,
      breaks.one_le_column offset, ?_, fun count => splits_iff hpairwise offset,
      fun ho count => reckon32?_eq_some hpairwise ho⟩⟩
  rw [countP_eq_length_before hpairwise, Nat.add_comm]
  rfl

/-- Offsets that are noted out of order and twice, the first of them at the beginning. From the first
line to the second the column goes on, and from the second line to the third it begins again. -/
theorem position_determines_offset_out_of_order :
    let breaks := noted [0, 5, 3, 5, 9]
    breaks.offsets = [0, 5, 9] ∧
      (¬ ∃ earlier later, [0, 5, 3, 5, 9] = earlier ++ 3 :: later ∧ ∀ e ∈ earlier, e < 3) ∧
      breaks.position 5 = ⟨2, 6⟩ ∧ breaks.position 6 = ⟨3, 1⟩ ∧
      (breaks.position 5).Before (breaks.position 6) ∧
      breaks.Splits 6 2 ∧ breaks.reckon32? 6 2 = some ⟨3, 1⟩ := by
  intro breaks
  obtain ⟨⟨-, hmem⟩, horder, -, hfound⟩ := position_determines_offset [0, 5, 3, 5, 9]
  obtain ⟨-, -, -, hsplits, hreckon⟩ := hfound 6
  have hsplit : breaks.Splits 6 2 := (hsplits 2).2 (by decide)
  exact ⟨by decide, fun h => absurd ((hmem 3).2 h) (by decide), by decide, by decide,
    horder 5 6 (by decide), hsplit, hreckon (by decide) 2 hsplit⟩

end LineBreaks

end PioFrontEnd
