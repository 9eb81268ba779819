import Mathlib.Data.List.Induction
import Mathlib.Data.List.TakeWhile
import PioFrontEnd.Proofs.Token.Positions

/-!
# The lines of a text

A text of any kind is made of lines, as a reader counts them: what stands between its line breaks.
There is one line more than there are line breaks, and an offset after the last break lies in the
last line.

* `Text.linewise`: a text has one line, or it is a shorter text and one line more.
* `Text.withoutLines`: the text with some of its lines emptied, which leaves the numbers of the
  others as they are.
* `LineBreaks.line_position_append_lineBreak`, `LineBreaks.line_position_le`: the line in which an
  offset lies.
-/

namespace PioFrontEnd

namespace Text

variable {t line : Text} {lines : List Text}

/-- No line of a text holds a line break. -/
theorem not_mem_of_mem_splitOn (h : line ∈ t.splitOn '\n') : '\n' ∉ line := by
  induction t generalizing line with
  | nil =>
    rw [List.mem_singleton.1 h]
    exact List.not_mem_nil
  | cons c t ih =>
    rw [List.splitOn_cons_eq_if_modifyHead] at h
    split at h
    · rcases List.mem_cons.1 h with rfl | hmem
      · exact List.not_mem_nil
      · exact ih hmem
    · rename_i hc
      rcases hsplit : t.splitOn '\n' with _ | ⟨first, others⟩
      · rw [hsplit] at h
        cases h
      · rw [hsplit] at h ih
        rcases List.mem_cons.1 h with rfl | hmem
        · intro hbreak
          rcases List.mem_cons.1 hbreak with heq | hmem
          · simp [← heq] at hc
          · exact ih List.mem_cons_self hmem
        · exact ih (List.mem_cons_of_mem _ hmem)

/-- The last of several lines comes after a line break. -/
theorem intercalate_concat (h : lines ≠ []) (line : Text) :
    ['\n'].intercalate (lines ++ [line]) = ['\n'].intercalate lines ++ '\n' :: line := by
  induction lines with
  | nil => exact absurd rfl h
  | cons first lines ih =>
    rcases lines with _ | ⟨second, lines⟩
    · simp [List.intercalate_cons_cons]
    · rw [List.cons_append, List.cons_append, List.intercalate_cons_cons, ← List.cons_append,
        ih (List.cons_ne_nil _ _), List.intercalate_cons_cons]
      simp

/-- What follows a line break, up to the end of the text, is one line more. -/
theorem splitOn_append_lineBreak (h : '\n' ∉ line) (t : Text) :
    (t ++ '\n' :: line).splitOn '\n' = t.splitOn '\n' ++ [line] := by
  rw [List.splitOn_append_cons_self, List.splitOn_eq_singleton h]

/-- A text has one line, or it is a shorter text and one line more. -/
theorem linewise {motive : Text → Prop} (one : ∀ line, '\n' ∉ line → motive line)
    (more : ∀ t line, '\n' ∉ line → motive t → motive (t ++ '\n' :: line)) (t : Text) :
    motive t := by
  have hall : ∀ lines : List Text, (∀ line ∈ lines, '\n' ∉ line) → lines ≠ [] →
      motive (['\n'].intercalate lines) := by
    intro lines hlines hne
    induction lines using List.reverseRecOn with
    | nil => exact absurd rfl hne
    | append_singleton lines line ih =>
      obtain ⟨hbefore, hline⟩ := List.forall_mem_append.1 hlines
      rw [List.forall_mem_singleton] at hline
      rcases lines with _ | ⟨first, lines⟩
      · rw [List.nil_append, List.intercalate_singleton]
        exact one line hline
      · rw [intercalate_concat (List.cons_ne_nil _ _)]
        exact more _ line hline (ih hbefore (List.cons_ne_nil _ _))
  have hjoin : ['\n'].intercalate (t.splitOn '\n') = t := List.intercalate_splitOn '\n'
  rw [← hjoin]
  exact hall _ (fun _ => not_mem_of_mem_splitOn) (List.splitOn_ne_nil _ _)

/-- There is one line more than there are line breaks. -/
theorem length_splitOn (t : Text) (offset : Nat) :
    (t.splitOn '\n').length = (LineBreaks.offsetsFrom offset t).length + 1 := by
  induction t using linewise with
  | one line hline =>
    rw [List.splitOn_eq_singleton hline, LineBreaks.offsetsFrom_of_not_mem hline]
    rfl
  | more t line hline ih =>
    rw [splitOn_append_lineBreak hline, LineBreaks.offsetsFrom_append, LineBreaks.offsetsFrom,
      if_pos rfl, LineBreaks.offsetsFrom_of_not_mem hline, List.length_append, List.length_append,
      ih]
    rfl

/-! ### Emptying lines -/

/-- The text with the lines of these numbers emptied. The first line has number one. -/
def withoutLines (t : Text) (numbers : List Nat) : Text :=
  ['\n'].intercalate ((t.splitOn '\n').mapIdx fun i line => if i + 1 ∈ numbers then [] else line)

variable {numbers numbers' : List Nat}

/-- A text of one line is emptied if the first line is, and stays as it is otherwise. -/
theorem withoutLines_of_not_mem (h : '\n' ∉ line) (numbers : List Nat) :
    line.withoutLines numbers = if 1 ∈ numbers then [] else line := by
  rw [withoutLines, List.splitOn_eq_singleton h, List.mapIdx_singleton, List.intercalate_singleton]

/-- Of a text with one line more, the last one is emptied by its own number alone. -/
theorem withoutLines_append_lineBreak (h : '\n' ∉ line) (t : Text) (numbers : List Nat) :
    (t ++ '\n' :: line).withoutLines numbers = t.withoutLines numbers ++
      '\n' :: if (t.splitOn '\n').length + 1 ∈ numbers then [] else line := by
  have hne : (t.splitOn '\n').mapIdx (fun i line => if i + 1 ∈ numbers then [] else line) ≠ [] :=
    fun hnil => List.splitOn_ne_nil '\n' t (List.mapIdx_eq_nil_iff.1 hnil)
  rw [withoutLines, splitOn_append_lineBreak h, List.mapIdx_concat, intercalate_concat hne]
  rfl

/-- Numbers that no line has do not matter. -/
theorem withoutLines_congr (h : ∀ n ≤ (t.splitOn '\n').length, n ∈ numbers ↔ n ∈ numbers') :
    t.withoutLines numbers = t.withoutLines numbers' := by
  rw [withoutLines, withoutLines]
  refine congrArg _ (List.mapIdx_eq_mapIdx_iff.2 fun i hi => ?_)
  simp only [h (i + 1) hi]

end Text

/-! ### The line of an offset -/

namespace LineBreaks

/-- After all line breaks comes the last line. -/
theorem line_position {offsets : List Nat} {offset : Nat} (h : ∀ o ∈ offsets, o < offset) :
    (position ⟨offsets⟩ offset).line = offsets.length + 1 := by
  have htake : offsets.takeWhile (· < offset) = offsets :=
    List.takeWhile_eq_self_iff.2 fun o ho => decide_eq_true (h o ho)
  rw [position, before, htake]

/-- What lies after the last line break of a text lies in its last line. -/
theorem line_position_append_lineBreak {line : Text} (h : '\n' ∉ line) (t : Text) {offset : Nat}
    (hle : Text.byteSize t + 1 ≤ offset) :
    ((ofText (t ++ '\n' :: line)).position offset).line = (t.splitOn '\n').length + 1 := by
  rw [ofText, offsetsFrom_append, offsetsFrom, if_pos rfl, offsetsFrom_of_not_mem h, line_position,
    List.length_append, List.length_singleton, Text.length_splitOn t 0]
  intro o ho
  rcases List.mem_append.1 ho with hmem | hmem
  · have := (bounds_of_mem_offsetsFrom hmem).2
    omega
  · rw [List.mem_singleton.1 hmem]
    omega

/-- No offset lies after the last line. -/
theorem line_position_le (t : Text) (offset : Nat) :
    ((ofText t).position offset).line ≤ (t.splitOn '\n').length := by
  rw [Text.length_splitOn t 0]
  exact Nat.succ_le_succ (List.takeWhile_prefix _).length_le

end LineBreaks

end PioFrontEnd
