/-!
# Line breaks and positions

Offsets are exact but hard to read, so a diagnostic names a line and a column. The offsets of the
line breaks met so far are kept in increasing order, and `LineBreaks.position` finds an offset
among them.

Columns are counted from the preceding line break itself, so the character right after a break
has column one. The first line has no break before it, and its columns are counted from one as
well. A break at the very beginning of the source counts as the beginning of the source, not as a
break: the columns of the line after it are one higher than those of later lines. A line break
belongs to the line that it ends.

* `pairwise_push`: line breaks are kept in increasing order, whatever offsets are noted.
-/

namespace PioFrontEnd

/-- A place in a source as a reader finds it. Both numbers begin at one. -/
structure Position where
  /-- The number of the line. -/
  line : Nat
  /-- The place in the line, in bytes. -/
  column : Nat
  deriving DecidableEq, Repr

/-- The offsets of the line breaks that have been met, in increasing order. -/
structure LineBreaks where
  /-- The offsets. -/
  offsets : List Nat := []
  deriving DecidableEq, Repr

namespace LineBreaks

/-- Notes a line break; one that does not lie after all earlier ones is already known. -/
def push (breaks : LineBreaks) (offset : Nat) : LineBreaks :=
  if breaks.offsets.getLast?.all (· < offset) then ⟨breaks.offsets ++ [offset]⟩ else breaks

/-- The line breaks before an offset. -/
def before (breaks : LineBreaks) (offset : Nat) : List Nat :=
  breaks.offsets.takeWhile (· < offset)

/-- The line and column of an offset. -/
def position (breaks : LineBreaks) (offset : Nat) : Position :=
  let earlier := breaks.before offset
  let lineStart := earlier.getLast?.getD 0
  { line := earlier.length + 1
    column := if lineStart = 0 then offset + 1 else offset - lineStart }

/-- Line breaks stay in increasing order. -/
theorem pairwise_push {breaks : LineBreaks} (h : breaks.offsets.Pairwise (· < ·)) (offset : Nat) :
    (breaks.push offset).offsets.Pairwise (· < ·) := by
  unfold push
  split
  · rename_i hlast
    rw [List.pairwise_append]
    refine ⟨h, by simp, fun a ha b hb => ?_⟩
    obtain rfl := List.mem_singleton.1 hb
    obtain ⟨earlier, last, he⟩ := (List.eq_nil_or_concat breaks.offsets).resolve_left
      (List.ne_nil_of_mem ha)
    rw [he, List.concat_eq_append] at ha h hlast
    have hlt : last < b := by simpa using hlast
    rcases List.mem_append.1 ha with ha | ha
    · exact Nat.lt_trans ((List.pairwise_append.1 h).2.2 a ha last (by simp)) hlt
    · rw [List.mem_singleton.1 ha]
      exact hlt
  · exact h

end LineBreaks

end PioFrontEnd
