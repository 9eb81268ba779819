import PioFrontEnd.Text.Basic

/-!
# Spans

A span is the place of a piece of source: the byte offset where it begins and the one where it
ends. Spans are ordered by their beginning, then by their end, so that a sorted list of spans
reads from left to right.
-/

namespace PioFrontEnd

/-- The bytes from `start` up to, not including, `stop`. -/
structure Span where
  /-- The offset of the first byte. -/
  start : Nat
  /-- The offset just after the last byte. -/
  stop : Nat
  deriving DecidableEq, Repr

namespace Span

/-- Whether the first span stands before the second one, or is the same. -/
def le (a b : Span) : Bool :=
  a.start < b.start || (a.start == b.start && a.stop ≤ b.stop)

/-- The spans of a list from left to right. -/
def sorted (spans : List Span) : List Span := spans.mergeSort le

/-- The text of a span, if both its ends are ends of characters and in order. -/
def slice? (source : Text) (s : Span) : Option Text := Text.slice? source s.start s.stop

/-- A span as a pair of offsets. -/
def print (s : Span) : String := "(" ++ s.start.repr ++ ", " ++ s.stop.repr ++ ")"

/-- A list of spans, as pairs of offsets in square brackets. -/
def printAll (spans : List Span) : String :=
  "[" ++ String.intercalate ", " (spans.map print) ++ "]"

/-- Spans are in order by where they start, and those with one start by where they stop. -/
theorem le_iff {a b : Span} :
    le a b = true ↔ a.start < b.start ∨ (a.start = b.start ∧ a.stop ≤ b.stop) := by
  simp [le]

/-- The order of spans is transitive. -/
theorem le_trans {a b c : Span} (hab : le a b = true) (hbc : le b c = true) : le a c = true := by
  simp only [le_iff] at *
  omega

/-- Any two spans are in order, one way round or the other. -/
theorem le_total (a b : Span) : (le a b || le b a) = true := by
  simp only [Bool.or_eq_true, le_iff]
  omega

end Span

end PioFrontEnd
