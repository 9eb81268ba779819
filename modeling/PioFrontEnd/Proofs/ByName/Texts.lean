import PioFrontEnd.Proofs.ByName.Relocation

/-!
# Texts that are taken one after another

What the lines of a text make of a listing depends on nothing but the listing and the text. So a
source that is made of two texts with a line break between them is taken one text at a time: the
first text, and if nothing is wrong with it, the second one, as if it stood alone. What is wrong
with the second text is found where it stands in the whole source.

* `Listing.takeText_append_lineBreak`: two texts with a line break between them.
* `Listing.takeText_append`: two texts, the first of which ends with a line break.
-/

namespace PioFrontEnd

/-! ### Complete lines -/

/-- Whether a text is made of complete lines: it is empty or ends with a line break. -/
def Text.IsComplete (t : Text) : Prop := t.getLast?.all (· = '\n') = true

instance (t : Text) : Decidable t.IsComplete :=
  inferInstanceAs (Decidable (t.getLast?.all (· = '\n') = true))

/-- A text is made of complete lines exactly if it is empty or ends with a line break. -/
theorem Text.isComplete_iff {t : Text} : t.IsComplete ↔ t = [] ∨ ∃ u, t = u ++ ['\n'] := by
  rcases List.eq_nil_or_concat t with rfl | ⟨u, c, rfl⟩
  · simp [IsComplete]
  · simp [IsComplete]

/-- Complete lines below another line are complete lines with it. -/
theorem Text.IsComplete.below {t : Text} (h : t.IsComplete) (line : Text) :
    IsComplete (line ++ '\n' :: t) := by
  rcases isComplete_iff.1 h with rfl | ⟨u, rfl⟩
  · exact isComplete_iff.2 (.inr ⟨line, rfl⟩)
  · exact isComplete_iff.2 (.inr ⟨line ++ '\n' :: u, by simp⟩)

/-- A line break between two texts counts for one byte. -/
theorem Text.byteSize_append_lineBreak (s t : Text) :
    byteSize (s ++ '\n' :: t) = byteSize t + (byteSize s + 1) := by
  rw [byteSize_append, byteSize_cons, show '\n'.utf8Size = 1 from rfl]
  omega

/-! ### Lines that are taken -/

namespace Listing

variable {n : Nat}

/-- Lines make the same of a listing wherever they stand. -/
theorem takeLines_movedLine (l : Listing Text) (lines : List (Except Fault Line)) :
    l.takeLines (lines.map (movedLine n)) = (l.takeLines lines).mapError (Fault.moved n) :=
  l.takeLines_placedLine (g := (· + n)) lines

/-- A line may end with a line break where it ended with the source. -/
theorem takeLine_lineBreak (l : Listing Text) (tokens : List Token) {stop : Token}
    (hstop : stop.kind = .endOfFile) :
    l.takeLine ⟨tokens, stop.lineBreak⟩ = l.takeLine ⟨tokens, stop⟩ := by
  have hplaced : Line.Placed id ⟨tokens, stop⟩ ⟨tokens, stop.lineBreak⟩ :=
    ⟨List.map_id tokens |>.symm, .inr ⟨.inr hstop, .inl rfl, rfl⟩⟩
  rw [l.takeLine_placed hplaced]
  rcases l.takeLine ⟨tokens, stop⟩ with fault | l' <;> rfl

/-- Takes the next line, if all lines before have been taken. -/
def takeNext (outcome : Except Fault (Listing Text)) (item : Except Fault Line) :
    Except Fault (Listing Text) :=
  outcome.bind fun l => item.bind l.takeLine

/-- After a fault no line changes anything. -/
theorem foldl_takeNext_error (fault : Fault) (lines : List (Except Fault Line)) :
    lines.foldl takeNext (.error fault) = .error fault := by
  induction lines with
  | nil => rfl
  | cons line lines ih => exact ih

/-- Taking lines is taking the next one again and again. -/
theorem takeLines_eq_foldl (l : Listing Text) (lines : List (Except Fault Line)) :
    l.takeLines lines = lines.foldl takeNext (.ok l) := by
  induction lines generalizing l with
  | nil => rfl
  | cons line lines ih =>
    rcases line with fault | line
    · exact (foldl_takeNext_error fault lines).symm
    · show _ = lines.foldl takeNext (l.takeLine line)
      rw [takeLines]
      rcases l.takeLine line with fault | l'
      · exact (foldl_takeNext_error fault lines).symm
      · exact ih l'

/-- The lines of a text that goes on are those of its first part and then the later ones. -/
theorem takeLines_splice {items : List (Except Fault Token)} (h : Ended items)
    (l : Listing Text) (later : List (Except Fault Token)) :
    l.takeLines (linesOf [] (splice later true items)) =
      (l.takeLines (linesOf [] items)).bind (·.takeLines (linesOf [] later)) := by
  have hbreak : ∀ (outcome : Except Fault (Listing Text)) (tokens : List Token) (stop : Token),
      stop.kind = .endOfFile → takeNext outcome (.ok ⟨tokens, stop.lineBreak⟩) =
        takeNext outcome (.ok ⟨tokens, stop⟩) := by
    intro outcome tokens stop hstop
    rcases outcome with fault | l
    · rfl
    · exact l.takeLine_lineBreak tokens hstop
  have hfault : ∀ (fault : Fault) (outcome : Except Fault (Listing Text))
      (lines : List (Except Fault Line)), lines.foldl takeNext (takeNext outcome (.error fault)) =
        takeNext outcome (.error fault) := by
    intro fault outcome lines
    rcases outcome with fault' | l <;> exact foldl_takeNext_error _ lines
  have hfold := foldl_linesOf_splice hbreak h (fun fault _ => hfault fault) (.ok l) [] later
  rw [← takeLines_eq_foldl, ← takeLines_eq_foldl] at hfold
  rw [show splice later true items = splice later ([] : List Token).isEmpty items from rfl, hfold]
  rcases l.takeLines (linesOf [] items) with fault | l'
  · exact foldl_takeNext_error fault _
  · exact (takeLines_eq_foldl l' _).symm

/-! ### Texts that are taken -/

/-- Takes the lines of a text. -/
def takeText (l : Listing Text) (text : Text) : Except Fault (Listing Text) :=
  l.takeLines (TokenStream.ofText text).lines

/-- An empty text adds nothing. -/
theorem takeText_nil (l : Listing Text) : l.takeText [] = .ok l := by
  rw [takeText, TokenStream.lines_eq_linesOf,
    TokenStream.items_of_some (TokenStream.next?_of_ending rfl rfl), TokenStream.items_close]
  rfl

/-- Two texts with a line break between them are taken one after the other. -/
theorem takeText_append_lineBreak (l : Listing Text) (s t : Text) :
    l.takeText (s ++ '\n' :: t) = (l.takeText s).bind fun l' =>
      (l'.takeText t).mapError (Fault.moved (Text.byteSize s + 1)) := by
  have hitems := TokenStream.items_before (.ofText s) t rfl
  rw [show (TokenStream.ofText s).before ('\n' :: t) = .ofText (s ++ '\n' :: t) from rfl] at hitems
  simp only [takeText, TokenStream.lines_eq_linesOf, hitems]
  show l.takeLines (linesOf [] (splice _ true _)) = _
  rw [takeLines_splice ((TokenStream.ofText s).ended_items rfl)]
  congr 1
  funext l'
  have hlines := linesOf_movedItem (Text.byteSize s + 1) [] (TokenStream.ofText t).items
  rw [List.map_nil] at hlines
  rw [← takeLines_movedLine, ← hlines]
  show l'.takeLines (linesOf [] (List.map (movedItem (0 + _ + 1)) _)) = _
  rw [Nat.zero_add]
  rfl

/-- A line break at its end makes no difference to a text. -/
theorem takeText_lineBreak (l : Listing Text) (s : Text) :
    l.takeText (s ++ ['\n']) = l.takeText s := by
  rw [takeText_append_lineBreak]
  rcases l.takeText s with fault | l'
  · rfl
  · simp only [Except.bind, takeText_nil, mapError_ok]

/-- Two texts, the first of which has complete lines, are taken one after the other. -/
theorem takeText_append (l : Listing Text) {s : Text} (hs : s.IsComplete) (t : Text) :
    l.takeText (s ++ t) = (l.takeText s).bind fun l' =>
      (l'.takeText t).mapError (Fault.moved (Text.byteSize s)) := by
  rcases Text.isComplete_iff.1 hs with rfl | ⟨u, rfl⟩
  · rw [takeText_nil]
    show l.takeText t = (l.takeText t).mapError (Fault.moved 0)
    rcases l.takeText t with fault | l' <;> rfl
  · rw [List.append_assoc, List.singleton_append, takeText_append_lineBreak, takeText_lineBreak,
      Text.byteSize_append]
    rfl

/-- A text is taken exactly if its complete lines are, and then the rest. -/
theorem takeText_append_eq_ok {l l' : Listing Text} {s : Text} (hs : s.IsComplete) (t : Text) :
    l.takeText (s ++ t) = .ok l' ↔ ∃ l₁, l.takeText s = .ok l₁ ∧ l₁.takeText t = .ok l' := by
  rw [takeText_append l hs]
  rcases l.takeText s with fault | l₁
  · simp [Except.bind]
  · show (l₁.takeText t).mapError _ = .ok l' ↔ _
    rcases ht : l₁.takeText t with fault | l₂ <;> simp [mapError_ok, mapError_error, ht]

end Listing

end PioFrontEnd
