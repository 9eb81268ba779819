import PioFrontEnd.Proofs.ByName.Simulation
import PioFrontEnd.Proofs.ByName.Texts
import PioFrontEnd.Proofs.PhysicalLines
import PioFrontEnd.Proofs.Token.Composition

/-!
# What is left when wrong lines are passed over

A source in which something is wrong can still be read by name up to its end, if each line that is
wrong is passed over and what is wrong with it is noted (`Salvage`). The lines that are taken make a
listing, the same one as if the others had been empty.

The argument goes line by line, as a reader counts lines. A physical line holds one logical line at
most, so either it is taken and nothing is noted, or its number is noted and the listing stays as it
is. Neither depends on where the line stands.

* `Salvage.ofText_append_lineBreak`: one line more.
* `Salvage.takeText_withoutLines`: the source without the lines that were noted is taken, and makes
  the same listing.
-/

namespace PioFrontEnd

/-! ### Faults lie within the source -/

namespace Listing

variable {l : Listing Text} {fault : Fault}

/-- What is wrong with a line is reported at a token of it, or at its end. -/
theorem within_of_takeLine {line : Line} (h : l.takeLine line = .error fault) :
    fault.Within line := by
  unfold takeLine at h
  split at h
  · rename_i hread
    cases h
    exact Statement.within_of_read hread
  · rename_i statement hread
    rcases hobey : l.obey statement with cause | l'
    · rw [hobey, mapError_error] at h
      cases h
      exact ⟨_, line.peek_mem_all, rfl⟩
    · rw [hobey, mapError_ok] at h
      cases h

/-- What is wrong with lines that are left in a source lies within the source. -/
theorem offset_le_of_takeLines {source : Text} {s : TokenStream} (hat : s.At source)
    (h : l.takeLines s.lines = .error fault) : fault.offset ≤ Text.byteSize source := by
  fun_induction TokenStream.lines s generalizing l with
  | case1 s s' hnext => cases h
  | case2 s item s' hnext ih =>
    obtain ⟨hat', hsite⟩ := hat.of_nextLine hnext
    have hend : s'.offset ≤ Text.byteSize source := by
      obtain ⟨passed, happend, hoffset, -⟩ := hat'
      rw [hoffset, ← happend, Text.byteSize_append]
      exact Nat.le_add_right _ _
    rcases item with fault' | line
    · cases h
      exact Nat.le_trans (hsite _ (.inl rfl)) hend
    · rw [takeLines] at h
      rcases htake : l.takeLine line with fault' | l₁
      · rw [htake] at h
        cases h
        exact Nat.le_trans (hsite _ (.inr ⟨line, rfl, within_of_takeLine htake⟩)) hend
      · rw [htake] at h
        exact ih hat' h

/-- What is wrong with a text lies within it. -/
theorem offset_le_of_takeText {text : Text} (h : l.takeText text = .error fault) :
    fault.offset ≤ Text.byteSize text :=
  offset_le_of_takeLines (TokenStream.At.ofText text) h

end Listing

/-! ### Passing over lines -/

/-- What the lines of a source make if those that are wrong are passed over. -/
structure Salvage where
  /-- The listing that the other lines make. -/
  listing : Listing Text := {}
  /-- What is wrong, in order. -/
  faults : List Fault := []

namespace Salvage

/-- Goes on with what has been made of the listing, or notes why nothing has. -/
def absorb (s : Salvage) : Except Fault (Listing Text) → Salvage
  | .ok l => { s with listing := l }
  | .error fault => { s with faults := s.faults ++ [fault] }

/-- Takes a line, or passes over it. -/
def step (s : Salvage) (item : Except Fault Line) : Salvage :=
  s.absorb (item.bind s.listing.takeLine)

/-- Takes the lines that nothing is wrong with. -/
def takeLines (s : Salvage) (lines : List (Except Fault Line)) : Salvage := lines.foldl step s

/-- What is left of a source. -/
def ofText (source : Text) : Salvage := takeLines {} (TokenStream.ofText source).lines

/-- Lines are passed one after another, the first one first. -/
theorem takeLines_cons (s : Salvage) (item : Except Fault Line)
    (lines : List (Except Fault Line)) :
    s.takeLines (item :: lines) = (s.step item).takeLines lines := rfl

/-- A line that has been moved on is taken or passed over as it was. -/
theorem step_movedLine (s : Salvage) (n : Nat) (item : Except Fault Line) :
    s.step (movedLine n item) =
      s.absorb ((item.bind s.listing.takeLine).mapError (Fault.moved n)) := by
  rcases item with fault | line
  · rfl
  · have hplaced : line.Placed (· + n) ⟨line.tokens.map (Token.moved n), line.stop.moved n⟩ :=
      ⟨rfl, .inl rfl⟩
    exact congrArg s.absorb (s.listing.takeLine_placed hplaced)

/-- The lines of a text that goes on are those of its first part and then the later ones, if nothing
ends the text early. -/
theorem takeLines_splice {items : List (Except Fault Token)} (h : Ended items)
    (hclean : ∀ fault, .error fault ∉ items) (s : Salvage) (later : List (Except Fault Token)) :
    s.takeLines (linesOf [] (splice later true items)) =
      (s.takeLines (linesOf [] items)).takeLines (linesOf [] later) :=
  foldl_linesOf_splice
    (fun s tokens _ hstop => congrArg s.absorb (s.listing.takeLine_lineBreak tokens hstop)) h
    (fun fault hmem => absurd hmem (hclean fault)) s [] later

end Salvage

/-! ### A text without line breaks -/

namespace Salvage

variable {line : Text}

/-- What is passed over in a source depends on what is drawn from it alone. -/
theorem ofText_eq (source : Text) : ofText source = takeLines {} (linesOf [] (tokenize source)) := by
  rw [ofText, TokenStream.lines_eq_linesOf]
  rfl

/-- A text without line breaks is taken or passed over as a whole, wherever it stands. -/
theorem takeLines_of_not_mem (s : Salvage) (n : Nat) (h : '\n' ∉ line) :
    s.takeLines (linesOf [] ((tokenize line).map (movedItem n))) =
      s.absorb ((s.listing.takeText line).mapError (Fault.moved n)) := by
  have hmoved := linesOf_movedItem n [] (tokenize line)
  rw [List.map_nil] at hmoved
  have hlines : linesOf [] (tokenize line) = [] ∨ ∃ item, linesOf [] (tokenize line) = [item] :=
    linesOf_of_kind_ne_endOfLine ((TokenStream.ofText line).ended_items rfl)
      ((TokenStream.ofText line).kind_ne_endOfLine h) []
  rw [hmoved, Listing.takeText, TokenStream.lines_eq_linesOf]
  change _ = s.absorb ((s.listing.takeLines (linesOf [] (tokenize line))).mapError _)
  rcases hlines with hnone | ⟨item, hone⟩
  · rw [hnone]
    rfl
  · rw [hone, List.map_singleton]
    show s.step (movedLine n item) = _
    rw [step_movedLine]
    rcases item with fault | line
    · rfl
    · rw [Listing.takeLines]
      show s.absorb ((s.listing.takeLine line).mapError _) = _
      rcases s.listing.takeLine line with fault | l <;> rfl

/-- What is left of one line. -/
theorem ofText_of_not_mem (h : '\n' ∉ line) :
    ofText line = absorb {} (({} : Listing Text).takeText line) := by
  have hitems : (tokenize line).map (movedItem 0) = tokenize line :=
    List.map_id'' (fun item => by rcases item with fault | token <;> rfl) _
  have hlines := takeLines_of_not_mem {} 0 h
  rw [hitems, ← ofText_eq] at hlines
  rw [hlines]
  rcases ({} : Listing Text).takeText line with fault | l <;> rfl

/-- Nothing in a text ends it early if nothing does once it goes on. -/
theorem clean_of_append {s t : Text}
    (hclean : ∀ fault, .error fault ∉ tokenize (s ++ '\n' :: t)) :
    ∀ fault, .error fault ∉ tokenize s := by
  obtain ⟨tokens, final, htokens, hkinds, rfl | ⟨fault, rfl, -⟩⟩ := exists_tokenize_eq s
  · rw [htokens]
    simp
  · rw [tokenize_eq_splice, htokens, splice_of_fault hkinds] at hclean
    exact absurd (List.mem_append_right _ (List.mem_singleton_self _)) (hclean fault)

/-- What is left of a text and one line more. -/
theorem ofText_append_lineBreak {t : Text}
    (hclean : ∀ fault, .error fault ∉ tokenize (t ++ '\n' :: line)) (h : '\n' ∉ line) :
    ofText (t ++ '\n' :: line) = (ofText t).absorb (((ofText t).listing.takeText line).mapError
      (Fault.moved (Text.byteSize t + 1))) := by
  have hended : Ended (tokenize t) := (TokenStream.ofText t).ended_items rfl
  rw [ofText_eq, tokenize_eq_splice]
  show takeLines {} (linesOf [] (splice _ true (tokenize t))) = _
  rw [takeLines_splice hended (clean_of_append hclean), ← ofText_eq, takeLines_of_not_mem _ _ h]

end Salvage

/-! ### Lines that are emptied -/

/-- The number of the line in which a fault lies. -/
def Fault.lineIn (source : Text) (fault : Fault) : Nat :=
  ((LineBreaks.ofText source).position fault.offset).line

namespace Salvage

variable {t line : Text} {n : Nat}

/-- What is wrong with lines of a source lies within the source. -/
theorem offset_le_of_mem_faults (hclean : ∀ fault, .error fault ∉ tokenize t) :
    ∀ fault ∈ (ofText t).faults, fault.offset ≤ Text.byteSize t := by
  induction t using Text.linewise with
  | one line hline =>
    rw [ofText_of_not_mem hline]
    rcases htake : ({} : Listing Text).takeText line with fault | l
    · exact List.forall_mem_singleton.2 (Listing.offset_le_of_takeText htake)
    · exact fun _ hmem => absurd hmem List.not_mem_nil
  | more t line hline ih =>
    have hsize := Text.byteSize_append_lineBreak t line
    have hbefore : ∀ fault ∈ (ofText t).faults,
        fault.offset ≤ Text.byteSize (t ++ '\n' :: line) := by
      intro fault hmem
      have := ih (clean_of_append hclean) fault hmem
      omega
    rw [ofText_append_lineBreak hclean hline]
    rcases htake : (ofText t).listing.takeText line with fault | l
    · refine List.forall_mem_append.2 ⟨hbefore, List.forall_mem_singleton.2 ?_⟩
      rw [hsize]
      exact Nat.add_le_add_right (Listing.offset_le_of_takeText htake) _
    · exact hbefore

/-- The numbers of the lines that are passed over. -/
def numbers (t : Text) : List Nat := (ofText t).faults.map (Fault.lineIn t)

/-- Only lines that are there are noted as wrong. -/
theorem le_length_of_mem_numbers (h : n ∈ numbers t) : n ≤ (t.splitOn '\n').length := by
  obtain ⟨fault, -, rfl⟩ := List.mem_map.1 h
  exact LineBreaks.line_position_le t fault.offset

section More

variable (hclean : ∀ fault, .error fault ∉ tokenize (t ++ '\n' :: line)) (hline : '\n' ∉ line)

include hclean

/-- Lines keep their numbers when one line more comes. -/
theorem map_lineIn_append :
    (ofText t).faults.map (Fault.lineIn (t ++ '\n' :: line)) = numbers t := by
  refine List.map_congr_left fun fault hmem => ?_
  have hle := offset_le_of_mem_faults (clean_of_append hclean) fault hmem
  exact congrArg Position.line (LineBreaks.position_ofText_append hle _)

include hline

/-- One line more that is taken leaves the numbers of the wrong lines as they are. -/
theorem numbers_of_taken {l : Listing Text} (h : (ofText t).listing.takeText line = .ok l) :
    numbers (t ++ '\n' :: line) = numbers t := by
  rw [numbers, ofText_append_lineBreak hclean hline, h, ← map_lineIn_append hclean]
  rfl

/-- The last line has the number of lines as its number. -/
theorem numbers_of_refused {fault : Fault}
    (h : (ofText t).listing.takeText line = .error fault) :
    numbers (t ++ '\n' :: line) = numbers t ++ [(t.splitOn '\n').length + 1] := by
  have hnumber : (fault.moved (Text.byteSize t + 1)).lineIn (t ++ '\n' :: line) =
      (t.splitOn '\n').length + 1 :=
    LineBreaks.line_position_append_lineBreak hline t (Nat.le_add_left _ _)
  rw [numbers, ofText_append_lineBreak hclean hline, h, ← map_lineIn_append hclean, ← hnumber]
  exact List.map_append

end More

/-- What is left of a source is what the source makes without the lines that are passed over. -/
theorem takeText_withoutLines (hclean : ∀ fault, .error fault ∉ tokenize t) :
    ({} : Listing Text).takeText (t.withoutLines (numbers t)) = .ok (ofText t).listing := by
  induction t using Text.linewise with
  | one line hline =>
    rw [Text.withoutLines_of_not_mem hline, numbers, ofText_of_not_mem hline]
    rcases htake : ({} : Listing Text).takeText line with fault | l
    · have hnumber : fault.lineIn line = 1 := by
        rw [Fault.lineIn, LineBreaks.ofText, LineBreaks.offsetsFrom_of_not_mem hline]
        rfl
      have hmem : 1 ∈ (absorb {} (.error fault)).faults.map (Fault.lineIn line) :=
        List.mem_map.2 ⟨fault, List.mem_singleton_self _, hnumber⟩
      rw [if_pos hmem]
      exact Listing.takeText_nil _
    · have hnot : 1 ∉ (absorb {} (.ok l)).faults.map (Fault.lineIn line) := List.not_mem_nil
      rw [if_neg hnot, htake]
      rfl
  | more t line hline ih =>
    have htaken := ih (clean_of_append hclean)
    rw [Text.withoutLines_append_lineBreak hline, Listing.takeText_append_lineBreak,
      ofText_append_lineBreak hclean hline]
    rcases htake : (ofText t).listing.takeText line with fault | l
    · -- the number that is added empties the last line and no other one
      have hothers : t.withoutLines (numbers t ++ [(t.splitOn '\n').length + 1]) =
          t.withoutLines (numbers t) := by
        refine Text.withoutLines_congr fun n hn => ?_
        rw [List.mem_append, List.mem_singleton]
        exact or_iff_left (by omega)
      rw [numbers_of_refused hclean hline htake, hothers, htaken,
        if_pos (List.mem_append_right _ (List.mem_singleton_self _))]
      show ((ofText t).listing.takeText []).mapError _ = _
      rw [Listing.takeText_nil]
      rfl
    · have hkept : (t.splitOn '\n').length + 1 ∉ numbers t := fun hmem =>
        Nat.not_succ_le_self _ (le_length_of_mem_numbers hmem)
      rw [numbers_of_taken hclean hline htake, htaken, if_neg hkept]
      show ((ofText t).listing.takeText line).mapError _ = _
      rw [htake]
      rfl

end Salvage

end PioFrontEnd
