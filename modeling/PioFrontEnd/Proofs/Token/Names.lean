import PioFrontEnd.Token.Front

/-!
# Names, keywords and digits

A name is the longest run of characters that a name may go on with, if it begins with a letter or an
underscore. Keywords are made of such characters, in either case of the ASCII letters, and end
before a character that no name goes on with. So a text has at most one keyword at its front: the
whole run, if that is spelled like a keyword and a blank, a line break or the end of the text comes
next. No order among the keywords is left to matter, although some of them begin others.

* `Keyword.leading?_eq_some_iff`: the keyword at the front of a text, by its run.
* `takeWhile_append_of_boundary`: a run is determined by what it is made of and where it ends.
-/

namespace PioFrontEnd

/-! ### Runs -/

/-- A run has no character that cannot belong to it. -/
theorem not_mem_takeWhile {p : Char → Bool} {c : Char} (h : p c = false) (s : Text) :
    c ∉ s.takeWhile p := by
  intro hmem
  have hc := List.all_eq_true.1 List.all_takeWhile c hmem
  rw [h] at hc
  cases hc

/-- A run ends before a character that cannot belong to it, or at the end of the text. -/
theorem forall_head?_dropWhile {p : Char → Bool} (s : Text) :
    ∀ c ∈ (s.dropWhile p).head?, p c = false := by
  intro c hc
  have hnot := List.head?_dropWhile_not p s
  rw [Option.mem_def.1 hc] at hnot
  simpa using hnot

/-- A run that ends before a character that cannot belong to it is taken as it is. -/
theorem takeWhile_append_of_boundary {p : Char → Bool} {s rest : Text}
    (hs : ∀ c ∈ s, p c = true) (hrest : ∀ c ∈ rest.head?, p c = false) :
    (s ++ rest).takeWhile p = s ∧ (s ++ rest).dropWhile p = rest := by
  rw [List.takeWhile_append_of_pos hs, List.dropWhile_append_of_pos hs]
  cases rest with
  | nil => simp
  | cons c rest => simp [hrest c rfl]

/-- As many characters as a run has are the run. -/
theorem take_length_takeWhile {p : Char → Bool} {s : Text} {n : Nat}
    (h : n = (s.takeWhile p).length) : s.take n = s.takeWhile p ∧ s.drop n = s.dropWhile p := by
  have htake : s.take n = s.takeWhile p := by
    rw [h]
    exact (List.prefix_iff_eq_take.1 (List.takeWhile_prefix p)).symm
  have hsplit : s.take n ++ s.drop n = s.takeWhile p ++ s.dropWhile p := by
    rw [List.take_append_drop, List.takeWhile_append_dropWhile]
  rw [htake] at hsplit
  exact ⟨htake, List.append_cancel_left hsplit⟩

/-! ### Names and keywords -/

/-- Whether a text is spelled as a name is. -/
def IsName : Text → Prop
  | [] => False
  | c :: rest => isSymbolStart c = true ∧ ∀ d ∈ rest, isSymbolPart d = true

/-- Whether a name is spelled like a keyword, in either case of the ASCII letters. -/
def IsKeyword (n : Text) : Prop := n.map Char.toLower ∈ Keyword.table.map Prod.fst

instance (n : Text) : Decidable (IsKeyword n) := inferInstanceAs (Decidable (_ ∈ _))

/-- What may begin a name may go on with it. -/
theorem isSymbolPart_of_isSymbolStart {c : Char} (h : isSymbolStart c = true) :
    isSymbolPart c = true := by
  rw [isSymbolPart, h]
  rfl

/-- A name is made of characters that a name may go on with. -/
theorem IsName.isSymbolPart {n : Text} (h : IsName n) : ∀ c ∈ n, isSymbolPart c = true := by
  cases n with
  | nil => exact h.elim
  | cons c rest =>
    intro d hd
    rcases List.mem_cons.1 hd with rfl | hd
    · exact isSymbolPart_of_isSymbolStart h.1
    · exact h.2 d hd

/-- A letter of a keyword is a letter in either case. -/
theorem isSymbolStart_of_toLower {c : Char} (h : isSymbolStart c.toLower = true) :
    isSymbolStart c = true := by
  by_cases hc : c.val ≥ 'A'.val ∧ c.val ≤ 'Z'.val
  · have hupper : c.isUpper = true := decide_eq_true hc
    have hascii : c.toNat < 0x80 := Nat.lt_of_le_of_lt (UInt32.le_iff_toNat_le.1 hc.2) (by decide)
    have halpha : c.isAlpha = (c.isUpper || c.isLower) := rfl
    have hletter : Text.isLetter c = true := by
      rw [Text.isLetter, if_pos hascii, halpha, hupper, Bool.true_or]
    rw [isSymbolStart, hletter, Bool.true_or]
  · have hsame : c.toLower = c := dif_neg hc
    rwa [hsame] at h

namespace Keyword

/-- A keyword is spelled as a name is. -/
theorem isName_of_isKeyword {n : Text} (h : IsKeyword n) : IsName n := by
  have htable : ∀ entry ∈ table, entry.1 ≠ [] ∧ entry.1.all isSymbolStart = true := by
    decide
  obtain ⟨entry, hmem, hword⟩ := List.mem_map.1 h
  obtain ⟨hne, hletters⟩ := htable entry hmem
  rw [hword] at hne hletters
  have hstart : ∀ c ∈ n, isSymbolStart c = true := fun c hc =>
    isSymbolStart_of_toLower (List.all_eq_true.1 hletters _ (List.mem_map_of_mem hc))
  cases n with
  | nil => exact absurd rfl hne
  | cons c rest =>
    exact ⟨hstart c (by simp), fun d hd =>
      isSymbolPart_of_isSymbolStart (hstart d (List.mem_cons_of_mem _ hd))⟩

/-- What ends a keyword ends a name. -/
theorem not_isSymbolPart_of_isWordEnd {c : Char} (h : isWordEnd c = true) :
    isSymbolPart c = false := by
  simp only [isWordEnd, isBlank, Bool.or_eq_true, decide_eq_true_eq] at h
  rcases h with ((rfl | rfl) | rfl) | rfl <;> decide

/-- A keyword stands at the front of a text if the longest run that a name could go on with is
spelled like it and ends where a keyword may end. -/
theorem standsAt_iff {word : Text} (hword : word ∈ table.map Prod.fst) (s : Text) :
    standsAt word s = true ↔ (s.takeWhile isSymbolPart).map Char.toLower = word ∧
      ∀ c ∈ (s.dropWhile isSymbolPart).head?, isWordEnd c = true := by
  have hends : ∀ rest : Text, rest.head?.all isWordEnd = true ↔
      ∀ c ∈ rest.head?, isWordEnd c = true := by
    intro rest
    cases rest <;> simp
  simp only [standsAt, Bool.and_eq_true, decide_eq_true_eq, hends]
  constructor
  · rintro ⟨htext, hend⟩
    have hname : IsName (s.take word.length) := isName_of_isKeyword (by rwa [IsKeyword, htext])
    obtain ⟨htake, hdrop⟩ := takeWhile_append_of_boundary hname.isSymbolPart
      fun c hc => not_isSymbolPart_of_isWordEnd (hend c hc)
    rw [List.take_append_drop] at htake hdrop
    rw [htake, hdrop]
    exact ⟨htext, hend⟩
  · rintro ⟨rfl, hend⟩
    obtain ⟨htake, hdrop⟩ := take_length_takeWhile (s := s) (List.length_map Char.toLower)
    rw [htake, hdrop]
    exact ⟨rfl, hend⟩

/-- The keyword that is found is one of the table and stands there. -/
theorem found_of_leading? {s : Text} {entry : Text × TokenKind} (h : leading? s = some entry) :
    entry ∈ table ∧ standsAt entry.1 s = true := by
  unfold leading? at h
  have hstands := List.find?_some h
  exact ⟨List.mem_of_find?_eq_some h, hstands⟩

/-- The keyword that a text begins with, if it does, is spelled by the longest run that a name could
go on with. -/
theorem leading?_eq_some_iff {word s : Text} {kind : TokenKind} :
    leading? s = some (word, kind) ↔ (word, kind) ∈ table ∧
      (s.takeWhile isSymbolPart).map Char.toLower = word ∧
      ∀ c ∈ (s.dropWhile isSymbolPart).head?, isWordEnd c = true := by
  constructor
  · intro h
    obtain ⟨hmem, hfound⟩ := found_of_leading? h
    exact ⟨hmem, (standsAt_iff (List.mem_map_of_mem hmem) s).1 hfound⟩
  · rintro ⟨hmem, hstands⟩
    have hdistinct : ∀ entry ∈ table, ∀ entry' ∈ table, entry.1 = entry'.1 → entry = entry' := by
      decide
    have hfound := (standsAt_iff (List.mem_map_of_mem hmem) s).2 hstands
    rcases hleading : leading? s with _ | entry
    · exact absurd hfound (List.find?_eq_none.1 hleading _ hmem)
    · obtain ⟨hmem', hfound'⟩ := found_of_leading? hleading
      have hword := ((standsAt_iff (List.mem_map_of_mem hmem') s).1 hfound').1
      rw [hdistinct entry hmem' _ hmem (hword.symm.trans hstands.1)]

/-- A text that begins with no letter and no underscore begins with no keyword. -/
theorem leading?_of_not_isSymbolStart {c : Char} (hc : isSymbolStart c = false) (rest : Text) :
    leading? (c :: rest) = none := by
  rcases hleading : leading? (c :: rest) with _ | ⟨word, kind⟩
  · rfl
  · obtain ⟨hmem, hword, -⟩ := leading?_eq_some_iff.1 hleading
    have hname : IsName ((c :: rest).takeWhile isSymbolPart) :=
      isName_of_isKeyword (List.mem_map.2 ⟨_, hmem, hword.symm⟩)
    rw [List.takeWhile_cons] at hname
    split at hname
    · rw [hname.1] at hc
      cases hc
    · exact hname.elim

end Keyword

/-! ### Digits -/

/-- There are ten digits. -/
theorem exists_eq_digit {c : Char} (h : c.isDigit = true) :
    ∃ k : Fin 10, c = Char.ofNat (48 + k) := by
  obtain ⟨hlow, hhigh⟩ := Char.isDigit_iff_toNat.1 h
  have hlow' : 48 ≤ c.toNat := hlow
  have hhigh' : c.toNat ≤ 57 := hhigh
  obtain ⟨k, hk⟩ := Nat.exists_eq_add_of_le hlow'
  exact ⟨⟨k, by omega⟩, by rw [← hk, Char.ofNat_toNat]⟩

/-- No digit begins a name. -/
theorem not_isSymbolStart_of_isDigit {c : Char} (h : c.isDigit = true) :
    isSymbolStart c = false := by
  have hdigits : ∀ k : Fin 10, isSymbolStart (Char.ofNat (48 + k)) = false := by decide
  obtain ⟨k, rfl⟩ := exists_eq_digit h
  exact hdigits k

end PioFrontEnd
