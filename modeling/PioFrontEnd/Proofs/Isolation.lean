import Mathlib.Data.List.Nodup
import Mathlib.Data.List.Perm.Basic
import Mathlib.Data.Option.Basic
import PioFrontEnd.Proofs.ByName.Simulation
import PioFrontEnd.Proofs.ByName.Texts

/-!
# Programs do not see each other

A program sees what is shared and its own defines. So when a source is made of a preamble and of
texts that hold one program each, these texts can be compiled one at a time after the preamble. That
they stand in one source makes a difference to their names only, which have to be different.

The programs that came before are a frame (`Listing.after`): lines that do not begin a program make
the same of a listing in any such frame, and a line that begins one asks for nothing but the names
in it.

* `Listing.takeLines_after`: lines that do not begin a program do not depend on the frame.
* `Listing.takeText_program_eq_ok`: a program is added in a frame exactly if it is added without it
  and has a name of its own.
* `compile_programs_apart`: a source of several programs compiles as its parts do, in any order.
-/

namespace PioFrontEnd

/-! ### Texts that hold one program -/

/-- Whether a line begins a program. -/
def Line.BeginsProgram (line : Line) : Prop := line.peek.kind = .directive .program

instance (line : Line) : Decidable line.BeginsProgram :=
  inferInstanceAs (Decidable (line.peek.kind = .directive .program))

namespace Text

/-- Whether a text is made of complete lines none of which begins a program. -/
structure IsPreamble (t : Text) : Prop where
  /-- The lines are complete. -/
  complete : t.IsComplete
  /-- None of them begins a program. -/
  shared : ∀ item ∈ (TokenStream.ofText t).lines, ∀ line ∈ item.toOption, ¬ line.BeginsProgram

/-- Whether a text is made of complete lines of which the first one begins a program, and no
other. -/
structure IsProgram (t : Text) : Prop where
  /-- The lines are complete. -/
  complete : t.IsComplete
  /-- There is one at least. -/
  nonempty : (TokenStream.ofText t).lines ≠ []
  /-- The first one begins a program. -/
  begins : ∀ item ∈ (TokenStream.ofText t).lines.head?, ∀ line ∈ item.toOption, line.BeginsProgram
  /-- No other one does. -/
  alone : ∀ item ∈ (TokenStream.ofText t).lines.tail, ∀ line ∈ item.toOption,
    ¬ line.BeginsProgram

/-- The name that the first line of a text gives to a program. -/
def programName? (t : Text) : Option Text :=
  match (TokenStream.ofText t).lines with
  | .ok line :: _ => (line.rest.read? .symbol).map (·.1.text)
  | _ => none

end Text

/-! ### Lines that begin a program, and lines that do not -/

namespace Statement

variable {ν : Type} {see : Text → Option ν} {line : Line} {statement : Statement ν}

/-- A line that begins a program is read as one. -/
theorem read_of_begins (h : line.BeginsProgram) (see : Text → Option ν) :
    read see line = readProgram line.peek.span.start line.rest := by
  have hkind : line.peek.kind = .directive .program := h
  unfold read
  dsimp only
  rw [hkind]

/-- A statement that begins a program has its name from the line. -/
theorem exists_name_of_read (h : line.BeginsProgram) (hread : read see line = .ok statement) :
    ∃ name, statement = .program name ∧ (line.rest.read? .symbol).map (·.1.text) = some name := by
  rw [read_of_begins h] at hread
  obtain ⟨hkind, -, rfl⟩ := readProgram_eq_ok.1 hread
  refine ⟨_, rfl, ?_⟩
  rw [Line.read?, if_pos hkind]
  rfl

/-- What a line says that does not begin a program gives a name to a constant. -/
theorem exists_define_of_read (h : ¬ line.BeginsProgram) (hread : read see line = .ok statement) :
    ∃ exported name expr, statement = .define exported name expr := by
  rcases read_eq_program_or_define hread with ⟨hbegins, -⟩ | ⟨-, exported, line', -, hconstant⟩
  · exact absurd hbegins h
  · obtain ⟨-, expr, left, -, -, rfl⟩ := readConstant_eq_ok.1 hconstant
    exact ⟨exported, _, expr, rfl⟩

end Statement

/-! ### Programs that came before -/

namespace Listing

variable {l l' : Listing Text} {line : Line}

/-- The listing with other programs before its own. -/
def after (l : Listing Text) (earlier : List (Program Text)) : Listing Text :=
  { l with programs := earlier ++ l.programs }

/-- Programs that are put before in two steps can be put before at once. -/
theorem after_after (l : Listing Text) (earlier later : List (Program Text)) :
    (l.after later).after earlier = l.after (earlier ++ later) := by
  simp [after]

/-- When a program has been added there is one. -/
theorem programs_addProgram_ne_nil (l : Listing Text) (name : Text) :
    (l.addProgram name).programs ≠ [] := by
  simp [addProgram]

/-- Earlier programs are not visible in a later one. -/
theorem visible_after (h : l.programs ≠ []) (earlier : List (Program Text)) :
    (l.after earlier).visible = l.visible := by
  obtain ⟨programs, last, hlast⟩ := (List.eq_nil_or_concat l.programs).resolve_left h
  simp [visible, after, hlast]

/-- A define is put at the end of the last program whatever programs come before. -/
theorem append_after (h : l.programs ≠ []) (earlier : List (Program Text)) (d : Define Text) :
    (l.after earlier).append d = (l.append d).after earlier := by
  obtain ⟨programs, last, hlast⟩ := (List.eq_nil_or_concat l.programs).resolve_left h
  simp [append, after, hlast]

/-- A define that is put at the end takes no program away. -/
theorem programs_append_ne_nil (h : l.programs ≠ []) (d : Define Text) :
    (l.append d).programs ≠ [] := by
  obtain ⟨programs, last, hlast⟩ := (List.eq_nil_or_concat l.programs).resolve_left h
  simp [append, hlast]

/-- A line that does not begin a program puts a define at the end. -/
theorem exists_append_of_takeLine (hline : ¬ line.BeginsProgram) (h : l.takeLine line = .ok l') :
    ∃ d, l' = l.append d := by
  obtain ⟨statement, hread, hobey⟩ := takeLine_eq_ok.1 h
  obtain ⟨exported, name, expr, rfl⟩ := Statement.exists_define_of_read hline hread
  obtain ⟨v, -, -, happend⟩ := defineConstant_eq_ok.1 hobey
  exact ⟨_, happend⟩

/-- A line that does not begin a program does not depend on the programs before the last one. -/
theorem takeLine_after (hprograms : l.programs ≠ []) (hline : ¬ line.BeginsProgram)
    (earlier : List (Program Text)) :
    (l.after earlier).takeLine line = (l.takeLine line).map (·.after earlier) := by
  have hfind : (l.after earlier).find? = l.find? := by
    funext name
    rw [find?, find?, visible_after hprograms]
  have hsee : (l.after earlier).see = l.see := by
    funext name
    rw [see, see, hfind]
  have hvalue : (l.after earlier).valueOf = l.valueOf := by
    funext name
    rw [valueOf, valueOf, hfind]
  unfold takeLine
  rw [hsee]
  rcases hread : Statement.read l.see line with fault | statement
  · rfl
  · obtain ⟨exported, name, expr, rfl⟩ := Statement.exists_define_of_read hline hread
    have hobey : (l.after earlier).obey (.define exported name expr) =
        (l.obey (.define exported name expr)).map (·.after earlier) := by
      simp only [obey, defineConstant, hvalue, hfind]
      rcases expr.valueUnder l.valueOf with cause | v
      · rfl
      · simp only [append_after hprograms]
        split <;> rfl
    dsimp only
    rw [hobey]
    rcases l.obey (.define exported name expr) with cause | l₁ <;> rfl

/-- Lines that do not begin a program do not depend on the programs before the last one. -/
theorem takeLines_after {lines : List (Except Fault Line)} (hprograms : l.programs ≠ [])
    (hlines : ∀ item ∈ lines, ∀ line ∈ item.toOption, ¬ line.BeginsProgram)
    (earlier : List (Program Text)) :
    (l.after earlier).takeLines lines = (l.takeLines lines).map (·.after earlier) := by
  induction lines generalizing l with
  | nil => rfl
  | cons line lines ih =>
    rcases line with fault | line
    · rfl
    · have hline := hlines (.ok line) List.mem_cons_self line rfl
      rw [takeLines, takeLines, takeLine_after hprograms hline]
      rcases htake : l.takeLine line with fault | l₁
      · rfl
      · obtain ⟨d, rfl⟩ := exists_append_of_takeLine hline htake
        exact ih (programs_append_ne_nil hprograms d)
          fun item hmem => hlines item (List.mem_cons_of_mem _ hmem)

/-- What every new define keeps is kept by lines that do not begin a program. -/
theorem of_takeLines {lines : List (Except Fault Line)} (holds : Listing Text → Prop)
    (happend : ∀ l d, holds l → holds (l.append d))
    (hlines : ∀ item ∈ lines, ∀ line ∈ item.toOption, ¬ line.BeginsProgram) (hl : holds l)
    (h : l.takeLines lines = .ok l') : holds l' := by
  induction lines generalizing l with
  | nil =>
    cases h
    exact hl
  | cons line lines ih =>
    rcases line with fault | line
    · cases h
    · obtain ⟨l₁, htake, hrest⟩ := takeLines_cons_eq_ok.1 h
      have hline := hlines (.ok line) List.mem_cons_self line rfl
      obtain ⟨d, rfl⟩ := exists_append_of_takeLine hline htake
      exact ih (fun item hmem => hlines item (List.mem_cons_of_mem _ hmem)) (happend l d hl) hrest

/-! ### What a text adds -/

/-- A preamble makes no program. -/
theorem programs_of_takeText_preamble {text : Text} (htext : text.IsPreamble)
    (hl : l.programs = []) (h : l.takeText text = .ok l') : l'.programs = [] :=
  of_takeLines (fun l => l.programs = []) (fun l d hl => by simp [append, hl]) htext.shared hl h

/-- A line that begins a program is refused exactly if an earlier program has the name. -/
theorem takeLine_of_begins {name : Text} (hline : line.BeginsProgram)
    (hread : Statement.readProgram (ν := Text) line.peek.span.start line.rest = .ok (.program name))
    (hl : l.programs = []) (earlier : List (Program Text)) :
    (l.after earlier).takeLine line =
      if name ∈ earlier.map Program.name then
        .error ⟨.duplicateProgram name, line.peek.span.start⟩
      else .ok ((l.addProgram name).after earlier) := by
  have hprogram : ((l.after earlier).program? name).isSome = true ↔
      name ∈ earlier.map Program.name := by
    simp [program?, after, hl, List.find?_isSome]
  rw [takeLine, Statement.read_of_begins hline, hread]
  simp only [obey, beginProgram, hprogram]
  by_cases hmem : name ∈ earlier.map Program.name
  · simp only [if_pos hmem, mapError_error]
  · simp only [if_neg hmem, mapError_ok]
    simp [addProgram, after]

/-- After a program has begun, lines that do not begin another one are put into it. -/
theorem own_of_takeLines {lines : List (Except Fault Line)} {name : Text}
    (hlines : ∀ item ∈ lines, ∀ line ∈ item.toOption, ¬ line.BeginsProgram) (hl : l.programs = [])
    (h : (l.addProgram name).takeLines lines = .ok l') :
    ∃ p, name = p.name ∧ l' = l.after [p] := by
  refine of_takeLines (fun l' => ∃ p, name = p.name ∧ l' = l.after [p]) ?_ hlines
    ⟨{ name := name }, rfl, by simp [addProgram, after, hl]⟩ h
  rintro _ d ⟨p, rfl, rfl⟩
  exact ⟨{ p with defines := p.defines ++ [d] }, rfl, by simp [append, after, hl]⟩

/-- What the lines of a program do does not depend on the programs before it, unless one of them has
its name. -/
theorem takeLines_of_begins {others : List (Except Fault Line)} {name : Text}
    (hline : line.BeginsProgram)
    (hread : Statement.readProgram (ν := Text) line.peek.span.start line.rest = .ok (.program name))
    (hl : l.programs = []) (hothers : ∀ item ∈ others, ∀ line ∈ item.toOption, ¬ line.BeginsProgram)
    (earlier : List (Program Text)) :
    (l.after earlier).takeLines (.ok line :: others) =
      if name ∈ earlier.map Program.name then
        .error ⟨.duplicateProgram name, line.peek.span.start⟩
      else ((l.addProgram name).takeLines others).map (·.after earlier) := by
  rw [takeLines, takeLine_of_begins hline hread hl]
  by_cases hmem : name ∈ earlier.map Program.name
  · rw [if_pos hmem, if_pos hmem]
  · rw [if_neg hmem, if_neg hmem]
    exact takeLines_after (programs_addProgram_ne_nil l name) hothers earlier

/-- Whether a text adds one program to a listing, and nothing else. -/
def Adds (l : Listing Text) (text : Text) (p : Program Text) : Prop :=
  l.takeText text = .ok (l.after [p])

variable {text : Text} {earlier : List (Program Text)}

/-- What the text of a program does does not depend on the programs before it, but for their
names. -/
theorem takeText_program (htext : text.IsProgram) (hl : l.programs = []) :
    (∀ earlier l', (l.after earlier).takeText text ≠ .ok l') ∨
      ∃ p, text.programName? = some p.name ∧ ∀ earlier l',
        (l.after earlier).takeText text = .ok l' ↔
          p.name ∉ earlier.map Program.name ∧ l' = l.after (earlier ++ [p]) := by
  obtain ⟨first, others, htextlines⟩ := List.exists_cons_of_ne_nil htext.nonempty
  have hfirst := htext.begins
  have hothers := htext.alone
  rw [htextlines] at hfirst hothers
  rw [List.tail_cons] at hothers
  have htake : ∀ earlier, (l.after earlier).takeText text =
      (l.after earlier).takeLines (first :: others) := fun earlier => by
    rw [takeText, htextlines]
  rcases first with fault | line
  · left
    intro earlier l' h
    rw [htake] at h
    cases h
  · have hline := hfirst _ rfl line rfl
    rcases hread : Statement.read l.see line with fault | statement
    · left
      intro earlier l' h
      rw [Statement.read_of_begins hline] at hread
      rw [htake, takeLines, takeLine, Statement.read_of_begins hline, hread] at h
      cases h
    · obtain ⟨name, rfl, hname⟩ := Statement.exists_name_of_read hline hread
      rw [Statement.read_of_begins hline] at hread
      have hwhole := takeLines_of_begins hline hread hl hothers
      rcases hown : (l.addProgram name).takeLines others with fault | l₁
      · left
        intro earlier l' h
        rw [htake, hwhole, hown] at h
        split at h <;> cases h
      · obtain ⟨p, rfl, rfl⟩ := own_of_takeLines hothers hl hown
        refine .inr ⟨p, ?_, fun earlier l' => ?_⟩
        · rw [Text.programName?, htextlines]
          exact hname
        · rw [htake, hwhole, hown]
          by_cases hmem : p.name ∈ earlier.map Program.name
          · simp [hmem]
          · rw [if_neg hmem]
            simp only [Except.map, Except.ok.injEq, after_after, hmem, not_false_eq_true, true_and]
            exact eq_comm

/-- At most one program is added by a text. -/
theorem Adds.eq {p q : Program Text} (hp : l.Adds text p) (hq : l.Adds text q) : p = q := by
  have heq := Except.ok.inj (hp.symm.trans hq)
  simpa [after] using heq

/-- The program that a text adds has the name that its first line gives. -/
theorem Adds.programName? {p : Program Text} (h : l.Adds text p) (htext : text.IsProgram)
    (hl : l.programs = []) : text.programName? = some p.name := by
  rcases takeText_program htext hl with hnot | ⟨q, hname, hiff⟩
  · exact absurd h (hnot [] _)
  · have hq : l.Adds text q := (hiff [] _).2 ⟨List.not_mem_nil, rfl⟩
    rw [h.eq hq]
    exact hname

/-- A program is added after others exactly if it is added without them and has a name of its
own. -/
theorem takeText_program_eq_ok (htext : text.IsProgram) (hl : l.programs = []) :
    (l.after earlier).takeText text = .ok l' ↔
      ∃ p, l.Adds text p ∧ p.name ∉ earlier.map Program.name ∧ l' = l.after (earlier ++ [p]) := by
  rcases takeText_program htext hl with hnot | ⟨p, hname, hiff⟩
  · constructor
    · intro h
      exact absurd h (hnot earlier l')
    · rintro ⟨p, hadds, -⟩
      exact absurd hadds (hnot [] _)
  · have hp : l.Adds text p := (hiff [] _).2 ⟨List.not_mem_nil, rfl⟩
    rw [hiff]
    constructor
    · rintro ⟨hnew, heq⟩
      exact ⟨p, hp, hnew, heq⟩
    · rintro ⟨q, hq, hnew, heq⟩
      rw [hp.eq hq]
      exact ⟨hnew, heq⟩

/-- Programs have different names if those before the last one have, and that has a new one. -/
theorem nodup_names_concat {p : Program Text} : ((earlier ++ [p]).map Program.name).Nodup ↔
    (earlier.map Program.name).Nodup ∧ p.name ∉ earlier.map Program.name := by
  simp [List.nodup_append]

/-- Programs are added after one another exactly if each of them is added alone, and no two of them
have the same name. -/
theorem takeText_programs_eq_ok {texts : List Text} (htexts : ∀ t ∈ texts, t.IsProgram)
    (hl : l.programs = []) (earlier : List (Program Text))
    (hearlier : (earlier.map Program.name).Nodup) :
    (l.after earlier).takeText texts.flatten = .ok l' ↔
      ∃ programs, List.Forall₂ l.Adds texts programs ∧
        ((earlier ++ programs).map Program.name).Nodup ∧ l' = l.after (earlier ++ programs) := by
  induction texts generalizing earlier l' with
  | nil =>
    rw [List.flatten_nil, takeText_nil]
    constructor
    · rintro ⟨⟩
      exact ⟨[], .nil, by rwa [List.append_nil], by rw [List.append_nil]⟩
    · rintro ⟨programs, hadds, -, rfl⟩
      rw [List.forall₂_nil_left_iff.1 hadds, List.append_nil]
  | cons text texts ih =>
    have htext := htexts text List.mem_cons_self
    have hrest := fun t ht => htexts t (List.mem_cons_of_mem text ht)
    rw [List.flatten_cons, takeText_append_eq_ok htext.complete]
    constructor
    · rintro ⟨l₁, hfirst, hothers⟩
      obtain ⟨p, hadds, hnew, rfl⟩ := (takeText_program_eq_ok htext hl).1 hfirst
      obtain ⟨programs, hall, hnames, rfl⟩ :=
        (ih hrest _ (nodup_names_concat.2 ⟨hearlier, hnew⟩)).1 hothers
      rw [List.append_assoc, List.singleton_append] at hnames ⊢
      exact ⟨p :: programs, .cons hadds hall, hnames, rfl⟩
    · rintro ⟨programs, hall, hnames, rfl⟩
      obtain ⟨p, others, hadds, hothers, rfl⟩ := List.forall₂_cons_left_iff.1 hall
      rw [← List.singleton_append, ← List.append_assoc] at hnames ⊢
      have hfirst := hnames
      rw [List.map_append] at hfirst
      have hnodup := (List.nodup_append.1 hfirst).1
      have hnew := (nodup_names_concat.1 hnodup).2
      exact ⟨_, (takeText_program_eq_ok htext hl).2 ⟨p, hadds, hnew, rfl⟩,
        (ih hrest _ hnodup).2 ⟨others, hothers, hnames, rfl⟩⟩

/-- If each text adds a program, there are the programs that they add. -/
theorem exists_forall₂_adds {texts : List Text} :
    (∃ programs, List.Forall₂ l.Adds texts programs) ↔ ∀ t ∈ texts, ∃ p, l.Adds t p := by
  induction texts with
  | nil => exact ⟨fun _ t ht => absurd ht List.not_mem_nil, fun _ => ⟨[], .nil⟩⟩
  | cons text texts ih =>
    rw [List.forall_mem_cons, ← ih]
    constructor
    · rintro ⟨programs, hall⟩
      obtain ⟨p, others, hadds, hothers, rfl⟩ := List.forall₂_cons_left_iff.1 hall
      exact ⟨⟨p, hadds⟩, others, hothers⟩
    · rintro ⟨⟨p, hadds⟩, others, hothers⟩
      exact ⟨p :: others, .cons hadds hothers⟩

/-- The programs that are added have the names that their texts give them. -/
theorem map_programName? {texts : List Text} {programs : List (Program Text)}
    (htexts : ∀ t ∈ texts, t.IsProgram) (hl : l.programs = [])
    (h : List.Forall₂ l.Adds texts programs) :
    texts.map Text.programName? = (programs.map Program.name).map some := by
  induction h with
  | nil => rfl
  | @cons text p texts programs hadds hall ih =>
    rw [List.map_cons, List.map_cons, List.map_cons,
      hadds.programName? (htexts text List.mem_cons_self) hl,
      ih fun t ht => htexts t (List.mem_cons_of_mem text ht)]

end Listing

/-! ### Sources that are made of them -/

variable {g : Text} {texts : List Text} {l' : Listing Text}

/-- What a preamble and texts of programs make: what the preamble makes, and the program that each
text adds to it. -/
theorem takeText_append_programs (hg : g.IsPreamble) (htexts : ∀ t ∈ texts, t.IsProgram) :
    ({} : Listing Text).takeText (g ++ texts.flatten) = .ok l' ↔
      ∃ l programs, ({} : Listing Text).takeText g = .ok l ∧ List.Forall₂ l.Adds texts programs ∧
        (programs.map Program.name).Nodup ∧ l' = l.after programs := by
  rw [Listing.takeText_append_eq_ok hg.complete]
  constructor
  · rintro ⟨l, hl, htake⟩
    have hprograms := Listing.programs_of_takeText_preamble hg rfl hl
    obtain ⟨programs, hall, hnames, rfl⟩ :=
      (Listing.takeText_programs_eq_ok htexts hprograms [] List.nodup_nil).1 htake
    exact ⟨l, programs, hl, hall, hnames, rfl⟩
  · rintro ⟨l, programs, hl, hall, hnames, rfl⟩
    have hprograms := Listing.programs_of_takeText_preamble hg rfl hl
    exact ⟨l, hl, (Listing.takeText_programs_eq_ok htexts hprograms []
      List.nodup_nil).2 ⟨programs, hall, hnames, rfl⟩⟩

/-- What a preamble and the text of one program make. -/
theorem takeText_append_program {t : Text} (hg : g.IsPreamble) (ht : t.IsProgram) :
    ({} : Listing Text).takeText (g ++ t) = .ok l' ↔
      ∃ l p, ({} : Listing Text).takeText g = .ok l ∧ l.Adds t p ∧ l' = l.after [p] := by
  have hiff : ({} : Listing Text).takeText (g ++ [t].flatten) = .ok l' ↔ _ :=
    takeText_append_programs hg (List.forall_mem_singleton.2 ht)
  rw [List.flatten_singleton] at hiff
  rw [hiff]
  constructor
  · rintro ⟨l, programs, hl, hall, -, rfl⟩
    obtain ⟨p, others, hadds, hnil, rfl⟩ := List.forall₂_cons_left_iff.1 hall
    rw [List.forall₂_nil_left_iff.1 hnil]
    exact ⟨l, p, hl, hadds, rfl⟩
  · rintro ⟨l, p, hl, hadds, rfl⟩
    exact ⟨l, [p], hl, .cons hadds .nil, List.pairwise_singleton _ _, rfl⟩

/-- Programs compile together exactly if they have different names and each of them compiles. -/
theorem exists_compile_programs_iff (hg : g.IsPreamble) (htexts : ∀ t ∈ texts, t.IsProgram)
    (hne : texts ≠ []) :
    (∃ f, compile (g ++ texts.flatten) = .ok f) ↔
      (texts.map Text.programName?).Nodup ∧ ∀ t ∈ texts, ∃ f, compile (g ++ t) = .ok f := by
  constructor
  · rintro ⟨f, h⟩
    obtain ⟨l, programs, hl, hall, hnames, -⟩ :=
      (takeText_append_programs hg htexts).1 (compile_eq_ok_iff.1 h).1
    have hprograms := Listing.programs_of_takeText_preamble hg rfl hl
    refine ⟨?_, fun t ht => ?_⟩
    · rw [Listing.map_programName? htexts hprograms hall]
      exact hnames.map (Option.some_injective Text)
    · obtain ⟨p, hadds⟩ := Listing.exists_forall₂_adds.1 ⟨programs, hall⟩ t ht
      obtain ⟨f', hf', -⟩ := compile_of_listing
        ((takeText_append_program hg (htexts t ht)).2 ⟨l, p, hl, hadds, rfl⟩)
      exact ⟨f', hf'⟩
  · rintro ⟨hnames, hall⟩
    have hone : ∀ t ∈ texts, ∃ l p, ({} : Listing Text).takeText g = .ok l ∧ l.Adds t p := by
      intro t ht
      obtain ⟨f, hf⟩ := hall t ht
      obtain ⟨l, p, hl, hadds, -⟩ :=
        (takeText_append_program hg (htexts t ht)).1 (compile_eq_ok_iff.1 hf).1
      exact ⟨l, p, hl, hadds⟩
    obtain ⟨t, ht⟩ := List.exists_mem_of_ne_nil texts hne
    obtain ⟨l, p, hl, -⟩ := hone t ht
    have hprograms := Listing.programs_of_takeText_preamble hg rfl hl
    obtain ⟨programs, hadds⟩ := Listing.exists_forall₂_adds.2 fun t ht => by
      obtain ⟨l', p, hl', hadds⟩ := hone t ht
      cases hl.symm.trans hl'
      exact ⟨p, hadds⟩
    rw [Listing.map_programName? htexts hprograms hadds,
      List.nodup_map_iff (Option.some_injective Text)] at hnames
    obtain ⟨f, hf, -⟩ := compile_of_listing ((takeText_append_programs hg htexts).2
      ⟨l, programs, hl, hadds, hnames, rfl⟩)
    exact ⟨f, hf⟩

/-- A program that is added to a preamble is what the two compile to. -/
theorem exists_compile_of_adds {shared : File} {t : Text} {p : Program Text} (hg : g.IsPreamble)
    (ht : t.IsProgram) (hshared : compile g = .ok shared) (hadds : shared.named.Adds t p) :
    ∃ alone, compile (g ++ t) = .ok alone ∧ alone.named.defines = shared.named.defines ∧
      alone.named.programs = [p] := by
  have hl := (compile_eq_ok_iff.1 hshared).1
  have hprograms := Listing.programs_of_takeText_preamble hg rfl hl
  obtain ⟨alone, hcompile, hnamed⟩ := compile_of_listing
    ((takeText_append_program hg ht).2 ⟨shared.named, p, hl, hadds, rfl⟩)
  refine ⟨alone, hcompile, ?_, ?_⟩
  · rw [hnamed]
    rfl
  · rw [hnamed]
    simp [Listing.after, hprograms]

/-- Programs after a preamble are compiled apart. They compile together exactly if they have
different names and each of them compiles; then each is what it is when it is compiled alone, and
what is shared is what the preamble compiles to. So the programs may come in any order. -/
theorem compile_programs_apart (hg : g.IsPreamble) (htexts : ∀ t ∈ texts, t.IsProgram)
    (hne : texts ≠ []) :
    ((∃ f, compile (g ++ texts.flatten) = .ok f) ↔
      (texts.map Text.programName?).Nodup ∧ ∀ t ∈ texts, ∃ f, compile (g ++ t) = .ok f) ∧
    ∀ f, compile (g ++ texts.flatten) = .ok f →
      (∃ shared, compile g = .ok shared ∧ f.named.defines = shared.named.defines ∧
        List.Forall₂ (fun t p => t.programName? = some p.name ∧ ∃ alone,
          compile (g ++ t) = .ok alone ∧ alone.named.defines = shared.named.defines ∧
            alone.named.programs = [p]) texts f.named.programs) ∧
      ∀ others : List Text, others.Perm texts → ∃ f', compile (g ++ others.flatten) = .ok f' ∧
        f'.named.defines = f.named.defines ∧ f'.named.programs.Perm f.named.programs := by
  refine ⟨exists_compile_programs_iff hg htexts hne, fun f h => ?_⟩
  obtain ⟨l, programs, hl, hall, hnames, hnamed⟩ :=
    (takeText_append_programs hg htexts).1 (compile_eq_ok_iff.1 h).1
  have hprograms := Listing.programs_of_takeText_preamble hg rfl hl
  have hafter : ∀ programs, (l.after programs).programs = programs := by
    intro programs
    simp [Listing.after, hprograms]
  obtain ⟨shared, hshared, rfl⟩ := compile_of_listing hl
  rw [hnamed, hafter]
  constructor
  · refine ⟨shared, hshared, rfl, ((List.forall₂_and_left _ _).2 ⟨htexts, hall⟩).imp ?_⟩
    rintro t p ⟨ht, hadds⟩
    exact ⟨hadds.programName? ht hprograms, exists_compile_of_adds hg ht hshared hadds⟩
  · intro others hperm
    obtain ⟨programs', hall', hperm'⟩ := List.perm_comp_forall₂ hperm hall
    obtain ⟨f', hf', hnamed'⟩ := compile_of_listing ((takeText_append_programs hg
      fun t ht => htexts t (hperm.subset ht)).2
        ⟨shared.named, programs', hl, hall', (hperm'.map _).nodup_iff.2 hnames, rfl⟩)
    refine ⟨f', hf', ?_, ?_⟩
    · rw [hnamed']
      rfl
    · rw [hnamed', hafter]
      exact hperm'

/-- Two programs use what is shared, and each has a define of the same name. -/
theorem compile_programs_apart_same_define :
    let g : Text := ".define n 3\n".toList
    let p : Text := ".program p\n.define a n\n".toList
    let q : Text := "\n.program q\n.define a 4*n\n".toList
    let a (expr : Expr Symbol) (v : Int32) : Define Symbol :=
      { name := ⟨2⟩, expr := expr, value := some v }
    let f : File :=
      { names := ⟨[['n'], ['p'], ['a'], ['q']]⟩
        listing := {
          defines := [{ name := ⟨0⟩, expr := .literal 3, value := some 3 }]
          programs := [
            { name := ⟨1⟩, defines := [a (.name ⟨0⟩) 3] },
            { name := ⟨3⟩, defines := [a (.binary .mul (.literal 4) (.name ⟨0⟩) false) 12] }] } }
    g.IsPreamble ∧ p.IsProgram ∧ q.IsProgram ∧ compile (g ++ [p, q].flatten) = .ok f ∧
      [p, q].map Text.programName? = [some ['p'], some ['q']] ∧
      ∃ f', compile (g ++ [q, p].flatten) = .ok f' ∧
        f'.named.programs.Perm f.named.programs := by
  intro g p q a f
  have hg : g.IsPreamble := ⟨by decide +kernel, by decide +kernel⟩
  have hp : p.IsProgram :=
    ⟨by decide +kernel, by decide +kernel, by decide +kernel, by decide +kernel⟩
  have hq : q.IsProgram :=
    ⟨by decide +kernel, by decide +kernel, by decide +kernel, by decide +kernel⟩
  have hcompile : compile (g ++ [p, q].flatten) = .ok f := by decide +kernel
  have happart := compile_programs_apart hg
    (List.forall_mem_cons.2 ⟨hp, List.forall_mem_singleton.2 hq⟩) (List.cons_ne_nil _ _)
  obtain ⟨f', hf', -, hperm⟩ := (happart.2 f hcompile).2 [q, p] (List.Perm.swap p q [])
  exact ⟨hg, hp, hq, hcompile, by decide +kernel, f', hf', hperm⟩

end PioFrontEnd
