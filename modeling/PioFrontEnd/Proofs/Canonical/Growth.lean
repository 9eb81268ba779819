import PioFrontEnd.Proofs.ByName.Basic
import PioFrontEnd.Proofs.Canonical.Lines

/-!
# How a canonical source is read

A listing grows by one program or define at a time, and so does its canonical form, by one line
(`Listing.Grows`). When the canonical form is compiled, the same programs and defines come in the
same order. So it can be read along the growth of the listing that it shows, with a second listing
that has the same names as the first one.

* `grows_of_takeLines`: what the lines of a source make of a listing is growth.
* `Grows.print`: the canonical form grows by the lines of the growth.
* `takeLines_program`, `takeLines_define`: what the first of these lines does, when it is read with
  any listing that has the same names.
-/

namespace PioFrontEnd

/-! ### Growth -/

namespace Listing

/-- Whether one listing grows into another one, and the canonical form of what comes to it. -/
inductive Grows : Listing Text → Text → Listing Text → Prop where
  /-- Nothing comes to it. -/
  | refl {l : Listing Text} : Grows l [] l
  /-- First comes a program. -/
  | program {l l' : Listing Text} {name text : Text} (hname : IsName name)
    (hnew : (l.program? name).isSome = false) (hrest : Grows (l.addProgram name) text l') :
    Grows l (Program.heading name ++ '\n' :: text) l'
  /-- First comes a define. -/
  | define {l l' : Listing Text} {d : Define Text} {v : Int32} {text : Text} (hname : IsName d.name)
    (hshape : d.expr.Shaped false) (hseen : ∀ n ∈ d.expr.names, (l.find? n).isSome = true)
    (hvalue : d.value = some v) (heval : d.expr.valueUnder l.valueOf = .ok v)
    (hnew : (l.find? d.name).isSome = false) (hrest : Grows (l.append d) text l') :
    Grows l (d.print ++ '\n' :: text) l'

/-- A define that is put at the end is printed last. -/
theorem print_append (l : Listing Text) (d : Define Text) :
    (l.append d).print = l.print ++ (d.print ++ ['\n']) := by
  rcases l.append_cases d with ⟨hprograms, happend⟩ | ⟨earlier, p, hprograms, happend⟩
  · simp [happend, print, hprograms, Define.printAll]
  · simp [happend, print, hprograms, Program.print_eq, Define.printAll]

/-- A program that is added is printed last, and that is its heading. -/
theorem print_addProgram (l : Listing Text) (name : Text) :
    (l.addProgram name).print = l.print ++ (Program.heading name ++ ['\n']) := by
  simp [addProgram, print, Program.print_eq, Define.printAll]

/-- The canonical form grows by what is printed. -/
theorem Grows.print {l l' : Listing Text} {text : Text} (h : l.Grows text l') :
    l'.print = l.print ++ text := by
  induction h with
  | refl => rw [List.append_nil]
  | program _ _ _ ih => rw [ih, print_addProgram]; simp
  | define _ _ _ _ _ _ _ ih => rw [ih, print_append]; simp

/-! ### Lines make a listing grow -/

variable {l l₁ l' : Listing Text} {text : Text}

/-- A statement that is obeyed makes a listing grow. -/
theorem grows_of_obey {s : Statement Text} (hs : s.WellFormed)
    (hseen : ∀ n ∈ s.names, (l.find? n).isSome = true) (hobey : l.obey s = .ok l₁)
    (h : l₁.Grows text l') : ∃ text', l.Grows text' l' := by
  cases s with
  | program name =>
    obtain ⟨hnew, rfl⟩ := beginProgram_eq_ok.1 hobey
    exact ⟨_, .program hs.1 hnew h⟩
  | define exported name expr =>
    obtain ⟨v, heval, hnew, rfl⟩ := defineConstant_eq_ok.1 hobey
    have hshape : expr.Shaped false := hs.2 exported name expr rfl
    let d : Define Text := { name := name, exported := exported, expr := expr, value := some v }
    exact ⟨_, .define (d := d) hs.1 hshape hseen rfl heval hnew h⟩

/-- The lines of a stream make a listing grow. -/
theorem grows_of_takeLines {s : TokenStream} (h : l.takeLines s.lines = .ok l') :
    ∃ text, l.Grows text l' := by
  fun_induction TokenStream.lines s generalizing l with
  | case1 s s' hnext =>
    cases h
    exact ⟨[], .refl⟩
  | case2 s line s' hnext ih =>
    cases line with
    | error fault => cases h
    | ok line =>
      obtain ⟨l₁, htake, hrest⟩ := takeLines_cons_eq_ok.1 h
      obtain ⟨statement, hread, hobey⟩ := takeLine_eq_ok.1 htake
      obtain ⟨text, hgrows⟩ := ih hrest
      refine grows_of_obey ?_ (fun n hn => ?_) hobey hgrows
      · exact Statement.wellFormed_of_read (TokenStream.spellsName_of_nextLine hnext) hread
      · obtain ⟨name, hsee⟩ := Statement.exists_see_of_read hread n hn
        exact isSome_find?_of_see hsee

/-! ### Reading the lines of a growth -/

/-- Whether all names that a listing declares are found again where they are printed. -/
def Spelled (l : Listing Text) : Prop := ∀ n ∈ l.declared, IsName n ∧ ¬ IsKeyword n

/-- The first line begins a program, unless its name is spelled like a keyword. -/
theorem takeLines_program {s : TokenStream} (hfresh : s.Fresh) {name : Text} (hname : IsName name)
    (hs : s.rest = Program.heading name ++ '\n' :: text) :
    ∃ s' : TokenStream, s'.Fresh ∧ s'.rest = text ∧ ∀ l : Listing Text,
      (l.takeLines s.lines).toOption =
        if IsKeyword name then none
        else (l.beginProgram name).toOption.bind fun l => (l.takeLines s'.lines).toOption := by
  have hyields := yields_program hname text
  rw [← hs] at hyields
  obtain ⟨line, s', hnext, hlexemes, hrest, hfresh'⟩ :=
    TokenStream.nextLine_of_yields hfresh hyields (by simp)
  refine ⟨s', hfresh', hrest, fun l => ?_⟩
  rw [TokenStream.lines_of_some hnext, toOption_takeLines_cons]
  have hread := Statement.read_program_iff l.see hlexemes
  cases hstatement : Statement.read l.see line with
  | error fault =>
    rw [hstatement] at hread
    have hkey : IsKeyword name := Decidable.byContradiction fun hnot =>
      hread (nameLexeme_kind_eq_symbol.2 hnot)
    rw [if_pos hkey]
    rfl
  | ok statement =>
    rw [hstatement] at hread
    obtain ⟨hkind, rfl⟩ := hread
    rw [if_neg (nameLexeme_kind_eq_symbol.1 hkind)]
    rfl

/-- The first line defines a constant, unless its name is spelled like a keyword or a literal is
negative. The expression is regrouped, and the qualifier and the value that were printed play no
part. -/
theorem takeLines_define {s : TokenStream} (hfresh : s.Fresh) {d : Define Text}
    (hname : IsName d.name)
    (hshape : d.expr.Shaped false) (hnames : ∀ n ∈ d.expr.names, IsName n ∧ ¬ IsKeyword n)
    (hs : s.rest = d.print ++ '\n' :: text) :
    ∃ s' : TokenStream, s'.Fresh ∧ s'.rest = text ∧ ∀ l : Listing Text,
      (∀ n ∈ d.expr.names, (l.find? n).isSome = true) →
      (l.takeLines s.lines).toOption =
        if IsKeyword d.name ∨ ∃ v ∈ d.expr.literals, v < 0 then none
        else (l.defineConstant false d.name (d.expr.regroup none)).toOption.bind
          fun l => (l.takeLines s'.lines).toOption := by
  have hyields := yields_define hname hnames text
  rw [← hs] at hyields
  obtain ⟨line, s', hnext, hlexemes, hrest, hfresh'⟩ :=
    TokenStream.nextLine_of_yields hfresh hyields (by simp)
  refine ⟨s', hfresh', hrest, fun l hseen => ?_⟩
  have hsee : ∀ n ∈ d.expr.names, l.see n = some n := fun n hn => see_eq_some (hseen n hn)
  have hfails : (∃ fault, Statement.read l.see line = .error fault) →
      (l.takeLines (.ok line :: s'.lines)).toOption = none := by
    rintro ⟨fault, hread⟩
    rw [toOption_takeLines_cons, hread]
    rfl
  rw [TokenStream.lines_of_some hnext]
  by_cases hkey : IsKeyword d.name
  · rw [if_pos (.inl hkey)]
    refine hfails (Statement.read_define_of_keyword (fun hkind => ?_) hlexemes)
    exact nameLexeme_kind_eq_symbol.1 hkind hkey
  · have hlexeme : nameLexeme d.name = (.symbol, d.name) :=
      Prod.ext (nameLexeme_kind_eq_symbol.2 hkey) rfl
    rw [hlexeme] at hlexemes
    by_cases hsign : ∃ v ∈ d.expr.literals, v < 0
    · rw [if_pos (.inr hsign)]
      exact hfails (Statement.read_define_of_negative hsee hsign hlexemes)
    · have hnonneg : ∀ v ∈ d.expr.literals, ¬ v < 0 := fun v hv hneg => hsign ⟨v, hv, hneg⟩
      rw [if_neg (not_or.2 ⟨hkey, hsign⟩), toOption_takeLines_cons,
        Statement.read_define hshape hsee hnonneg hlexemes]
      rfl

end Listing

end PioFrontEnd
