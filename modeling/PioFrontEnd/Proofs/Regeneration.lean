import Mathlib.Control.Monad.Basic
import Mathlib.Data.List.Basic
import PioFrontEnd.Proofs.ByName.Simulation
import PioFrontEnd.Proofs.Canonical.Recovery

/-!
# Compiling the canonical form

The canonical form of a compiled file is a source. It does not show everything: qualifiers are left
out, a literal with its sign and a name that is spelled like a keyword cannot be read again, and
products and quotients are grouped from the left when they are.

* `compile_source_iff`: the canonical form compiles to the same file without its qualifiers exactly
  if none of this matters.
* `compile_source_stable`: what the canonical form compiles to, if it does, is compiled from its own
  canonical form. The two canonical forms differ in the values of annotations at most.
* `exists_compile_source_iff`: where products and quotients are grouped from the left, the canonical
  form compiles exactly if it has no signs and no keywords, and then it is what it was.
-/

namespace PioFrontEnd

/-- The file without qualifiers. -/
def File.unexported (f : File) : File := { f with listing := f.listing.unexported }

variable {source : Text} {f f₀ f₁ : File}

/-- A file without qualifiers has its names without qualifiers. -/
theorem File.named_unexported (f : File) : f.unexported.named = f.named.unexported :=
  Listing.map_mapDefines (Define.map_unexported _) f.listing

/-- A change of defines that leaves their names alone, and does the same under any names, can be made
before or after the file of a listing is made. -/
theorem File.ofNamed_mapDefines {c : Define Text → Define Text} {c' : Define Symbol → Define Symbol}
    (hname : ∀ d, (c d).name = d.name)
    (hmap : ∀ (r : Text → Symbol) (d : Define Text), (c d).map r = c' (d.map r))
    (l : Listing Text) :
    File.ofNamed (l.mapDefines c) =
      { File.ofNamed l with listing := (File.ofNamed l).listing.mapDefines c' } := by
  have hlisting : ∀ r : Text → Symbol, (l.mapDefines c).map r = (l.map r).mapDefines c' := fun r =>
    Listing.map_mapDefines (hmap r) l
  simp only [ofNamed, Listing.declared_mapDefines hname, hlisting]

/-- The file of a listing without qualifiers. -/
theorem File.ofNamed_unexported (l : Listing Text) :
    File.ofNamed l.unexported = (File.ofNamed l).unexported :=
  File.ofNamed_mapDefines Define.name_unexported (fun r => Define.map_unexported r) l

/-- The listing of a compiled file has grown from nothing, and its canonical form with it. -/
theorem grows_of_compile (h : compile source = .ok f) :
    ({} : Listing Text).Grows f.source f.named := by
  obtain ⟨text, hgrows⟩ := Listing.grows_of_takeLines (compile_eq_ok_iff.1 h).1
  have htext : f.source = text := hgrows.print
  rw [htext]
  exact hgrows

/-- What the canonical form of a compiled file compiles to. -/
theorem rereadOf_of_compile (h₀ : compile source = .ok f₀) (h₁ : compile f₀.source = .ok f₁) :
    f₁.named.RereadOf f₀.named :=
  (grows_of_compile h₀).rereads .empty (TokenStream.fresh_ofText _) rfl (compile_eq_ok_iff.1 h₁).1

/-- If nothing stands in the way, the canonical form of a compiled file compiles to the file, but
for its qualifiers. -/
theorem compile_source_of_straight (h : compile source = .ok f) (hspelled : f.named.Spelled)
    (hunsigned : f.named.Unsigned) (hstraight : f.named.Straight) :
    compile f.source = .ok f.unexported := by
  have hlines : ({} : Listing Text).takeLines (TokenStream.ofText f.source).lines =
      .ok f.named.unexported :=
    (grows_of_compile h).restores hspelled hunsigned hstraight (TokenStream.fresh_ofText _) rfl
  refine compile_eq_ok_iff.2 ⟨?_, ?_⟩
  · rw [File.named_unexported, hlines]
  · rw [File.named_unexported, File.ofNamed_unexported, ← (compile_eq_ok_iff.1 h).2]

/-- The canonical form of a compiled file compiles to the same file without its qualifiers exactly
if no literal in it is negative, no name in it is spelled like a keyword, and no product or quotient
in it is the right operand of one. -/
theorem compile_source_iff (h : compile source = .ok f) :
    compile f.source = .ok f.unexported ↔
      f.named.Unsigned ∧ f.named.Unreserved ∧ f.named.Straight := by
  constructor
  · intro hagain
    have hreread := rereadOf_of_compile h hagain
    refine ⟨hreread.unsigned, fun n hn => (hreread.spelled n hn).2, fun d hd => ?_⟩
    have hagree := congrArg Listing.allDefines hreread.agree
    rw [File.named_unexported, Listing.withoutValues, Listing.unexported,
      Listing.allDefines_mapDefines, Listing.allDefines_mapDefines, Listing.allDefines_mapDefines,
      List.map_map] at hagree
    have hexpr : d.expr = d.expr.regroup none :=
      congrArg Define.expr (List.map_inj_left.1 hagree d hd)
    exact (Expr.regroup_eq_self_iff (hreread.shaped d hd)).1 hexpr.symm
  · rintro ⟨hunsigned, hunreserved, hstraight⟩
    have hnames := (grows_of_compile h).isName fun n hn => by cases hn
    have hspelled : f.named.Spelled := fun n hn => ⟨hnames n hn, hunreserved n hn⟩
    exact compile_source_of_straight h hspelled hunsigned hstraight

/-- A qualifier is all that the canonical form loses here. -/
theorem compile_source_of_qualified_define :
    let a : Define Symbol :=
      { name := ⟨0⟩, exported := true, value := some 3
        expr := .binary .div (.literal 9) (.binary .sub (.literal 4) (.literal 1) true) false }
    let b : Define Symbol :=
      { name := ⟨2⟩, value := some 4, expr := .binary .add (.name ⟨0⟩) (.literal 1) true }
    let f : File :=
      { names := ⟨[['a'], ['p'], ['b']]⟩
        listing := { defines := [a], programs := [{ name := ⟨1⟩, defines := [b] }] } }
    compile ".define PUBLIC a 9/(4-1) ; ten\n\n.program p\n.define b (a+1)".toList = .ok f ∧
      compile f.source = .ok f.unexported := by
  intro a b f
  have hcompile : compile ".define PUBLIC a 9/(4-1) ; ten\n\n.program p\n.define b (a+1)".toList =
      .ok f := toOption_eq_some.1 (by decide +kernel)
  exact ⟨hcompile, (compile_source_iff hcompile).2 (by decide +kernel)⟩

/-- A file that is compiled from its canonical form is compiled from it in every round. -/
theorem regenerate_of_compile_source (h : compile f.source = .ok f) (rounds : Nat) :
    regenerate rounds f.source = List.replicate rounds (.ok f.source) := by
  induction rounds with
  | zero => rfl
  | succ rounds ih => rw [regenerate, h, List.replicate_succ, ← ih]

/-- What the canonical form of a compiled file compiles to, if it does, is compiled from its own
canonical form, and so in all further rounds. The two canonical forms differ in the values of
annotations at most. -/
theorem compile_source_stable (h₀ : compile source = .ok f₀) (h₁ : compile f₀.source = .ok f₁) :
    compile f₁.source = .ok f₁ ∧
      (∀ rounds, regenerate rounds f₁.source = List.replicate rounds (.ok f₁.source)) ∧
      Text.SameButValues f₀.source f₁.source := by
  have hreread := rereadOf_of_compile h₀ h₁
  have hagain : compile f₁.source = .ok f₁.unexported :=
    compile_source_of_straight h₁ hreread.spelled_left hreread.unsigned_left hreread.straight_left
  have hsame : f₁.unexported = f₁ := by
    rw [(compile_eq_ok_iff.1 h₁).2, ← File.ofNamed_unexported, hreread.unexported_left]
  rw [hsame] at hagain
  exact ⟨hagain, regenerate_of_compile_source hagain, hreread.text⟩

/-- A quotient of a quotient moves to the left in the first round, with another value, and stays
there from then on. -/
theorem compile_source_of_nested_quotient :
    let file (expr : Expr Symbol) (v : Int32) : File :=
      { names := ⟨[['a']]⟩
        listing := { defines := [{ name := ⟨0⟩, expr := expr, value := some v }] } }
    let quotient (l r : Expr Symbol) : Expr Symbol := .binary .div l r false
    let f₀ := file (quotient (.literal 8) (quotient (.literal 4) (.literal 2))) 4
    let f₁ := file (quotient (quotient (.literal 8) (.literal 4)) (.literal 2)) 1
    compile ".define a 8/(4/2)".toList = .ok f₀ ∧ compile f₀.source = .ok f₁ ∧
      compile f₁.source = .ok f₁ ∧ Text.SameButValues f₀.source f₁.source := by
  intro file quotient f₀ f₁
  have h₀ : compile ".define a 8/(4/2)".toList = .ok f₀ := toOption_eq_some.1 (by decide +kernel)
  have h₁ : compile f₀.source = .ok f₁ := toOption_eq_some.1 (by decide +kernel)
  obtain ⟨hstable, -, htext⟩ := compile_source_stable h₀ h₁
  exact ⟨h₀, h₁, hstable, htext⟩

/-! ### Canonical forms that compile -/

/-- The qualifier of a define is not printed. -/
theorem Define.print_unexported (d : Define Text) : d.unexported.print = d.print := by
  have hcomment : d.unexported.annotation = d.annotation := by
    rw [unexported, annotation, annotation]
  unfold print
  rw [hcomment]
  congr 1

/-- The canonical form of a listing is that of its defines, in its place. -/
theorem Listing.print_mapDefines {c : Define Text → Define Text} {l : Listing Text}
    (h : ∀ d ∈ l.allDefines, (c d).print = d.print) : (l.mapDefines c).print = l.print := by
  have hdefines : ∀ ds : List (Define Text), ds ⊆ l.allDefines →
      Define.printAll (ds.map c) = Define.printAll ds := by
    intro ds hsubset
    rw [Define.printAll, Define.printAll, List.flatMap_map]
    exact List.flatMap_congr fun d hd => congrArg (· ++ ['\n']) (h d (hsubset hd))
  have hprogram : ∀ p ∈ l.programs,
      Program.print { p with defines := p.defines.map c } = p.print := by
    intro p hp
    have hsubset : p.defines ⊆ l.allDefines := fun d hd =>
      List.mem_append_right _ (List.mem_flatMap.2 ⟨p, hp, hd⟩)
    unfold Program.print
    rw [hdefines _ hsubset]
  have hshared : l.defines ⊆ l.allDefines := fun d hd => List.mem_append_left _ hd
  have hprograms : (l.mapDefines c).programs.flatMap Program.print =
      l.programs.flatMap Program.print := by
    rw [mapDefines, List.flatMap_map]
    exact List.flatMap_congr hprogram
  rw [print, print, hprograms, mapDefines, hdefines _ hshared]

/-- The canonical form shows no qualifiers. -/
theorem File.source_unexported (f : File) : f.unexported.source = f.source := by
  rw [source, source, named_unexported]
  exact Listing.print_mapDefines fun d _ => d.print_unexported

/-- If no product or quotient in a compiled file is the right operand of one, then its canonical
form compiles exactly if no literal in it is negative and no name in it is spelled like a keyword.
It compiles to nothing but the same file without its qualifiers, which has the same canonical
form. -/
theorem exists_compile_source_iff (h : compile source = .ok f) (hstraight : f.named.Straight) :
    ((∃ f', compile f.source = .ok f') ↔ f.named.Unsigned ∧ f.named.Unreserved) ∧
      ∀ f', compile f.source = .ok f' → f' = f.unexported ∧ f'.source = f.source := by
  have hreread : ∀ f', compile f.source = .ok f' → f.named.Spelled ∧ f.named.Unsigned := by
    intro f' hagain
    have hreread := rereadOf_of_compile h hagain
    exact ⟨hreread.spelled, hreread.unsigned⟩
  refine ⟨⟨?_, ?_⟩, ?_⟩
  · rintro ⟨f', hagain⟩
    obtain ⟨hspelled, hunsigned⟩ := hreread f' hagain
    exact ⟨hunsigned, fun n hn => (hspelled n hn).2⟩
  · rintro ⟨hunsigned, hunreserved⟩
    have hnames := (grows_of_compile h).isName fun n hn => by cases hn
    have hspelled : f.named.Spelled := fun n hn => ⟨hnames n hn, hunreserved n hn⟩
    exact ⟨_, compile_source_of_straight h hspelled hunsigned hstraight⟩
  · intro f' hagain
    obtain ⟨hspelled, hunsigned⟩ := hreread f' hagain
    have hsame := compile_source_of_straight h hspelled hunsigned hstraight
    rw [hagain] at hsame
    cases hsame
    exact ⟨rfl, File.source_unexported f⟩

/-- A name that begins like a keyword can be read again, and so can a product of sums. -/
theorem exists_compile_source_of_optic :
    let a : Define Symbol :=
      { name := ⟨0⟩, exported := true, value := some 9
        expr := .binary .mul (.binary .add (.literal 1) (.literal 2) true) (.literal 3) false }
    let f : File := { names := ⟨["optic".toList]⟩, listing := { defines := [a] } }
    compile ".define PUBLIC optic (1+2)*3".toList = .ok f ∧ f.named.Straight ∧
      ∃ f', compile f.source = .ok f' ∧ f'.source = f.source := by
  intro a f
  have hcompile : compile ".define PUBLIC optic (1+2)*3".toList = .ok f :=
    toOption_eq_some.1 (by decide +kernel)
  have hstraight : f.named.Straight := by decide +kernel
  obtain ⟨hiff, hsame⟩ := exists_compile_source_iff hcompile hstraight
  obtain ⟨f', hagain⟩ := hiff.2 (by decide +kernel)
  exact ⟨hcompile, hstraight, f', hagain, (hsame f' hagain).2⟩

/-- A number that wraps is printed with a sign, which no expression can begin with. A name before a
comment is no keyword, but is one where it is printed before a line break. -/
theorem compile_source_refused :
    let a : Define Symbol := { name := ⟨0⟩, expr := .literal (-1), value := some (-1) }
    let f : File := { names := ⟨[['A']]⟩, listing := { defines := [a] } }
    let g : File := { names := ⟨["in".toList]⟩, listing := { programs := [{ name := ⟨0⟩ }] } }
    (compile ".define A 4294967295".toList = .ok f ∧ f.named.Straight ∧
      f.source = ".define A -1\n".toList ∧
      compile f.source = .error ⟨.expressionSyntax, ⟨1, 11⟩⟩) ∧
    compile ".program in;".toList = .ok g ∧ g.named.Straight ∧
      g.source = ".program in\n".toList ∧ compile g.source = .error ⟨.programSyntax, ⟨1, 1⟩⟩ := by
  intro a f g
  exact ⟨⟨by decide +kernel, by decide +kernel, by decide +kernel, by decide +kernel⟩,
    by decide +kernel, by decide +kernel, by decide +kernel, by decide +kernel⟩

end PioFrontEnd
