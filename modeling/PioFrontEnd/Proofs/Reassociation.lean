import PioFrontEnd.Proofs.Canonical.Survival
import PioFrontEnd.Proofs.Regeneration

/-!
# Compiling products that were grouped otherwise

The parentheses around a product are not printed, so an expression may come back from its canonical
form with its factors grouped anew. Where only factors of products are moved (`Expr.Reassociable`)
this does no harm: every define keeps its name, its place and its value, the annotations stay as
they are, and the canonical form is the same text in every further round.

* `compile_source_of_reassociable`: the canonical form compiles to the same file without qualifiers
  and with products and quotients grouped from the left, and nothing else has changed.
-/

namespace PioFrontEnd

/-- The file without qualifiers, and with products and quotients grouped from the left. -/
def File.regrouped (f : File) : File := { f with listing := f.listing.regrouped }

variable {source : Text} {f : File}

/-- Names have no part in regrouping. -/
theorem Define.map_regrouped {ν μ : Type} (r : ν → μ) (d : Define ν) :
    d.regrouped.map r = (d.map r).regrouped := by
  have hexpr : (d.expr.map r).regroup none = (d.expr.regroup none).map r :=
    Expr.regroup_map r none d.expr
  rw [regrouped, regrouped, map, map, hexpr]

/-- A file that is regrouped has its names regrouped. -/
theorem File.named_regrouped (f : File) : f.regrouped.named = f.named.regrouped :=
  Listing.map_mapDefines (Define.map_regrouped _) f.listing

/-- The file of a listing that is regrouped. -/
theorem File.ofNamed_regrouped (l : Listing Text) :
    File.ofNamed l.regrouped = (File.ofNamed l).regrouped :=
  File.ofNamed_mapDefines (c := Define.regrouped) (fun _ => rfl) (fun r => Define.map_regrouped r) l

/-- Regrouping is not visible in the canonical form of a define. Its value must be the one that is
there, since it is printed too. -/
theorem Define.print_regrouped {d : Define Text} (hshape : d.expr.Shaped false) :
    d.regrouped.print = d.print := by
  have hbody : (d.expr.regroup none).print = d.expr.print := Expr.print_regroup hshape none
  have hbinary : (d.expr.regroup none).isBinary = d.expr.isBinary := Expr.isBinary_regroup _ none
  rw [print_eq, print_eq, annotation_eq, annotation_eq]
  simp only [regrouped, hbody, hbinary]

/-- The canonical form of a compiled file is the one that it has regrouped. -/
theorem File.source_regrouped (h : compile source = .ok f) : f.regrouped.source = f.source := by
  have hshaped : ∀ d ∈ f.named.allDefines, d.expr.Shaped false :=
    (grows_of_compile h).shaped fun d hd => by cases hd
  rw [File.source, File.source, File.named_regrouped]
  exact Listing.print_mapDefines fun d hd => Define.print_regrouped (hshaped d hd)

/-- **Parentheses around products do no harm.** Let no literal in a compiled file be negative and no
name in it be spelled like a keyword, and let every product or quotient that is the right operand of
one be a factor of a product and made of products only. Then the canonical form compiles, to the same
file without qualifiers and with products and quotients grouped from the left. Every define has the
name, the place and the value that it had, the programs have their names, and the canonical form is
the same again. -/
theorem compile_source_of_reassociable (h : compile source = .ok f) (hunsigned : f.named.Unsigned)
    (hunreserved : f.named.Unreserved) (hproducts : f.named.Reassociable) :
    ∃ f', compile f.source = .ok f' ∧ f' = f.regrouped ∧
      (∀ place, (f'.named.at? place).map (fun d => (d.name, d.value)) =
        (f.named.at? place).map fun d => (d.name, d.value)) ∧
      f'.named.programs.map Program.name = f.named.programs.map Program.name ∧
      f'.source = f.source := by
  have hnames := (grows_of_compile h).isName fun n hn => by cases hn
  have hspelled : f.named.Spelled := fun n hn => ⟨hnames n hn, hunreserved n hn⟩
  have hlines : ({} : Listing Text).takeLines (TokenStream.ofText f.source).lines =
      .ok f.named.regrouped :=
    (grows_of_compile h).regroups hspelled hunsigned hproducts (TokenStream.fresh_ofText _) rfl
  have hcompile : compile f.source = .ok f.regrouped := by
    refine compile_eq_ok_iff.2 ⟨?_, ?_⟩
    · rw [File.named_regrouped, hlines]
    · rw [File.named_regrouped, File.ofNamed_regrouped, ← (compile_eq_ok_iff.1 h).2]
  refine ⟨_, hcompile, rfl, fun place => ?_, ?_, File.source_regrouped h⟩
  · rw [File.named_regrouped, Listing.regrouped, Listing.at?_mapDefines, Option.map_map]
    rfl
  · rw [File.named_regrouped, Listing.regrouped, Listing.mapDefines, List.map_map]
    rfl

/-- A product of three factors, the first of them a quotient, is grouped from the left. The define
that uses it has the value that it had. -/
theorem compile_source_of_nested_product :
    let product (l r : Expr Symbol) : Expr Symbol := .binary .mul l r false
    let quotient : Expr Symbol := .binary .div (.literal 7) (.literal 2) false
    let file (a b : Expr Symbol) : File :=
      { names := ⟨[['a'], ['p'], ['b']]⟩
        listing :=
          { defines := [{ name := ⟨0⟩, expr := a, value := some 90 }]
            programs := [{ name := ⟨1⟩, defines :=
              [{ name := ⟨2⟩, expr := b, value := some 360 }] }] } }
    let f := file (product quotient (product (.literal 3) (product (.literal 5) (.literal 2))))
      (product (.name ⟨0⟩) (product (.literal 4) (.literal 1)))
    let f' := file
      (product (product (product quotient (.literal 3)) (.literal 5)) (.literal 2))
      (product (product (.name ⟨0⟩) (.literal 4)) (.literal 1))
    compile ".define a 7/2*(3*(5*2))\n.program p\n.define b a*(4*1)".toList = .ok f ∧
      f.named.Reassociable ∧ ¬ f.named.Straight ∧ compile f.source = .ok f' ∧
      f'.source = f.source := by
  intro product quotient file f f'
  have hcompile : compile ".define a 7/2*(3*(5*2))\n.program p\n.define b a*(4*1)".toList = .ok f :=
    toOption_eq_some.1 (by decide +kernel)
  have hproducts : f.named.Reassociable := by decide +kernel
  obtain ⟨g, hagain, hg, -, -, hsource⟩ :=
    compile_source_of_reassociable hcompile (by decide +kernel) (by decide +kernel) hproducts
  obtain rfl : g = f' := hg
  exact ⟨hcompile, hproducts, by decide +kernel, hagain, hsource⟩

end PioFrontEnd
