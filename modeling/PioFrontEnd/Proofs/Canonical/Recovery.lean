import PioFrontEnd.Proofs.Canonical.Growth
import PioFrontEnd.Proofs.Canonical.Products

/-!
# What a canonical source makes

The canonical form of a listing is read with a second listing, which grows by a program or a define
for every line. If all lines are taken, the second listing has the names of the first one, no
qualifiers, and the same expressions with products and quotients grouped from the left
(`Listing.RereadOf`). It has the same values too if nothing but factors of products is moved by
that (`Listing.regrouped`), and the same expressions if the first one was grouped like that already.

* `Grows.rereads`: what is read if all lines are taken. Then no literal was negative, and no name
  was spelled like a keyword.
* `RereadOf.spelled_left`, `RereadOf.unsigned_left`, `RereadOf.straight_left`,
  `RereadOf.unexported_left`: what is read is such that it can be read again, and is then restored.
* `Grows.regroups`: when all lines are taken with the same values, and what they make then.
* `Grows.restores`: what they make if all products and quotients are grouped from the left.
-/

namespace PioFrontEnd

/-! ### Listings without qualifiers -/

/-- The define without its qualifier. -/
def Define.unexported {ν : Type} (d : Define ν) : Define ν := { d with exported := false }

/-- The qualifier of a define is not part of its name. -/
theorem Define.name_unexported {ν : Type} (d : Define ν) : d.unexported.name = d.name := rfl

/-- Names can be changed before or after a qualifier is dropped. -/
theorem Define.map_unexported {ν μ : Type} (f : ν → μ) (d : Define ν) :
    d.unexported.map f = (d.map f).unexported := rfl

/-- The listing without qualifiers. -/
def Listing.unexported {ν : Type} (l : Listing ν) : Listing ν := l.mapDefines Define.unexported

/-- The define without its qualifier, and with its products and quotients grouped from the left. -/
def Define.regrouped {ν : Type} (d : Define ν) : Define ν :=
  { d with exported := false, expr := d.expr.regroup none }

/-- The listing without qualifiers, and with products and quotients grouped from the left. -/
def Listing.regrouped {ν : Type} (l : Listing ν) : Listing ν := l.mapDefines Define.regrouped

/-- What a define becomes when it is printed and read, but for its value. -/
def Define.reread (d : Define Text) : Define Text :=
  { name := d.name, exported := false, expr := d.expr.regroup none, value := none }

/-! ### Texts that differ in annotations -/

/-- The annotation of a value. -/
def Text.annotate : Option Int32 → Text
  | none => []
  | some v => " ; = ".toList ++ Decimal.write v

/-- Whether two texts have the same lines, but for the values in annotations at their ends. -/
def Text.SameButValues (s t : Text) : Prop :=
  ∃ lines : List (Text × Option (Int32 × Int32)),
    s = lines.flatMap (fun line => line.1 ++ annotate (line.2.map Prod.fst) ++ ['\n']) ∧
      t = lines.flatMap (fun line => line.1 ++ annotate (line.2.map Prod.snd) ++ ['\n'])

/-- Texts that differ in values alone differ in them alone when they are put together. -/
theorem Text.SameButValues.append {s s' t t' : Text} (h : SameButValues s t)
    (h' : SameButValues s' t') : SameButValues (s ++ s') (t ++ t') := by
  obtain ⟨lines, rfl, rfl⟩ := h
  obtain ⟨lines', rfl, rfl⟩ := h'
  exact ⟨lines ++ lines', by rw [List.flatMap_append], by rw [List.flatMap_append]⟩

/-- A line without annotation differs from itself in nothing. -/
theorem Text.sameButValues_line (line : Text) :
    SameButValues (line ++ ['\n']) (line ++ ['\n']) :=
  ⟨[(line, none)], by simp [annotate], by simp [annotate]⟩

/-- A define is annotated with its value if its expression is an operation. -/
theorem Define.annotation_eq (d : Define Text) :
    d.annotation = Text.annotate (if d.expr.isBinary then d.value else none) := by
  unfold annotation
  cases d.expr.isBinary <;> cases d.value <;> rfl

/-- A define that has been printed and read is printed alike, but for its value. -/
theorem Define.sameButValues_print {d d' : Define Text} {v v' : Int32}
    (hshape : d.expr.Shaped false)
    (hvalue : d.value = some v) (hvalue' : d'.value = some v')
    (hd' : d'.withoutValue = d.reread) :
    Text.SameButValues (d.print ++ ['\n']) (d'.print ++ ['\n']) := by
  obtain ⟨name', exported', expr', value'⟩ := d'
  have hv : value' = some v' := hvalue'
  subst hv
  cases hd'
  have hbody : (d.expr.regroup none).print = d.expr.print := Expr.print_regroup hshape none
  have hbinary : (d.expr.regroup none).isBinary = d.expr.isBinary := Expr.isBinary_regroup _ none
  refine ⟨[(".define ".toList ++ d.name ++ [' '] ++ d.expr.print,
    if d.expr.isBinary then some (v, v') else none)], ?_, ?_⟩
  · rw [print_eq, annotation_eq, hvalue]
    cases d.expr.isBinary <;> simp
  · rw [print_eq, annotation_eq]
    simp only [hbody, hbinary]
    cases d.expr.isBinary <;> simp

/-! ### What a listing has to be like -/

namespace Listing

variable {l l' l₀ l₁ l₀' l₁' : Listing Text} {text : Text} {s : TokenStream}

/-- Whether no literal of a listing is negative. -/
def Unsigned (l : Listing Text) : Prop := ∀ d ∈ l.allDefines, ∀ v ∈ d.expr.literals, ¬ v < 0

/-- Whether no program and no define has a name that is spelled like a keyword. -/
def Unreserved (l : Listing Text) : Prop := ∀ n ∈ l.declared, ¬ IsKeyword n

/-- Whether no product or quotient in a listing is the right operand of one. -/
def Straight (l : Listing Text) : Prop := ∀ d ∈ l.allDefines, d.expr.Straight

/-- Whether in a listing every product or quotient that is the right operand of one is a factor of a
product and made of products only. -/
def Reassociable (l : Listing Text) : Prop := ∀ d ∈ l.allDefines, d.expr.Reassociable

instance (l : Listing Text) : Decidable l.Unsigned :=
  decidable_of_iff (l.allDefines.all fun d => d.expr.literals.all fun v => !decide (v < 0))
    (by simp only [Unsigned, List.all_eq_true, Bool.not_eq_true', decide_eq_false_iff_not])

instance (l : Listing Text) : Decidable l.Unreserved :=
  inferInstanceAs (Decidable (∀ n ∈ l.declared, ¬ IsKeyword n))

instance (l : Listing Text) : Decidable l.Straight :=
  inferInstanceAs (Decidable (∀ d ∈ l.allDefines, d.expr.Straight))

instance (l : Listing Text) : Decidable l.Reassociable :=
  inferInstanceAs (Decidable (∀ d ∈ l.allDefines, d.expr.Reassociable))

/-- A name with which a define is found is declared. -/
theorem mem_declared_of_find? {name : Text} (h : (l.find? name).isSome = true) :
    name ∈ l.declared := by
  obtain ⟨d, hd⟩ := Option.isSome_iff_exists.1 h
  rw [← name_of_find? hd]
  exact mem_declared_of_mem_visible (List.mem_of_find?_eq_some hd)

/-- A search by name finds the changed define, if the change leaves names as they are. -/
theorem find?_mapDefines {f : Define Text → Define Text} (hf : ∀ d, (f d).name = d.name)
    (l : Listing Text) (name : Text) : (l.mapDefines f).find? name = (l.find? name).map f := by
  have hname : ((fun d : Define Text => decide (d.name = name)) ∘ f) =
      fun d => decide (d.name = name) := funext fun d => by rw [Function.comp_apply, hf]
  rw [find?, visible_mapDefines, List.find?_map, hname, find?]

/-! ### What growth keeps -/

/-- Names that are declared stay declared. -/
theorem Grows.declared_subset (h : l.Grows text l') : l.declared ⊆ l'.declared := by
  induction h with
  | refl => exact List.Subset.refl _
  | @program l _ name _ _ _ _ ih =>
    rw [declared_addProgram] at ih
    exact List.Subset.trans (List.subset_append_left _ _) ih
  | @define l _ d _ _ _ _ _ _ _ _ _ ih =>
    rw [declared_append] at ih
    exact List.Subset.trans (List.subset_append_left _ _) ih

/-- Defines stay. -/
theorem Grows.allDefines_subset (h : l.Grows text l') : l.allDefines ⊆ l'.allDefines := by
  induction h with
  | refl => exact List.Subset.refl _
  | program _ _ _ ih =>
    rw [allDefines_addProgram] at ih
    exact ih
  | define _ _ _ _ _ _ _ ih =>
    rw [allDefines_append] at ih
    exact List.Subset.trans (List.subset_append_left _ _) ih

/-- Whatever is declared in the end was declared before, or is spelled as names are. -/
theorem Grows.isName (h : l.Grows text l') (hl : ∀ n ∈ l.declared, IsName n) :
    ∀ n ∈ l'.declared, IsName n := by
  induction h with
  | refl => exact hl
  | program hname _ _ ih => exact ih (forall_declared_addProgram.2 ⟨hl, hname⟩)
  | define hname _ _ _ _ _ _ ih => exact ih (forall_declared_append.2 ⟨hl, hname⟩)

/-- Every expression that comes to a listing has the shape of an expression that was read. -/
theorem Grows.shaped (h : l.Grows text l') (hl : ∀ d ∈ l.allDefines, d.expr.Shaped false) :
    ∀ d ∈ l'.allDefines, d.expr.Shaped false := by
  induction h with
  | refl => exact hl
  | @program l _ name _ _ _ _ ih =>
    rw [allDefines_addProgram] at ih
    exact ih hl
  | define _ hshape _ _ _ _ _ ih => exact ih (forall_allDefines_append.2 ⟨hl, hshape⟩)

/-! ### The listing that is read back -/

/-- Whether a listing can be what is read from the canonical form of another one. It agrees with it
but for values, qualifiers and the grouping of products, and is printed alike but for values. -/
structure RereadOf (l₁ l₀ : Listing Text) : Prop where
  /-- The names of the other one are found again. -/
  spelled : l₀.Spelled
  /-- So are its literals. -/
  unsigned : l₀.Unsigned
  /-- Its expressions have the shape of expressions that were read. -/
  shaped : ∀ d ∈ l₀.allDefines, d.expr.Shaped false
  /-- But for values it has become what the other one becomes. -/
  agree : l₁.withoutValues = l₀.mapDefines Define.reread
  /-- It is printed alike. -/
  text : Text.SameButValues l₀.print l₁.print

namespace RereadOf

/-- Nothing is read from nothing. -/
theorem empty : RereadOf {} {} where
  spelled n hn := by cases hn
  unsigned d hd := by cases hd
  shaped d hd := by cases hd
  agree := rfl
  text := ⟨[], rfl, rfl⟩

/-- What is read back declares the same visible names. -/
theorem isSome_find? (h : l₁.RereadOf l₀) (name : Text) :
    (l₁.find? name).isSome = (l₀.find? name).isSome := by
  have hfind := congrArg (fun l => l.find? name) h.agree
  simp only [withoutValues, find?_mapDefines (f := Define.withoutValue) (fun _ => rfl),
    find?_mapDefines (f := Define.reread) (fun _ => rfl)] at hfind
  rw [← Option.isSome_map (f := Define.withoutValue), hfind, Option.isSome_map]

/-- A program is read back. -/
theorem addProgram (h : l₁.RereadOf l₀) {name : Text} (hname : IsName name)
    (hkey : ¬ IsKeyword name) : (l₁.addProgram name).RereadOf (l₀.addProgram name) where
  spelled := forall_declared_addProgram.2 ⟨h.spelled, hname, hkey⟩
  unsigned := by
    unfold Unsigned
    rw [allDefines_addProgram]
    exact h.unsigned
  shaped := by
    rw [allDefines_addProgram]
    exact h.shaped
  agree := by
    rw [withoutValues, mapDefines_addProgram, ← withoutValues, mapDefines_addProgram, h.agree]
  text := by
    rw [print_addProgram, print_addProgram]
    exact h.text.append (Text.sameButValues_line _)

/-- A define is read back. -/
theorem append (h : l₁.RereadOf l₀) {d d' : Define Text} {v v' : Int32} (hname : IsName d.name)
    (hkey : ¬ IsKeyword d.name) (hnonneg : ∀ v ∈ d.expr.literals, ¬ v < 0)
    (hshape : d.expr.Shaped false) (hvalue : d.value = some v) (hvalue' : d'.value = some v')
    (hd' : d'.withoutValue = d.reread) : (l₁.append d').RereadOf (l₀.append d) where
  spelled := forall_declared_append.2 ⟨h.spelled, hname, hkey⟩
  unsigned := forall_allDefines_append.2 ⟨h.unsigned, hnonneg⟩
  shaped := forall_allDefines_append.2 ⟨h.shaped, hshape⟩
  agree := by
    rw [withoutValues, mapDefines_append, ← withoutValues, mapDefines_append, h.agree, hd']
  text := by
    rw [print_append, print_append]
    exact h.text.append (Define.sameButValues_print hshape hvalue hvalue' hd')

/-- Every define that is read is what one of the others becomes. -/
theorem exists_reread (h : l₁.RereadOf l₀) {d' : Define Text} (hd' : d' ∈ l₁.allDefines) :
    ∃ d ∈ l₀.allDefines, d'.withoutValue = d.reread := by
  have hdefines := congrArg allDefines h.agree
  rw [withoutValues, allDefines_mapDefines, allDefines_mapDefines] at hdefines
  have hmem : d'.withoutValue ∈ l₀.allDefines.map Define.reread := by
    rw [← hdefines]
    exact List.mem_map_of_mem hd'
  obtain ⟨d, hd, heq⟩ := List.mem_map.1 hmem
  exact ⟨d, hd, heq.symm⟩

/-- The names that are read are those of the other listing. -/
theorem declared_eq (h : l₁.RereadOf l₀) : l₁.declared = l₀.declared := by
  rw [← declared_mapDefines (f := Define.withoutValue) (fun _ => rfl), ← withoutValues, h.agree,
    declared_mapDefines (f := Define.reread) fun _ => rfl]

/-- What is read can be read again. -/
theorem spelled_left (h : l₁.RereadOf l₀) : l₁.Spelled := by
  unfold Spelled
  rw [h.declared_eq]
  exact h.spelled

/-- The literals that are read are not negative either. -/
theorem unsigned_left (h : l₁.RereadOf l₀) : l₁.Unsigned := by
  intro d' hd' v hv
  obtain ⟨d, hd, heq⟩ := h.exists_reread hd'
  have hexpr : d'.expr = d.expr.regroup none := congrArg Define.expr heq
  rw [hexpr, Expr.literals_regroup] at hv
  exact h.unsigned d hd v hv

/-- Products and quotients are grouped from the left once they have been read. -/
theorem straight_left (h : l₁.RereadOf l₀) : l₁.Straight := by
  intro d' hd'
  obtain ⟨d, -, heq⟩ := h.exists_reread hd'
  have hexpr : d'.expr = d.expr.regroup none := congrArg Define.expr heq
  rw [hexpr]
  exact Expr.straight_regroup d.expr (by simp)

/-- Nothing that is read has a qualifier. -/
theorem unexported_left (h : l₁.RereadOf l₀) : l₁.unexported = l₁ := by
  have hsame : ∀ d' ∈ l₁.allDefines, d'.unexported = id d' := by
    intro d' hd'
    obtain ⟨d, -, heq⟩ := h.exists_reread hd'
    have hexported : d'.exported = false := congrArg Define.exported heq
    rw [Define.unexported, ← hexported, id]
  rw [unexported, mapDefines_congr hsame, mapDefines_id]

end RereadOf

/-- When the lines of a growth are read and all of them are taken, the outcome is what can be read
from the canonical form of the grown listing. -/
theorem Grows.rereads (h : l₀.Grows text l₀') (hreread : l₁.RereadOf l₀) (hfresh : s.Fresh)
    (hs : s.rest = text) (htaken : l₁.takeLines s.lines = .ok l₁') : l₁'.RereadOf l₀' := by
  induction h generalizing l₁ s with
  | refl =>
    rw [TokenStream.lines_of_end hfresh hs] at htaken
    cases htaken
    exact hreread
  | @program l₀ _ name text hname hnew _ ih =>
    obtain ⟨s', hfresh', hs', htake⟩ := takeLines_program hfresh hname hs
    have htaken' := htake l₁
    rw [htaken] at htaken'
    by_cases hkey : IsKeyword name
    · rw [if_pos hkey] at htaken'
      cases htaken'
    · rw [if_neg hkey] at htaken'
      obtain ⟨l₂, hbegin, hrest⟩ := Option.bind_eq_some_iff.1 htaken'.symm
      obtain ⟨-, rfl⟩ := beginProgram_eq_ok.1 (toOption_eq_some.1 hbegin)
      exact ih (hreread.addProgram hname hkey) hfresh' hs' (toOption_eq_some.1 hrest)
  | @define l₀ _ d v text hname hshape hseen hvalue heval hnew _ ih =>
    have hnames : ∀ n ∈ d.expr.names, IsName n ∧ ¬ IsKeyword n := fun n hn =>
      hreread.spelled n (mem_declared_of_find? (hseen n hn))
    obtain ⟨s', hfresh', hs', htake⟩ := takeLines_define hfresh hname hshape hnames hs
    have htaken' := htake l₁ fun n hn => (hreread.isSome_find? n).trans (hseen n hn)
    rw [htaken] at htaken'
    by_cases hbad : IsKeyword d.name ∨ ∃ v ∈ d.expr.literals, v < 0
    · rw [if_pos hbad] at htaken'
      cases htaken'
    · rw [if_neg hbad] at htaken'
      obtain ⟨hkey, hsign⟩ := not_or.1 hbad
      obtain ⟨l₂, hdefine, hrest⟩ := Option.bind_eq_some_iff.1 htaken'.symm
      obtain ⟨v', -, -, rfl⟩ := defineConstant_eq_ok.1 (toOption_eq_some.1 hdefine)
      have hnonneg : ∀ v ∈ d.expr.literals, ¬ v < 0 := fun v hv hneg => hsign ⟨v, hv, hneg⟩
      exact ih (hreread.append hname hkey hnonneg hshape hvalue rfl rfl) hfresh' hs'
        (toOption_eq_some.1 hrest)

/-! ### The listing that is restored -/

/-- A search by name finds the define regrouped. -/
theorem find?_regrouped (l : Listing Text) (name : Text) :
    l.regrouped.find? name = (l.find? name).map Define.regrouped :=
  find?_mapDefines (f := Define.regrouped) (fun _ => rfl) l name

/-- Names have the same values in the listing regrouped. -/
theorem valueOf_regrouped (l : Listing Text) : l.regrouped.valueOf = l.valueOf := by
  funext name
  rw [valueOf, valueOf, find?_regrouped]
  cases l.find? name <;> rfl

/-- When nothing stands in the way and nothing but factors of products is moved, the lines of a
growth make the grown listing regrouped. -/
theorem Grows.regroups (h : l.Grows text l') (hspelled : l'.Spelled) (hunsigned : l'.Unsigned)
    (hproducts : l'.Reassociable) (hfresh : s.Fresh) (hs : s.rest = text) :
    l.regrouped.takeLines s.lines = .ok l'.regrouped := by
  induction h generalizing s with
  | refl =>
    rw [TokenStream.lines_of_end hfresh hs]
    rfl
  | @program l l' name text hname hnew hrest ih =>
    obtain ⟨s', hfresh', hs', htake⟩ := takeLines_program hfresh hname hs
    have hmem : name ∈ l'.declared := hrest.declared_subset (by simp [declared_addProgram])
    have hbegin : l.regrouped.beginProgram name = .ok (l.addProgram name).regrouped := by
      refine beginProgram_eq_ok.2 ⟨?_, mapDefines_addProgram _ _ _⟩
      rw [regrouped, isSome_program?_mapDefines, hnew]
    apply toOption_eq_some.1
    rw [htake, if_neg (hspelled name hmem).2, hbegin]
    exact toOption_eq_some.2 (ih hspelled hunsigned hproducts hfresh' hs')
  | @define l l' d v text hname hshape hseen hvalue heval hnew hrest ih =>
    have hmem : d.name ∈ l'.declared := hrest.declared_subset (by simp [declared_append])
    have hdefine : d ∈ l'.allDefines := hrest.allDefines_subset (by simp [allDefines_append])
    have hsubset : l.declared ⊆ l'.declared := fun n hn =>
      hrest.declared_subset (by simp [declared_append, hn])
    have hnames : ∀ n ∈ d.expr.names, IsName n ∧ ¬ IsKeyword n := fun n hn =>
      hspelled n (hsubset (mem_declared_of_find? (hseen n hn)))
    obtain ⟨s', hfresh', hs', htake⟩ := takeLines_define hfresh hname hshape hnames hs
    have hfind : ∀ n, (l.regrouped.find? n).isSome = (l.find? n).isSome := by
      intro n
      rw [find?_regrouped, Option.isSome_map]
    have hgood : ¬ (IsKeyword d.name ∨ ∃ v ∈ d.expr.literals, v < 0) := by
      rintro (hkey | ⟨v, hv, hneg⟩)
      · exact (hspelled d.name hmem).2 hkey
      · exact hunsigned d hdefine v hv hneg
    have hadd : l.regrouped.defineConstant false d.name (d.expr.regroup none) =
        .ok (l.append d).regrouped := by
      refine defineConstant_eq_ok.2 ⟨v, ?_, ?_, ?_⟩
      · rw [valueOf_regrouped, Expr.valueUnder_regroup (hproducts d hdefine) (by simp)]
        exact heval
      · rw [hfind, hnew]
      · rw [regrouped, mapDefines_append, Define.regrouped, hvalue]
        rfl
    apply toOption_eq_some.1
    rw [htake _ fun n hn => (hfind n).trans (hseen n hn), if_neg hgood, hadd]
    exact toOption_eq_some.2 (ih hspelled hunsigned hproducts hfresh' hs')

/-- Where products and quotients are grouped from the left already, only qualifiers are lost. -/
theorem regrouped_of_straight (hshaped : ∀ d ∈ l.allDefines, d.expr.Shaped false)
    (hstraight : l.Straight) : l.regrouped = l.unexported := by
  refine mapDefines_congr fun d hd => ?_
  rw [Define.regrouped, Expr.regroup_of_straight (hshaped d hd) (hstraight d hd), Define.unexported]

/-- When nothing stands in the way, the lines of a listing that has grown from nothing restore it, but
for its qualifiers. -/
theorem Grows.restores (h : ({} : Listing Text).Grows text l') (hspelled : l'.Spelled)
    (hunsigned : l'.Unsigned) (hstraight : l'.Straight) (hfresh : s.Fresh) (hs : s.rest = text) :
    ({} : Listing Text).takeLines s.lines = .ok l'.unexported := by
  have hproducts : l'.Reassociable := fun d hd => (hstraight d hd).reassociable
  rw [← regrouped_of_straight (h.shaped fun d hd => by cases hd) hstraight]
  exact h.regroups hspelled hunsigned hproducts hfresh hs

end Listing

end PioFrontEnd
