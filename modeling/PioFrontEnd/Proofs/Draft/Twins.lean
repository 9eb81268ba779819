import PioFrontEnd.Proofs.Draft.Meanings
import PioFrontEnd.Proofs.Listing
import PioFrontEnd.Statement

/-!
# Drafts that differ in their stored values only

Two drafts are twins (`Draft.Twins`) if they have the same names, scopes and defines, and are sound
for the same meanings, while different defines may have their values stored. Which values are stored
is decided by what was evaluated before; whatever is done with twins next, they answer alike and
remain twins.

* `Twins.evaluate`: evaluating in one of the twins, or in both, leaves twins.
* `Twins.takeLine`: twins take a line alike, and the defines that it adds have the same meanings.
-/

namespace PioFrontEnd

namespace Draft

/-! ### Agreement -/

/-- The drafts differ in the values of defines at most. -/
structure Agrees (d e : Draft) : Prop where
  /-- The same names have been entered. -/
  names : d.file.names = e.file.names
  /-- The same names are visible, in the same places. -/
  scopes : d.scopes = e.scopes
  /-- The same defines are there, values apart. -/
  listing : d.file.listing.withoutValues = e.file.listing.withoutValues

/-- The drafts agree and are sound for the same meanings. -/
structure Twins (meanings : Meanings) (d e : Draft) : Prop where
  /-- The first draft is sound. -/
  left : d.Sound meanings
  /-- The second draft is sound. -/
  right : e.Sound meanings
  /-- They differ in values at most. -/
  agrees : d.Agrees e

/-- The second draft holds what the first one held, with the same meanings, and further defines, all
of them with a value. -/
structure Advances (d : Draft) (meanings : Meanings) (d' : Draft) (meanings' : Meanings) :
    Prop where
  /-- Defines stay where they are, and keep their meaning and their value, if they have one. -/
  kept : ∀ {place define}, d.file.listing.at? place = some define →
    (∃ define', d'.file.listing.at? place = some define' ∧
      (define.value ≠ none → define'.value ≠ none)) ∧ meanings' place = meanings place
  /-- Where nothing was before, nothing is now, or a define with a value. -/
  added : ∀ {place define}, d.file.listing.at? place = none →
    d'.file.listing.at? place = some define → define.value ≠ none

namespace Advances

variable {d d' d'' : Draft} {meanings meanings' meanings'' : Meanings}

/-- A draft with the same listing is an advance. -/
theorem of_listing_eq (h : d'.file.listing = d.file.listing) :
    d.Advances meanings d' meanings where
  kept hat := ⟨⟨_, h ▸ hat, id⟩, rfl⟩
  added hnone hat := by
    rw [h, hnone] at hat
    cases hat

/-- Storing meanings is an advance. -/
theorem of_caches (h : Caches meanings d d') : d.Advances meanings d' meanings where
  kept {place define} hat := by
    obtain ⟨define', hat'⟩ := h.exists_at? hat
    refine ⟨⟨define', hat', fun hvalue => ?_⟩, rfl⟩
    obtain ⟨define₀, hat₀, rfl | ⟨v, -, rfl⟩⟩ := h.at?_eq hat'
    · rw [hat] at hat₀
      cases hat₀
      exact hvalue
    · simp
  added {place define'} hnone hat := by
    obtain ⟨define, hat₀, -⟩ := h.at?_eq hat
    rw [hnone] at hat₀
    cases hat₀

/-- Advances can be composed. -/
theorem trans (h : d.Advances meanings d' meanings')
    (h' : d'.Advances meanings' d'' meanings'') : d.Advances meanings d'' meanings'' where
  kept hat := by
    obtain ⟨⟨define', hat', hvalue'⟩, hm⟩ := h.kept hat
    obtain ⟨⟨define'', hat'', hvalue''⟩, hm'⟩ := h'.kept hat'
    exact ⟨⟨define'', hat'', fun hv => hvalue'' (hvalue' hv)⟩, hm'.trans hm⟩
  added {place define} hnone hat := by
    cases hmiddle : d'.file.listing.at? place with
    | none => exact h'.added hmiddle hat
    | some define' =>
      obtain ⟨⟨define'', hat'', hvalue⟩, -⟩ := h'.kept hmiddle
      rw [hat] at hat''
      cases hat''
      exact hvalue (h.added hnone hmiddle)

end Advances

/-! ### Sound drafts stay sound -/

/-- The meanings after a define has been added: its value, or else what its expression comes to. -/
def meaningsWith (d : Draft) (meanings : Meanings) (define : Define Symbol) : Meanings :=
  fun place =>
    if place = d.file.listing.nextPlace d.scopes.current then
      match define.value with
      | some v => .ok v
      | none => define.expr.valueUnder (d.meaningOf meanings)
    else meanings place

namespace Sound

variable {d d' : Draft} {meanings : Meanings}

/-- A draft in which nothing was defined stays sound. -/
theorem of_at?_eq (h : d.Sound meanings) (hc : d'.Consistent)
    (hat : ∀ place, d'.file.listing.at? place = d.file.listing.at? place) : d'.Sound meanings :=
  h.extend hc (fun hold => ⟨(hat _).trans hold, rfl⟩) fun hnew hnone => by
    rw [hat, hnone] at hnew
    cases hnew

/-- Meanings that are sound stay so when a name is entered. -/
theorem intern (h : d.Sound meanings) (name : Text) : (d.intern name).2.Sound meanings :=
  h.of_at?_eq (h.consistent.intern name) fun _ => rfl

/-- Meanings that are sound stay so when a program is opened. -/
theorem openProgram (h : d.Sound meanings) {name : Symbol} (ho : d.openProgram name = some d') :
    d'.Sound meanings := by
  refine h.of_at?_eq (h.consistent.openProgram ho) fun place => ?_
  obtain ⟨scopes, -, rfl⟩ := openProgram_eq_some ho
  exact Listing.at?_addProgram _ _ _

/-- A define may be added if it has a value, or if all names in it are visible. -/
theorem addDefine (h : d.Sound meanings) {define : Define Symbol}
    (hvisible : define.value = none → ∀ n ∈ define.expr.names, d.scopes.isVisible n = true)
    (ha : d.addDefine define = some d') : d'.Sound (d.meaningsWith meanings define) := by
  have hat := h.consistent.at?_addDefine ha
  refine h.extend (h.consistent.addDefine ha) (fun {place define₀} hold => ?_)
    (fun {place define₀} hnew hnone => ?_)
  · have hne := Listing.ne_nextPlace hold d.scopes.current
    exact ⟨by rw [hat, if_neg hne, hold], by rw [meaningsWith, if_neg hne]⟩
  · rw [hat] at hnew
    split at hnew
    · rename_i hplace
      cases hnew
      subst hplace
      refine ⟨fun v hv => by simp [meaningsWith, hv], fun hvalue =>
        ⟨h.consistent.namesBefore_nextPlace (hvisible hvalue), ?_⟩⟩
      simp [meaningsWith, hvalue, meaningOf_eq_meaningIn, Listing.nextPlace]
    · rw [hnone] at hnew
      cases hnew

end Sound

/-- Adding a define with a value is an advance. -/
theorem Advances.of_addDefine {d d' : Draft} {meanings : Meanings} {define : Define Symbol}
    (hc : d.Consistent) (ha : d.addDefine define = some d') (hvalue : define.value ≠ none) :
    d.Advances meanings d' (d.meaningsWith meanings define) := by
  have hat := hc.at?_addDefine ha
  refine ⟨fun {place define₀} hold => ?_, fun {place define₀} hnone hnew => ?_⟩
  · have hne := Listing.ne_nextPlace hold d.scopes.current
    exact ⟨⟨define₀, by rw [hat, if_neg hne, hold], id⟩, by rw [meaningsWith, if_neg hne]⟩
  · rw [hat] at hnew
    split at hnew
    · cases hnew
      exact hvalue
    · rw [hnone] at hnew
      cases hnew

/-! ### Twins answer alike -/

namespace Agrees

variable {d e : Draft}

/-- What is added next goes to the same place. -/
theorem nextPlace_eq (h : d.Agrees e) (scope : Option Nat) :
    d.file.listing.nextPlace scope = e.file.listing.nextPlace scope := by
  have hlength := congrArg (fun l => (l.definesIn scope).length) h.listing
  simp only [Listing.withoutValues, Listing.definesIn_mapDefines, List.length_map] at hlength
  rw [Listing.nextPlace, Listing.nextPlace, hlength]

/-- The same names are visible. -/
theorem see_eq (h : d.Agrees e) : d.see = e.see := by
  funext name
  rw [see, see, h.names, h.scopes]

/-- Symbols mean the same. -/
theorem meaningOf_eq (h : d.Agrees e) (meanings : Meanings) :
    d.meaningOf meanings = e.meaningOf meanings := by
  funext name
  rw [meaningOf, meaningOf, h.names, h.scopes]

/-- A define that is added means the same. -/
theorem meaningsWith_eq (h : d.Agrees e) (meanings : Meanings) (define : Define Symbol) :
    d.meaningsWith meanings define = e.meaningsWith meanings define := by
  funext place
  simp only [meaningsWith, h.scopes, h.nextPlace_eq, h.meaningOf_eq]

/-- Where nothing is in one of the drafts, nothing is in the other one. -/
theorem at?_eq_none_iff (h : d.Agrees e) (place : Place) :
    d.file.listing.at? place = none ↔ e.file.listing.at? place = none := by
  have hat := congrArg (·.at? place) h.listing
  simp only [Listing.withoutValues, Listing.at?_mapDefines] at hat
  rw [← Option.map_eq_none_iff (f := Define.withoutValue), hat, Option.map_eq_none_iff]

/-- Storing meanings keeps agreement. -/
theorem of_caches {meanings : Meanings} {d' e' : Draft} (h : d.Agrees e)
    (hd : Caches meanings d d') (he : Caches meanings e e') : d'.Agrees e' := by
  have hlisting : ∀ {c c' : Draft}, Caches meanings c c' →
      c'.file.listing.withoutValues = c.file.listing.withoutValues := by
    intro c c' hc
    induction hc with
    | refl => rfl
    | store _ _ _ ih => exact (Listing.withoutValues_setValue _ _ _).trans ih
  exact {
    names := by rw [hd.names_eq, he.names_eq, h.names]
    scopes := by rw [hd.scopes_eq, he.scopes_eq, h.scopes]
    listing := by rw [hlisting hd, hlisting he, h.listing] }

end Agrees

/-- Twins have become other twins, both by an advance. -/
structure Stride (meanings : Meanings) (d e : Draft) (meanings' : Meanings) (d' e' : Draft) :
    Prop where
  /-- The new drafts are twins. -/
  twins : Twins meanings' d' e'
  /-- The first draft has advanced. -/
  left : d.Advances meanings d' meanings'
  /-- The second draft has advanced. -/
  right : e.Advances meanings e' meanings'

/-- Twins that stay as they are make a stride. -/
theorem Stride.refl {meanings : Meanings} {d e : Draft} (h : Twins meanings d e) :
    Stride meanings d e meanings d e where
  twins := h
  left := .of_listing_eq rfl
  right := .of_listing_eq rfl

/-- Strides can be composed. -/
theorem Stride.trans {meanings meanings' meanings'' : Meanings} {d e d' e' d'' e'' : Draft}
    (h : Stride meanings d e meanings' d' e') (h' : Stride meanings' d' e' meanings'' d'' e'') :
    Stride meanings d e meanings'' d'' e'' where
  twins := h'.twins
  left := h.left.trans h'.left
  right := h.right.trans h'.right

namespace Twins

variable {meanings : Meanings} {d e : Draft}

/-- Entering a name gives twins the same symbol. -/
theorem intern (h : Twins meanings d e) (name : Text) :
    (d.intern name).1 = (e.intern name).1 ∧
      Stride meanings d e meanings (d.intern name).2 (e.intern name).2 := by
  have hnames := h.agrees.names
  refine ⟨by rw [Draft.intern, Draft.intern, hnames], ⟨h.left.intern name, h.right.intern name, ?_⟩,
    .of_listing_eq rfl, .of_listing_eq rfl⟩
  exact ⟨by simp only [Draft.intern, hnames], h.agrees.scopes, h.agrees.listing⟩

/-- A program that can be opened in one of the twins can be opened in the other one. -/
theorem openProgram (h : Twins meanings d e) {name : Symbol} {d' : Draft}
    (ho : d.openProgram name = some d') :
    ∃ e', e.openProgram name = some e' ∧ Stride meanings d e meanings d' e' := by
  have hd := h.left.openProgram ho
  obtain ⟨scopes, hscopes, rfl⟩ := openProgram_eq_some ho
  have hoe : e.openProgram name = some { file := { e.file with
      listing := e.file.listing.addProgram name }, scopes := scopes } := by
    rw [Draft.openProgram, ← h.agrees.scopes, hscopes]
    rfl
  have hadvance : ∀ {c c' : Draft}, c'.file.listing = c.file.listing.addProgram name →
      c.Advances meanings c' meanings := by
    intro c c' hc
    refine ⟨fun {place define} hat => ⟨⟨define, ?_, id⟩, rfl⟩, fun {place define} hnone hat => ?_⟩
    · rw [hc, Listing.at?_addProgram, hat]
    · rw [hc, Listing.at?_addProgram, hnone] at hat
      cases hat
  refine ⟨_, hoe, ⟨hd, h.right.openProgram hoe, h.agrees.names, rfl, ?_⟩, hadvance rfl,
    hadvance rfl⟩
  have hlisting := h.agrees.listing
  simp only [Listing.withoutValues, Listing.mapDefines_addProgram] at hlisting ⊢
  rw [hlisting]

/-- A program that cannot be opened in one of the twins cannot be opened in the other one. -/
theorem openProgram_eq_none (h : Twins meanings d e) {name : Symbol}
    (ho : d.openProgram name = none) : e.openProgram name = none := by
  rw [Draft.openProgram_eq_none] at ho ⊢
  rwa [← h.agrees.scopes]

/-- A define that can be added to one of the twins can be added to the other one, and means the same
there. -/
theorem addDefine (h : Twins meanings d e) {define : Define Symbol} {d' : Draft}
    (hvisible : define.value = none → ∀ n ∈ define.expr.names, d.scopes.isVisible n = true)
    (ha : d.addDefine define = some d') :
    ∃ e', e.addDefine define = some e' ∧ Twins (d.meaningsWith meanings define) d' e' := by
  have hd := h.left.addDefine hvisible ha
  obtain ⟨scopes, hscopes, rfl⟩ := addDefine_eq_some ha
  have hlength := congrArg Place.index (h.agrees.nextPlace_eq d.scopes.current)
  simp only [Listing.nextPlace] at hlength
  have hae : e.addDefine define = some { file := { e.file with
      listing := e.file.listing.addDefine e.scopes.current define }, scopes := scopes } := by
    rw [Draft.addDefine, ← h.agrees.scopes, ← hlength, hscopes]
    rfl
  have he := h.right.addDefine (by rw [← h.agrees.scopes]; exact hvisible) hae
  rw [← h.agrees.meaningsWith_eq] at he
  refine ⟨_, hae, hd, he, h.agrees.names, rfl, ?_⟩
  have hlisting := h.agrees.listing
  simp only [Listing.withoutValues, Listing.mapDefines_addDefine] at hlisting ⊢
  rw [hlisting, h.agrees.scopes]

/-- A define that cannot be added to one of the twins cannot be added to the other one. -/
theorem addDefine_eq_none (h : Twins meanings d e) {define : Define Symbol}
    (ha : d.addDefine define = none) : e.addDefine define = none := by
  rw [Draft.addDefine_eq_none] at ha ⊢
  rwa [← h.agrees.scopes]

/-- Evaluating yields the same in both twins, namely what the meanings say. -/
theorem evaluate (h : Twins meanings d e) (x : Expr Symbol) :
    (d.evaluate x).1 = x.valueUnder (d.meaningOf meanings) ∧
      (e.evaluate x).1 = x.valueUnder (d.meaningOf meanings) ∧
      Stride meanings d e meanings (d.evaluate x).2 (e.evaluate x).2 ∧
      Twins meanings (d.evaluate x).2 e := by
  obtain ⟨d', hd, hcd⟩ := h.left.evaluate_eq x
  obtain ⟨e', he, hce⟩ := h.right.evaluate_eq x
  rw [← h.agrees.meaningOf_eq] at he
  rw [hd, he]
  exact ⟨rfl, rfl, ⟨⟨h.left.of_caches hcd, h.right.of_caches hce, h.agrees.of_caches hcd hce⟩,
      .of_caches hcd, .of_caches hce⟩,
    h.left.of_caches hcd, h.right, h.agrees.of_caches hcd .refl⟩

/-! ### Twins take lines alike -/

/-- Twins begin a program alike. -/
theorem beginProgram (h : Twins meanings d e) (name : Text) :
    (d.beginProgram name).1 = (e.beginProgram name).1 ∧
      Stride meanings d e meanings (d.beginProgram name).2 (e.beginProgram name).2 := by
  obtain ⟨hs, hstride⟩ := h.intern name
  unfold Draft.beginProgram
  cases ho : (d.intern name).2.openProgram (d.intern name).1 with
  | none =>
    have hoe := hstride.twins.openProgram_eq_none ho
    rw [hs] at hoe
    simp only [ho, hoe]
    exact ⟨trivial, hstride⟩
  | some d' =>
    obtain ⟨e', hoe, hstride'⟩ := hstride.twins.openProgram ho
    rw [hs] at hoe
    simp only [ho, hoe]
    exact ⟨trivial, hstride.trans hstride'⟩

/-- Twins evaluate and add a define alike. -/
theorem defineConstant (h : Twins meanings d e) (exported : Bool) (name : Text)
    (x : Expr Symbol) :
    (d.defineConstant exported name x).1 = (e.defineConstant exported name x).1 ∧
      ∃ meanings', Stride meanings d e meanings' (d.defineConstant exported name x).2
        (e.defineConstant exported name x).2 := by
  obtain ⟨hd, he, hstride, -⟩ := h.evaluate x
  have hd' : d.evaluate x = (x.valueUnder (d.meaningOf meanings), (d.evaluate x).2) := by rw [← hd]
  have he' : e.evaluate x = (x.valueUnder (d.meaningOf meanings), (e.evaluate x).2) := by rw [← he]
  generalize (d.evaluate x).2 = d₁ at hd' hstride
  generalize (e.evaluate x).2 = e₁ at he' hstride
  unfold Draft.defineConstant
  rw [hd', he']
  cases x.valueUnder (d.meaningOf meanings) with
  | error cause => exact ⟨rfl, meanings, hstride⟩
  | ok v =>
    obtain ⟨hs, hstride₂⟩ := hstride.twins.intern name
    dsimp only
    rw [← hs]
    generalize hdefine : (⟨(d₁.intern name).1, exported, x, some v⟩ : Define Symbol) = define
    have hvalue : define.value ≠ none := by simp [← hdefine]
    cases ha : (d₁.intern name).2.addDefine define with
    | none =>
      have hae := hstride₂.twins.addDefine_eq_none ha
      simp only [hae]
      exact ⟨trivial, meanings, hstride.trans hstride₂⟩
    | some d₂ =>
      obtain ⟨e₂, hae, htwins⟩ := hstride₂.twins.addDefine (fun hn => absurd hn hvalue) ha
      simp only [hae]
      refine ⟨trivial, _, (hstride.trans hstride₂).trans ⟨htwins, ?_, ?_⟩⟩
      · exact .of_addDefine hstride₂.twins.left.consistent ha hvalue
      · rw [hstride₂.twins.agrees.meaningsWith_eq]
        exact .of_addDefine hstride₂.twins.right.consistent hae hvalue

/-- Twins take a line alike. -/
theorem takeLine (h : Twins meanings d e) (line : Line) :
    (d.takeLine line).1 = (e.takeLine line).1 ∧
      ∃ meanings', Stride meanings d e meanings' (d.takeLine line).2 (e.takeLine line).2 := by
  have hobey : ∀ statement, (d.obey statement).1 = (e.obey statement).1 ∧
      ∃ meanings', Stride meanings d e meanings' (d.obey statement).2 (e.obey statement).2 := by
    intro statement
    cases statement with
    | program name =>
      obtain ⟨hsame, hstride⟩ := h.beginProgram name
      exact ⟨hsame, meanings, hstride⟩
    | define exported name x => exact h.defineConstant exported name x
  unfold Draft.takeLine
  rw [h.agrees.see_eq]
  cases Statement.read e.see line with
  | error fault => exact ⟨rfl, meanings, .refl h⟩
  | ok statement =>
    obtain ⟨hsame, hstride⟩ := hobey statement
    have hd : d.obey statement = ((e.obey statement).1, (d.obey statement).2) := by rw [← hsame]
    generalize (d.obey statement).2 = d' at hd hstride
    dsimp only
    rw [hd]
    generalize e.obey statement = obeyed at hstride ⊢
    obtain ⟨outcome, e'⟩ := obeyed
    cases outcome with
    | ok _ => exact ⟨rfl, hstride⟩
    | error cause => exact ⟨rfl, hstride⟩

end Twins

end Draft

end PioFrontEnd
