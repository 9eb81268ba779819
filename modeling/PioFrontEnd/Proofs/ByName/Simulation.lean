import Mathlib.Data.List.Find
import PioFrontEnd.Proofs.ByName.Basic
import PioFrontEnd.Proofs.Draft.Consistency
import PioFrontEnd.Proofs.NameTable

/-!
# Drafts show listings

A draft shows a listing over names (`Draft.Shows`) if its scopes and its listing agree, if it has
this listing when names are put in place of symbols, and if all its defines have values. Its name
table is compared with the list of the names that have been entered so far, in which a name may
occur several times.

* `Shows.takeLine`: a draft that shows a listing takes a line as the listing does, and shows the
  listing that comes out.
* `Compilation.run_follows`: so the compilation of a source ends as the reading by name does.
* `Compilation.offset_le_of_run`: a fault lies before the offset that the stream has reached.
-/

namespace PioFrontEnd

/-! ### What scopes find -/

/-- Where every name has the index of its define, looking up the index finds what a search finds. -/
theorem Indexes.find?_eq {index : Symbol → Option Nat} {defines : List (Define Symbol)}
    (h : Indexes index fun i => (defines[i]?).map Define.name) (s : Symbol) :
    defines.find? (·.name = s) = (index s).bind (defines[·]?) := by
  cases hfind : defines.find? (·.name = s) with
  | none =>
    cases hindex : index s with
    | none => rfl
    | some i =>
      obtain ⟨define, hget, hname⟩ := Option.map_eq_some_iff.1 ((h s i).1 hindex)
      have hnot := List.find?_eq_none.1 hfind define (List.mem_of_getElem? hget)
      simp [hname] at hnot
  | some define =>
    obtain ⟨hname, i, hi, hget, -⟩ := List.find?_eq_some_iff_getElem.1 hfind
    have hat : defines[i]? = some define := List.getElem?_eq_some_iff.2 ⟨hi, hget⟩
    have hindex : index s = some i := by
      apply (h s i).2
      simp only [hat, Option.map_some, of_decide_eq_true hname]
    rw [hindex, Option.bind_some, hat]

namespace Draft

/-- What is visible now is what can be seen from the current program. -/
theorem Consistent.visible_eq {d : Draft} (h : d.Consistent) :
    d.file.listing.visible = d.file.listing.visibleFrom d.scopes.current := by
  rw [Listing.visible, h.current, List.getLast?_eq_getElem?]
  split
  · rename_i hzero
    simp [List.length_eq_zero_iff.1 hzero, Listing.visibleFrom]
  · rfl

/-- From a program, or from none, a look-up finds the first define of its name that can be seen. -/
theorem Consistent.at?_lookupIn {d : Draft} (h : d.Consistent) (scope : Option Nat) (s : Symbol) :
    (d.scopes.lookupIn scope s).bind d.file.listing.at? =
      (d.file.listing.visibleFrom scope).find? (·.name = s) := by
  have hdefines : ∀ scope, (d.file.listing.definesIn scope).find? (·.name = s) =
      (d.scopes.indexIn scope s).bind fun i => d.file.listing.at? ⟨scope, i⟩ :=
    fun scope => (h.indexes scope).find?_eq s
  have hshared := hdefines none
  rw [Listing.definesIn] at hshared
  cases hindex : d.scopes.indexIn none s with
  | some i =>
    obtain ⟨define, hat, -⟩ := Option.map_eq_some_iff.1 ((h.indexes none s i).1 hindex)
    rw [hindex, Option.bind_some, hat] at hshared
    rw [Scopes.lookupIn_of_shared hindex, Option.bind_some, hat]
    cases scope with
    | none => exact hshared.symm
    | some p => rw [Listing.visibleFrom, List.find?_append, hshared, Option.some_or]
  | none =>
    rw [hindex, Option.bind_none] at hshared
    rw [Scopes.lookupIn_of_not_shared hindex, Option.bind_map]
    cases scope with
    | none =>
      rw [hindex, Listing.visibleFrom, hshared]
      rfl
    | some p =>
      rw [Listing.visibleFrom, List.find?_append, hshared, Option.none_or, hdefines]
      rfl

/-- A look-up finds the first visible define of its name. -/
theorem Consistent.find?_eq {d : Draft} (h : d.Consistent) (s : Symbol) :
    (d.find? s).map Prod.snd = d.file.listing.visible.find? (·.name = s) := by
  rw [h.visible_eq, ← h.at?_lookupIn, ← Scopes.lookup_eq_lookupIn]
  unfold find?
  cases d.scopes.lookup s with
  | none => rfl
  | some place => cases hat : d.file.listing.at? place <;> simp [hat]

/-- A name is visible exactly if a visible define has it. -/
theorem Consistent.isVisible_eq {d : Draft} (h : d.Consistent) (s : Symbol) :
    d.scopes.isVisible s = (d.file.listing.visible.find? (·.name = s)).isSome := by
  rw [← h.find?_eq, Option.isSome_map, Scopes.isVisible, find?]
  cases hlookup : d.scopes.lookup s with
  | none => rfl
  | some place =>
    obtain ⟨define, hat, -⟩ := h.exists_at? hlookup
    simp [hat]

/-- Adding a define in the current scope puts it at the end. -/
theorem Consistent.addDefine_eq_append {d : Draft} (h : d.Consistent) (define : Define Symbol) :
    d.file.listing.addDefine d.scopes.current define = d.file.listing.append define := by
  rw [h.current, Listing.append, List.getLast?_eq_getElem?]
  split
  · rename_i hzero
    simp [List.length_eq_zero_iff.1 hzero, Listing.addDefine, Listing.modifyDefines]
  · rename_i hnonzero
    obtain ⟨earlier, last, hprograms⟩ :=
      (List.eq_nil_or_concat d.file.listing.programs).resolve_left
      fun hnil => hnonzero (by rw [hnil]; rfl)
    simp only [Listing.addDefine, Listing.modifyDefines, hprograms]
    rw [List.modify_eq_take_cons_drop (by simp)]
    simp

/-- A name that has been entered has a symbol, and the symbol has that name. -/
theorem symbol_intern (d : Draft) (name : Text) :
    (d.intern name).2.file.names.Has (d.intern name).1 ∧
      (d.intern name).2.file.names.resolve (d.intern name).1 = name :=
  ⟨NameTable.has_intern _ name, NameTable.resolve_intern _ name⟩

/-! ### Drafts and listings over names -/

/-- The draft has this listing over names, and these names have been entered in it, one after
another. -/
structure Shows (d : Draft) (l : Listing Text) (entered : List Text) : Prop where
  /-- Scopes and listing agree. -/
  consistent : d.Consistent
  /-- The table has what was entered. -/
  names : d.file.names.names = entered.eraseDups
  /-- The table has no name twice. -/
  distinct : d.file.names.names.Nodup
  /-- All symbols in the listing come from the table. -/
  known : ∀ s ∈ d.file.listing.mentioned, d.file.names.Has s
  /-- With names in place of symbols the listing is the given one. -/
  named : d.file.named = l
  /-- Every visible define has a value. -/
  valued : ∀ define ∈ d.file.listing.visible, define.value.isSome

namespace Shows

variable {d : Draft} {l : Listing Text} {entered : List Text}

/-- A define that is visible has the symbol of its name. -/
theorem find?_resolve (h : d.Shows l entered) {s : Symbol} (hs : d.file.names.Has s) :
    l.find? (d.file.names.resolve s) =
      (d.file.listing.visible.find? (·.name = s)).map (Define.map d.file.names.resolve) := by
  rw [Listing.find?, ← h.named, File.named, Listing.visible_map, List.find?_map]
  refine congrArg (Option.map _) (List.find?_congr fun define hdefine => ?_)
  have hhas : d.file.names.Has define.name :=
    h.known _ (Listing.declared_subset_mentioned _ (Listing.mem_declared_of_mem_visible hdefine))
  simp only [Function.comp_apply, Define.map, decide_eq_decide]
  exact NameTable.resolve_inj h.distinct hhas hs

/-- The names of visible defines are in the table. -/
theorem mem_names_of_find? (h : d.Shows l entered) {name : Text} {define : Define Text}
    (hfind : l.find? name = some define) : name ∈ d.file.names.names := by
  rw [Listing.find?] at hfind
  have hmem := List.mem_of_find?_eq_some hfind
  have hname : define.name = name := name_of_find? hfind
  rw [← h.named, File.named, Listing.visible_map] at hmem
  obtain ⟨define', hdefine', rfl⟩ := List.mem_map.1 hmem
  rw [← hname]
  exact NameTable.resolve_mem (h.known _
    (Listing.declared_subset_mentioned _ (Listing.mem_declared_of_mem_visible hdefine')))

/-- What a draft sees is what its listing over names sees. -/
theorem map_see (h : d.Shows l entered) (name : Text) :
    (d.see name).map d.file.names.resolve = l.see name := by
  unfold see
  cases hsymbol : d.file.names.symbol? name with
  | none =>
    have hnone : l.find? name = none := by
      cases hfind : l.find? name with
      | none => rfl
      | some define =>
        exact absurd (h.mem_names_of_find? hfind) (NameTable.symbol?_eq_none.1 hsymbol)
    rw [Listing.see, hnone]
    rfl
  | some s =>
    have hresolve := NameTable.resolve_of_symbol? hsymbol
    have hfind := h.find?_resolve (NameTable.has_of_symbol? hsymbol)
    rw [hresolve] at hfind
    rw [Listing.see, hfind, Option.filter_some, h.consistent.isVisible_eq]
    cases hvisible : d.file.listing.visible.find? (·.name = s) with
    | none => rfl
    | some define =>
      have hname : define.name = s := name_of_find? hvisible
      simp [Define.map, hname]

/-- What is seen has a value, the same for the draft and for the listing. -/
theorem valueOf_of_see (h : d.Shows l entered) {name : Text} {s : Symbol}
    (hs : d.see name = some s) :
    ∃ place define v, d.find? s = some (place, define) ∧ define.value = some v ∧
      l.valueOf (d.file.names.resolve s) = .ok v := by
  obtain ⟨hsymbol, hvisible⟩ := Option.filter_eq_some_iff.1 hs
  have hfind := h.find?_resolve (NameTable.has_of_symbol? hsymbol)
  rw [h.consistent.isVisible_eq, ← h.consistent.find?_eq, Option.isSome_map] at hvisible
  obtain ⟨⟨place, define⟩, hat⟩ := Option.isSome_iff_exists.1 hvisible
  rw [← h.consistent.find?_eq, hat] at hfind
  have hmem : define ∈ d.file.listing.visible := by
    refine List.mem_of_find?_eq_some (p := (·.name = s)) ?_
    rw [← h.consistent.find?_eq, hat]
    rfl
  obtain ⟨v, hv⟩ := Option.isSome_iff_exists.1 (h.valued define hmem)
  refine ⟨place, define, v, hat, hv, ?_⟩
  rw [Listing.valueOf, hfind]
  simp [Define.map, hv]

/-- Reading a statement yields the same for the draft and for the listing. -/
theorem read_eq (h : d.Shows l entered) (line : Line) :
    Statement.read l.see line =
      (Statement.read d.see line).map (Statement.map d.file.names.resolve) := by
  have hsee : l.see = fun name => (d.see name).map d.file.names.resolve :=
    funext fun name => (h.map_see name).symm
  rw [hsee, Statement.read_map]

/-- An expression all of whose names are seen has the value that it has over the names, and its
evaluation changes nothing. -/
theorem evaluate_eq (h : d.Shows l entered) {e : Expr Symbol}
    (he : ∀ n ∈ e.names, ∃ name, d.see name = some n) :
    d.evaluate e = ((e.map d.file.names.resolve).valueUnder l.valueOf, d) := by
  rw [Expr.valueUnder_map]
  apply evaluate_eq_of_known
  intro n hn
  obtain ⟨name, hsee⟩ := he n hn
  exact h.valueOf_of_see hsee

/-! ### Steps -/

/-- Entering a name. -/
theorem intern (h : d.Shows l entered) (name : Text) :
    (d.intern name).2.Shows l (entered ++ [name]) where
  consistent := h.consistent.intern name
  names := by
    show (d.file.names.intern name).2.names = _
    rw [NameTable.names_intern, eraseDups_concat, h.names]
  distinct := NameTable.nodup_intern h.distinct name
  known s hs := (h.known s hs).intern name
  named := by
    rw [← h.named]
    exact Listing.map_congr fun s hs => NameTable.resolve_intern_of_has (h.known s hs) name
  valued := h.valued

/-- A program has been opened exactly if the listing has one of its name. -/
theorem isSome_program? (h : d.Shows l entered) {s : Symbol} (hs : d.file.names.Has s) :
    (l.program? (d.file.names.resolve s)).isSome = (d.scopes.programs.find? s).isSome := by
  have hiff : (l.program? (d.file.names.resolve s)).isSome ↔
      (d.scopes.programs.find? s).isSome := by
    rw [Listing.program?, ← h.named, File.named, Listing.map, List.find?_map, Option.isSome_map,
      List.find?_isSome]
    constructor
    · rintro ⟨p, hp, hname⟩
      have hhas : d.file.names.Has p.name :=
        h.known _ (List.mem_append_right _ (List.mem_map_of_mem hp))
      have hs' : p.name = s :=
        (NameTable.resolve_inj h.distinct hhas hs).1 (of_decide_eq_true hname)
      obtain ⟨i, hi, hget⟩ := List.getElem_of_mem hp
      have hfind : d.scopes.programs.find? s = some i := by
        apply (h.consistent.programs s i).2
        simp only [List.getElem?_eq_getElem hi, hget, Option.map_some, hs']
      rw [hfind]
      rfl
    · intro hfind
      obtain ⟨i, hi⟩ := Option.isSome_iff_exists.1 hfind
      obtain ⟨p, hget, hname⟩ := Option.map_eq_some_iff.1 ((h.consistent.programs s i).1 hi)
      refine ⟨p, List.mem_of_getElem? hget, ?_⟩
      simp only [Function.comp_apply, Program.map, hname, decide_true]
  exact Bool.eq_iff_iff.2 hiff

/-- Opening a program. -/
theorem openProgram (h : d.Shows l entered) {s : Symbol} (hs : d.file.names.Has s) :
    match d.openProgram s with
    | none => (l.program? (d.file.names.resolve s)).isSome = true
    | some d' => (l.program? (d.file.names.resolve s)).isSome = false ∧
        d'.file.names = d.file.names ∧
        d'.Shows (l.addProgram (d.file.names.resolve s)) entered := by
  rw [h.isSome_program? hs]
  cases ho : d.openProgram s with
  | none => exact openProgram_eq_none.1 ho
  | some d' =>
    have hconsistent := h.consistent.openProgram ho
    obtain ⟨scopes, hscopes, rfl⟩ := openProgram_eq_some ho
    obtain ⟨hnew, -⟩ := Scopes.openProgram_eq_some hscopes
    refine ⟨by rw [hnew]; rfl, rfl, hconsistent, h.names, h.distinct, ?_, ?_, ?_⟩
    · intro s' hs'
      rw [Listing.mentioned_addProgram, List.mem_append, List.mem_singleton] at hs'
      rcases hs' with hs' | rfl
      · exact h.known s' hs'
      · exact hs
    · rw [← h.named]
      exact Listing.addProgram_map _ _ _
    · intro define hdefine
      rw [Listing.visible_addProgram] at hdefine
      exact h.valued define (List.mem_append_left _ hdefine)

/-- Adding a define that has a value. -/
theorem addDefine (h : d.Shows l entered) {define : Define Symbol}
    (hknown : ∀ s ∈ define.name :: define.expr.names, d.file.names.Has s)
    (hvalue : define.value.isSome) :
    match d.addDefine define with
    | none => (l.find? (d.file.names.resolve define.name)).isSome = true
    | some d' => (l.find? (d.file.names.resolve define.name)).isSome = false ∧
        d'.file.names = d.file.names ∧
        d'.Shows (l.append (define.map d.file.names.resolve)) entered := by
  rw [h.find?_resolve (hknown _ (.head _)), Option.isSome_map, ← h.consistent.isVisible_eq]
  cases ha : d.addDefine define with
  | none => exact addDefine_eq_none.1 ha
  | some d' =>
    have hconsistent := h.consistent.addDefine ha
    obtain ⟨scopes, hscopes, rfl⟩ := addDefine_eq_some ha
    obtain ⟨hnew, -⟩ := Scopes.declare_eq_some hscopes
    have happend := h.consistent.addDefine_eq_append define
    refine ⟨by rw [Scopes.isVisible, hnew]; rfl, rfl, hconsistent, h.names, h.distinct, ?_, ?_, ?_⟩
    · intro s hs
      simp only [happend, Listing.mentioned_append] at hs
      rcases hs with hs | hs
      · exact h.known s hs
      · exact hknown s hs
    · rw [← h.named, File.named, happend]
      exact Listing.append_map _ _ _
    · intro define' hdefine'
      simp only [happend, Listing.visible_append, List.mem_append, List.mem_singleton] at hdefine'
      rcases hdefine' with hdefine' | rfl
      · exact h.valued define' hdefine'
      · exact hvalue

end Shows

/-- A step of a draft has the outcome that it has by name: the same trouble, or a draft that shows
the listing that comes out and has entered what is declared there. -/
def Follows {ε : Type} (outcome : Except ε Unit × Draft) : Except ε (Listing Text) → Prop
  | .error e => outcome.1 = .error e
  | .ok l => outcome.1 = .ok () ∧ outcome.2.Shows l l.declared

section Follows

variable {ε : Type} {e : ε} {d : Draft} {result : Except ε (Listing Text)}

/-- The trouble that a step is in is the trouble by name. -/
theorem Follows.eq_error (h : Follows (.error e, d) result) : result = .error e := by
  cases result with
  | error e' => exact congrArg Except.error (Except.error.inj h).symm
  | ok l => cases h.1

/-- A step that succeeds does so by name, and shows the listing that comes out. -/
theorem Follows.exists_ok (h : Follows (.ok (), d) result) :
    ∃ l, result = .ok l ∧ d.Shows l l.declared := by
  cases result with
  | error e' => cases h
  | ok l => exact ⟨l, rfl, h.2⟩

end Follows

namespace Shows

variable {d : Draft} {l : Listing Text}

/-- A program begins alike. -/
theorem beginProgram (h : d.Shows l l.declared) (name : Text) :
    Follows (d.beginProgram name) (l.beginProgram name) := by
  obtain ⟨hhas, hname⟩ := symbol_intern d name
  have ho := (h.intern name).openProgram hhas
  rw [hname] at ho
  unfold Draft.beginProgram Listing.beginProgram
  dsimp only
  cases hd : (d.intern name).2.openProgram (d.intern name).1 with
  | none =>
    rw [hd] at ho
    rw [if_pos ho]
    rfl
  | some d' =>
    rw [hd] at ho
    obtain ⟨hnew, -, hshows⟩ := ho
    rw [if_neg (by rw [hnew]; exact Bool.false_ne_true)]
    refine ⟨rfl, ?_⟩
    rw [Listing.declared_addProgram]
    exact hshows

/-- A define is added alike, if its expression has been read with what is visible. -/
theorem defineConstant (h : d.Shows l l.declared) (exported : Bool) (name : Text)
    {expr : Expr Symbol} (hseen : ∀ n ∈ expr.names, ∃ t, d.see t = some n) :
    Follows (d.defineConstant exported name expr)
      (l.defineConstant exported name (expr.map d.file.names.resolve)) := by
  unfold Draft.defineConstant Listing.defineConstant
  rw [h.evaluate_eq hseen]
  cases (expr.map d.file.names.resolve).valueUnder l.valueOf with
  | error cause => rfl
  | ok v =>
    have hexpr : ∀ n ∈ expr.names, d.file.names.Has n := by
      intro n hn
      obtain ⟨t, ht⟩ := hseen n hn
      exact NameTable.has_of_symbol? (Option.filter_eq_some_iff.1 ht).1
    obtain ⟨hhas, hname⟩ := symbol_intern d name
    let define : Define Symbol :=
      { name := (d.intern name).1, exported := exported, expr := expr, value := some v }
    have hknown : ∀ s ∈ define.name :: define.expr.names, (d.intern name).2.file.names.Has s := by
      intro s hs
      rcases List.mem_cons.1 hs with rfl | hs
      · exact hhas
      · exact (hexpr s hs).intern name
    have hmap : define.map (d.intern name).2.file.names.resolve =
        { name := name, exported := exported, expr := expr.map d.file.names.resolve
          value := some v } := by
      have hrename : expr.map (d.intern name).2.file.names.resolve =
          expr.map d.file.names.resolve :=
        Expr.map_congr fun n hn => NameTable.resolve_intern_of_has (hexpr n hn) name
      simp only [Define.map, define, hrename, hname]
    have ha := (h.intern name).addDefine hknown rfl
    rw [hmap] at ha
    simp only [define, hname] at ha
    dsimp only
    cases hd : (d.intern name).2.addDefine define with
    | none =>
      rw [hd] at ha
      rw [if_pos ha]
      rfl
    | some d' =>
      rw [hd] at ha
      obtain ⟨hnew, -, hshows⟩ := ha
      rw [if_neg (by rw [hnew]; exact Bool.false_ne_true)]
      refine ⟨rfl, ?_⟩
      rw [Listing.declared_append]
      exact hshows

/-- A line is taken alike. -/
theorem takeLine (h : d.Shows l l.declared) (line : Line) :
    Follows (d.takeLine line) (l.takeLine line) := by
  unfold Draft.takeLine Listing.takeLine
  rw [h.read_eq]
  cases hread : Statement.read d.see line with
  | error fault => rfl
  | ok statement =>
    have hseen := Statement.exists_see_of_read hread
    have hobey : Follows (d.obey statement) (l.obey (statement.map d.file.names.resolve)) := by
      cases statement with
      | program name => exact h.beginProgram name
      | define exported name expr => exact h.defineConstant exported name hseen
    simp only [Except.map]
    rcases hd : d.obey statement with ⟨cause | ⟨⟩, d'⟩
    · rw [hd] at hobey
      rw [hobey.eq_error]
      rfl
    · rw [hd] at hobey
      obtain ⟨l', hl, hshows⟩ := hobey.exists_ok
      rw [hl]
      exact ⟨rfl, hshows⟩

end Shows

end Draft

/-! ### Runs -/

namespace Compilation

/-- The lines that are left are obeyed alike. -/
theorem run_follows {c : Compilation} {l : Listing Text} (h : c.draft.Shows l l.declared) :
    Draft.Follows (c.run.1, c.run.2.draft) (l.takeLines c.stream.lines) := by
  fun_induction run c generalizing l with
  | case1 c stream hnext =>
    rw [TokenStream.lines_of_none hnext]
    exact ⟨rfl, h⟩
  | case2 c fault stream hnext =>
    rw [TokenStream.lines_of_some hnext]
    rfl
  | case3 c line stream hnext fault draft htake =>
    have hline := h.takeLine line
    rw [htake] at hline
    rw [TokenStream.lines_of_some hnext, Listing.takeLines, hline.eq_error]
    rfl
  | case4 c line stream hnext draft htake ih =>
    have hline := h.takeLine line
    rw [htake] at hline
    obtain ⟨l', hl, hshows⟩ := hline.exists_ok
    rw [TokenStream.lines_of_some hnext, Listing.takeLines, hl]
    exact ih hshows

/-- What is wrong with a line is reported at a token of it, or at its end. -/
theorem within_of_takeLine {d d' : Draft} {line : Line} {fault : Fault}
    (h : d.takeLine line = (.error fault, d')) : fault.Within line := by
  unfold Draft.takeLine at h
  split at h
  · rename_i hread
    cases h
    exact Statement.within_of_read hread
  · split at h
    · cases h
    · cases h
      exact ⟨_, line.peek_mem_all, rfl⟩

/-- A fault lies before the offset that the stream has reached. -/
theorem offset_le_of_run {source : Text} {c : Compilation} {fault : Fault}
    (hat : c.stream.At source) (h : c.run.1 = .error fault) :
    c.run.2.stream.At source ∧ fault.offset ≤ c.run.2.stream.offset := by
  fun_induction run c with
  | case1 c stream hnext => cases h
  | case2 c fault' stream hnext =>
    cases h
    obtain ⟨hat', hsite⟩ := hat.of_nextLine hnext
    exact ⟨hat', hsite _ (.inl rfl)⟩
  | case3 c line stream hnext fault' draft htake =>
    cases h
    obtain ⟨hat', hsite⟩ := hat.of_nextLine hnext
    exact ⟨hat', hsite _ (.inr ⟨line, rfl, within_of_takeLine htake⟩)⟩
  | case4 c line stream hnext draft htake ih => exact ih (hat.of_nextLine hnext).1 h

end Compilation

/-! ### Files -/

/-- A new draft shows the listing of nothing. -/
theorem Draft.shows_empty : Shows {} {} [] where
  consistent := consistent_empty
  names := rfl
  distinct := List.nodup_nil
  known s hs := by simp [Listing.mentioned, Listing.allDefines] at hs
  named := rfl
  valued define hdefine := by simp [Listing.visible] at hdefine

/-- The lines of a source are obeyed as they are by name, from the beginning. -/
theorem Compilation.run_ofText_follows (source : Text) :
    Draft.Follows ((ofText source).run.1, (ofText source).run.2.draft)
      (({} : Listing Text).takeLines (TokenStream.ofText source).lines) :=
  run_follows Draft.shows_empty

/-- The file of a draft that shows a listing is the file of that listing. -/
theorem Draft.Shows.file_eq {d : Draft} {l : Listing Text} (h : d.Shows l l.declared) :
    d.file = .ofNamed l := by
  have htable : (⟨l.declared.eraseDups⟩ : NameTable) = d.file.names :=
    congrArg NameTable.mk h.names.symm
  have hsymbol : ∀ s ∈ d.file.listing.mentioned,
      (d.file.names.intern (d.file.names.resolve s)).1 = s := by
    intro s hs
    rw [NameTable.intern, NameTable.symbol?_resolve h.distinct (h.known s hs)]
  have hlisting : l.map (fun name => (d.file.names.intern name).1) = d.file.listing := by
    rw [← h.named, File.named, Listing.map_map]
    exact (Listing.map_congr hsymbol).trans (Listing.map_id _)
  rw [File.ofNamed, htable, hlisting]

/-- A source whose lines cannot be taken does not compile, and what is reported is what is wrong
with them, at its place in the whole source. -/
theorem compile_of_fault {source : Text} {fault : Fault}
    (h : ({} : Listing Text).takeLines (TokenStream.ofText source).lines = .error fault) :
    compile source = .error (fault.diagnose (.ofText source)) ∧
      fault.offset ≤ Text.byteSize source := by
  have hfollows := Compilation.run_ofText_follows source
  rw [h] at hfollows
  have hrun : (Compilation.ofText source).run =
    (.error fault, (Compilation.ofText source).run.2) := Prod.ext hfollows rfl
  obtain ⟨hat, hle⟩ := Compilation.offset_le_of_run (TokenStream.At.ofText source) hfollows
  constructor
  · have hdiagnose : fault.diagnose (Compilation.ofText source).run.2.stream.breaks =
        fault.diagnose (.ofText source) := by
      rw [Fault.diagnose, hat.position_eq hle]
      rfl
    unfold compile
    rw [hrun]
    exact congrArg Except.error hdiagnose
  · obtain ⟨passed, happend, hoffset, -⟩ := hat
    have hsize := congrArg Text.byteSize happend
    rw [Text.byteSize_append] at hsize
    omega

/-- A source whose lines can be taken compiles to the file of a draft that shows their listing. -/
theorem exists_draft_of_listing {source : Text} {l : Listing Text}
    (h : ({} : Listing Text).takeLines (TokenStream.ofText source).lines = .ok l) :
    ∃ d : Draft, compile source = .ok d.file ∧ d.Shows l l.declared := by
  have hfollows := Compilation.run_ofText_follows source
  rw [h] at hfollows
  obtain ⟨hok, hshows⟩ := hfollows
  have hrun : (Compilation.ofText source).run =
    (.ok (), (Compilation.ofText source).run.2) := Prod.ext hok rfl
  refine ⟨_, ?_, hshows⟩
  unfold compile
  rw [hrun]

/-- A source whose lines can be taken compiles to the listing that they make. -/
theorem compile_of_listing {source : Text} {l : Listing Text}
    (h : ({} : Listing Text).takeLines (TokenStream.ofText source).lines = .ok l) :
    ∃ f, compile source = .ok f ∧ f.named = l := by
  obtain ⟨d, hcompile, hshows⟩ := exists_draft_of_listing h
  exact ⟨d.file, hcompile, hshows.named⟩

/-- A source compiles to a file exactly if its lines make the listing of that file over names, and
then there is nothing else in the file. -/
theorem compile_eq_ok_iff {source : Text} {f : File} :
    compile source = .ok f ↔
      ({} : Listing Text).takeLines (TokenStream.ofText source).lines = .ok f.named ∧
        f = .ofNamed f.named := by
  cases hl : ({} : Listing Text).takeLines (TokenStream.ofText source).lines with
  | error fault =>
    rw [(compile_of_fault hl).1]
    constructor <;> intro h
    · cases h
    · cases h.1
  | ok l =>
    obtain ⟨d, hcompile, hshows⟩ := exists_draft_of_listing hl
    rw [hcompile]
    constructor
    · intro h
      cases h
      rw [hshows.named]
      exact ⟨rfl, hshows.file_eq⟩
    · rintro ⟨hf, hof⟩
      cases hf
      exact congrArg Except.ok (hshows.file_eq.trans hof.symm)

/-- What is reported of a source is what is wrong with its lines. -/
theorem exists_fault_of_compile {source : Text} {d : Diagnostic} (h : compile source = .error d) :
    ∃ fault, ({} : Listing Text).takeLines (TokenStream.ofText source).lines = .error fault ∧
      fault.offset ≤ Text.byteSize source ∧ d = fault.diagnose (.ofText source) := by
  rcases hl : ({} : Listing Text).takeLines (TokenStream.ofText source).lines with fault | l
  · obtain ⟨hcompile, hle⟩ := compile_of_fault hl
    rw [hcompile] at h
    cases h
    exact ⟨fault, rfl, hle, rfl⟩
  · obtain ⟨f, hcompile, -⟩ := compile_of_listing hl
    rw [hcompile] at h
    cases h

end PioFrontEnd
