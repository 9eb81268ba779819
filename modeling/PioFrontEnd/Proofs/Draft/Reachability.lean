import Mathlib.Data.List.Nodup
import PioFrontEnd.Proofs.ByName.Simulation
import PioFrontEnd.Proofs.Draft.Invariants
import PioFrontEnd.Proofs.Session

/-!
# What holds in every compilation

A compilation can be used piece by piece, and none of what can be done with it makes its scopes and
its listing disagree (`Draft.Consistent`), whether it succeeds or is refused on the way. Reading an
expression is not among the things that could: it is given a line and what is visible, and gives an
expression back.

So a name is never ambiguous: the programs have different names, and so have the defines of a scope;
whichever scope is searched first, the same define is found, and it is there and has the name. The
files that come out are searched by name with the same right.

* `Draft.Consistent.takeLine`: every line leaves scopes and listing in agreement, also one that is
  refused.
* `Compilation.Reachable.consistent`: scopes and listing agree in every compilation.
* `compilation_unambiguous`: what follows for compilations and for the files that come out.
-/

namespace PioFrontEnd

/-! ### Every step keeps scopes and listing in agreement -/

namespace Draft.Consistent

variable {d : Draft}

/-- An evaluation leaves scopes and listing in agreement. -/
theorem evaluate (h : d.Consistent) (e : Expr Symbol) : (d.evaluate e).2.Consistent :=
  of_evaluate (fun v _ _ _ h => h.setValue v _) e h

/-- A program that begins, or cannot, leaves scopes and listing in agreement. -/
theorem beginProgram (h : d.Consistent) (name : Text) : (d.beginProgram name).2.Consistent :=
  of_beginProgram (fun name h => h.intern name) (fun h ho => h.openProgram ho) h name

/-- A define that is added, or cannot be, leaves scopes and listing in agreement. -/
theorem defineConstant (h : d.Consistent) (exported : Bool) (name : Text) (e : Expr Symbol) :
    (d.defineConstant exported name e).2.Consistent := by
  have hevaluated := h.evaluate e
  have hentered := hevaluated.intern name
  exact of_defineConstant hevaluated hentered fun _ ha => hentered.addDefine ha

/-- A line that is taken leaves scopes and listing in agreement, and so does one that is refused. -/
theorem takeLine (h : d.Consistent) (line : Line) : (d.takeLine line).2.Consistent := by
  refine of_takeLine h fun statement _ => ?_
  rcases statement with name | ⟨exported, name, e⟩
  · exact h.beginProgram name
  · exact h.defineConstant exported name e

end Draft.Consistent

namespace Compilation

variable {c : Compilation}

/-- Whatever is done with a compilation, scopes and listing stay in agreement. -/
theorem consistent_perform (h : c.draft.Consistent) (action : Action) :
    (c.perform action).draft.Consistent := by
  rcases action with _ | _ | name | name | define | e
  · exact of_run (fun line h => h.takeLine line) h
  · exact h
  · exact h.intern name
  · show ((c.draft.openProgram name).getD c.draft).Consistent
    rcases hopen : c.draft.openProgram name with _ | d
    · exact h
    · exact h.openProgram hopen
  · show ((c.draft.addDefine define).getD c.draft).Consistent
    rcases hadd : c.draft.addDefine define with _ | d
    · exact h
    · exact h.addDefine hadd
  · exact h.evaluate e

/-- Whether a compilation of a source can come about. -/
inductive Reachable (source : Text) : Compilation → Prop where
  /-- Nothing has been done. -/
  | start : Reachable source (.ofText source)
  /-- Something has been done with a compilation. -/
  | perform {c : Compilation} (h : Reachable source c) (action : Action) :
    Reachable source (c.perform action)
  /-- A line, from wherever, has been read and obeyed up to what is wrong with it. -/
  | takeLine {c : Compilation} (h : Reachable source c) (line : Line) :
    Reachable source { c with draft := (c.draft.takeLine line).2 }

/-- Scopes and listing agree in every compilation. -/
theorem Reachable.consistent {source : Text} (h : Reachable source c) : c.draft.Consistent := by
  induction h with
  | start => exact Draft.consistent_empty
  | perform h action ih => exact consistent_perform ih action
  | takeLine h line ih => exact ih.takeLine line

end Compilation

/-! ### Names are not ambiguous -/

/-- Where every name has one index, no name stands twice. -/
theorem Indexes.nodup {α : Type} {index : Symbol → Option Nat} {entries : List α}
    {key : α → Symbol} (h : Indexes index fun i => (entries[i]?).map key) :
    (entries.map key).Nodup := by
  refine List.pairwise_iff_getElem.2 fun i j hi hj hlt heq => ?_
  have hat : ∀ k (hk : k < (entries.map key).length),
      index (entries.map key)[k] = some k := by
    intro k hk
    apply (h _ k).2
    show (entries[k]?).map key = _
    rw [← List.getElem?_map]
    exact List.getElem?_eq_getElem hk
  have hindex := hat i hi
  rw [heq, hat j hj] at hindex
  exact absurd (Option.some.inj hindex) (Nat.ne_of_gt hlt)

/-- Where the define of a symbol stands that is visible now, if the scope of the current program is
searched before the shared one. -/
def Scopes.lookupLocalFirst (s : Scopes) (name : Symbol) : Option Place :=
  match s.current.bind fun p => (s.indexIn (some p) name).map (⟨some p, ·⟩) with
  | some place => some place
  | none => (s.indexIn none name).map (⟨none, ·⟩)

/-- Whether names are used for one thing each. -/
structure Draft.Unambiguous (d : Draft) : Prop where
  /-- The programs have different names. -/
  programs : (d.file.listing.programs.map Program.name).Nodup
  /-- The defines of a program, and the shared ones, have different names. -/
  defines : ∀ scope, ((d.file.listing.definesIn scope).map Define.name).Nodup
  /-- It does not matter which scope is searched first. -/
  anyOrder : ∀ name, d.scopes.lookup name = d.scopes.lookupLocalFirst name
  /-- What is found is there and has the name. -/
  found : ∀ name place, d.scopes.lookup name = some place →
    ∃ define, d.file.listing.at? place = some define ∧ define.name = name
  /-- A program that is opened gets the number at which it is put into the listing. -/
  opened : ∀ name scopes, d.scopes.openProgram name = some scopes →
    scopes.current = some d.file.listing.programs.length

/-- Where scopes and listing agree, names are used for one thing each. -/
theorem Draft.Consistent.unambiguous {d : Draft} (h : d.Consistent) : d.Unambiguous where
  programs := h.programs.nodup
  defines scope := (h.indexes scope).nodup
  anyOrder name := by
    rw [Scopes.lookup_eq_lookupIn, Scopes.lookupLocalFirst]
    rcases hshared : d.scopes.indexIn none name with _ | i
    · rw [Scopes.lookupIn_of_not_shared hshared]
      rcases d.scopes.current with _ | p
      · simp [hshared]
      · rcases hlocal : d.scopes.indexIn (some p) name <;> simp [hlocal]
    · -- a shared name is not local
      have hlocal : ∀ p, d.scopes.indexIn (some p) name = none := by
        intro p
        by_contra hsome
        rw [h.apart hsome] at hshared
        cases hshared
      rw [Scopes.lookupIn_of_shared hshared]
      simp [hlocal]
  found name place hlookup := h.exists_at? hlookup
  opened name scopes hopen := by
    obtain ⟨-, rfl⟩ := Scopes.openProgram_eq_some hopen
    rw [h.locals_length]

/-! ### Searching a file by name -/

/-- In a table of distinct names, a search among entries with different symbols finds the one entry
with the name. -/
theorem NameTable.find?_eq_some_iff {α : Type} {table : NameTable} {entries : List α}
    {key : α → Symbol} (hdistinct : table.names.Nodup) (hknown : ∀ x ∈ entries, table.Has (key x))
    (hkeys : (entries.map key).Nodup) {name : Text} {x : α} :
    ((table.symbol? name).bind fun s => entries.find? (key · = s)) = some x ↔
      x ∈ entries ∧ table.resolve (key x) = name := by
  constructor
  · intro h
    obtain ⟨s, hs, hfind⟩ := Option.bind_eq_some_iff.1 h
    have hkey : key x = s := by simpa using List.find?_some hfind
    rw [hkey]
    exact ⟨List.mem_of_find?_eq_some hfind, resolve_of_symbol? hs⟩
  · rintro ⟨hmem, rfl⟩
    rw [symbol?_resolve hdistinct (hknown x hmem), Option.bind_some]
    have hsome : (entries.find? (key · = key x)).isSome :=
      List.find?_isSome.2 ⟨x, hmem, decide_eq_true rfl⟩
    obtain ⟨y, hy⟩ := Option.isSome_iff_exists.1 hsome
    have hkey : key y = key x := by simpa using List.find?_some hy
    rw [hy, List.inj_on_of_nodup_map hkeys (List.mem_of_find?_eq_some hy) hmem hkey]

/-- Whether each name in a file is used for one entry of a kind, and that entry is found. -/
structure File.Unambiguous (f : File) : Prop where
  /-- The shared defines have different names. -/
  defines : (f.named.defines.map Define.name).Nodup
  /-- The programs have different names. -/
  programs : (f.named.programs.map Program.name).Nodup
  /-- The defines of a program have different names. -/
  locals : ∀ p ∈ f.named.programs, (p.defines.map Define.name).Nodup
  /-- The shared define with a name is found. -/
  shared?_iff : ∀ name d, f.shared? name = some d ↔
    d ∈ f.listing.defines ∧ f.names.resolve d.name = name
  /-- The program with a name is found. -/
  program?_iff : ∀ name p, f.program? name = some p ↔
    p ∈ f.listing.programs ∧ f.names.resolve p.name = name
  /-- The define of a program with a name is found. -/
  local?_iff : ∀ p ∈ f.listing.programs, ∀ name d, f.local? p name = some d ↔
    d ∈ p.defines ∧ f.names.resolve d.name = name

/-- Names stay different when they are put in place of symbols. -/
theorem NameTable.nodup_resolve {table : NameTable} {symbols : List Symbol}
    (hdistinct : table.names.Nodup) (hknown : ∀ s ∈ symbols, table.Has s) (h : symbols.Nodup) :
    (symbols.map table.resolve).Nodup :=
  h.map_on fun s hs t ht => (resolve_inj hdistinct (hknown s hs) (hknown t ht)).1

/-- A draft that shows a listing has a file in which names are not ambiguous. -/
theorem Draft.Shows.unambiguous {d : Draft} {l : Listing Text} {entered : List Text}
    (h : d.Shows l entered) : d.file.Unambiguous := by
  have hd := h.consistent.unambiguous
  have hdeclared : ∀ s ∈ d.file.listing.declared, d.file.names.Has s := fun s hs =>
    h.known s (Listing.declared_subset_mentioned _ hs)
  have hshared : ∀ define ∈ d.file.listing.defines, d.file.names.Has define.name :=
    fun define hmem => hdeclared _ (List.mem_append_left _ (List.mem_map_of_mem hmem))
  have hown : ∀ p ∈ d.file.listing.programs, ∀ s ∈ p.name :: p.defines.map Define.name,
      d.file.names.Has s := fun p hp s hs =>
    hdeclared s (List.mem_append_right _ (List.mem_flatMap.2 ⟨p, hp, hs⟩))
  have hprograms : ∀ p ∈ d.file.listing.programs, d.file.names.Has p.name :=
    fun p hp => hown p hp _ List.mem_cons_self
  have hlocal : ∀ p ∈ d.file.listing.programs, ∀ define ∈ p.defines,
      d.file.names.Has define.name := fun p hp define hmem =>
    hown p hp _ (List.mem_cons_of_mem _ (List.mem_map_of_mem hmem))
  have hnodup : ∀ p ∈ d.file.listing.programs, (p.defines.map Define.name).Nodup := by
    intro p hp
    obtain ⟨i, hi, rfl⟩ := List.mem_iff_getElem.1 hp
    have hdefines := hd.defines (some i)
    rw [Listing.definesIn, List.getElem?_eq_getElem hi] at hdefines
    exact hdefines
  exact {
    defines := by
      have hnames := NameTable.nodup_resolve h.distinct
        (List.forall_mem_map.2 hshared) (hd.defines none)
      simpa [File.named, Listing.map, Define.map, Function.comp_def, Listing.definesIn] using hnames
    programs := by
      have hnames := NameTable.nodup_resolve h.distinct (List.forall_mem_map.2 hprograms)
        hd.programs
      simpa [File.named, Listing.map, Program.map, Function.comp_def] using hnames
    locals := by
      intro p hp
      obtain ⟨q, hq, rfl⟩ := List.mem_map.1 hp
      have hnames := NameTable.nodup_resolve h.distinct (List.forall_mem_map.2 (hlocal q hq))
        (hnodup q hq)
      simpa [Program.map, Define.map, Function.comp_def] using hnames
    shared?_iff := fun name define =>
      NameTable.find?_eq_some_iff h.distinct hshared (hd.defines none)
    program?_iff := fun name p => NameTable.find?_eq_some_iff h.distinct hprograms hd.programs
    local?_iff := fun p hp name define =>
      NameTable.find?_eq_some_iff h.distinct (hlocal p hp) (hnodup p hp) }

/-- In a file that comes out names are not ambiguous. -/
theorem compile_unambiguous {source : Text} {f : File} (h : compile source = .ok f) :
    f.Unambiguous := by
  obtain ⟨hlines, -⟩ := compile_eq_ok_iff.1 h
  obtain ⟨d, hcompile, hshows⟩ := exists_draft_of_listing hlines
  rw [hcompile] at h
  cases h
  exact hshows.unambiguous

/-- In every compilation scopes and listing agree and no name is ambiguous, and a file that comes
out is searched by name accordingly. -/
theorem compilation_unambiguous (source : Text) :
    (∀ c, Compilation.Reachable source c → c.draft.Consistent ∧ c.draft.Unambiguous) ∧
      ∀ f, compile source = .ok f → f.Unambiguous :=
  ⟨fun _ h => ⟨h.consistent, h.consistent.unambiguous⟩, fun _ h => compile_unambiguous h⟩

/-- A compilation goes on after a fault, and a program whose name is taken is refused. A file has a
program and a shared define of one name. -/
theorem compilation_unambiguous_after_fault :
    let source : Text := ".define a (\n.define b 2\n.program b\n.define a b".toList
    let c := (((Compilation.ofText source).perform .run).perform .run).perform (.openProgram ⟨0⟩)
    let a : Define Symbol := { name := ⟨1⟩, expr := .name ⟨0⟩, value := some 2 }
    let p : Program Symbol := { name := ⟨0⟩, defines := [a] }
    let f : File :=
      { names := ⟨[['b'], ['a']]⟩
        listing := {
          defines := [{ name := ⟨0⟩, expr := .literal 2, value := some 2 }], programs := [p] } }
    (Compilation.Reachable source c ∧ c.draft.scopes.lookup ⟨1⟩ = some ⟨some 0, 0⟩ ∧
      c.draft.scopes.lookupLocalFirst ⟨1⟩ = some ⟨some 0, 0⟩) ∧
    compile ".define b 2\n.program b\n.define a b".toList = .ok f ∧ f.local? p ['a'] = some a := by
  intro source c a p f
  have hreachable : Compilation.Reachable source c :=
    ((Compilation.Reachable.start.perform .run).perform .run).perform (.openProgram ⟨0⟩)
  have hlookup : c.draft.scopes.lookup ⟨1⟩ = some ⟨some 0, 0⟩ := by decide +kernel
  obtain ⟨-, hdraft⟩ := (compilation_unambiguous source).1 c hreachable
  have hcompile : compile ".define b 2\n.program b\n.define a b".toList = .ok f := by
    decide +kernel
  have hfile := (compilation_unambiguous _).2 f hcompile
  refine ⟨⟨hreachable, hlookup, (hdraft.anyOrder _).symm.trans hlookup⟩, hcompile, ?_⟩
  exact (hfile.local?_iff p List.mem_cons_self ['a'] a).2 ⟨List.mem_cons_self, by decide⟩

end PioFrontEnd
