import PioFrontEnd.Proofs.ByName.Basic
import PioFrontEnd.Proofs.Draft.Consistency
import PioFrontEnd.Proofs.Exact.Operators
import PioFrontEnd.Proofs.Grammar.Phrase
import PioFrontEnd.Proofs.Listing

/-!
# What a source says, reckoned without bounds

The lines of a source, taken as they are spelled, are a script: each one begins a program or gives a
name to a phrase of the grammar (`Written`). A script can be reckoned on unbounded integers. A
number counts in full, however long it is, operators do not wrap, and a name counts for what was
reckoned for it. No word, no expression tree and no value of a file has a part in this.

Results are kept where the defines stand that they belong to (`Scoped`). The defines of a listing
are kept in the same way, so both can be looked at side by side.

* `Expr.Phrase.unbounded`: the number that a phrase comes to.
* `Writes`: whether a script is what a source says. `Writes.unique` says that there is one at most.
* `reckon`: the numbers of a script, each with its name and at its place.
-/

namespace PioFrontEnd

/-! ### Entries in scopes -/

/-- Entries that stand in a source as defines do: some are shared, and each program has its own. -/
structure Scoped (α : Type) where
  /-- The entries that every program sees, in order. -/
  shared : List α := []
  /-- The entries of each program, in order. -/
  programs : List (List α) := []
  deriving DecidableEq, Repr

namespace Scoped

variable {α β : Type}

/-- The entries of one program, or the shared ones. -/
def entriesIn (s : Scoped α) : Option Nat → List α
  | none => s.shared
  | some p => s.programs[p]?.getD []

/-- The entry at a place. -/
def at? (s : Scoped α) (place : Place) : Option α := (s.entriesIn place.program)[place.index]?

/-- The last program, if there is one. -/
def current (s : Scoped α) : Option Nat :=
  if s.programs.length = 0 then none else some (s.programs.length - 1)

/-- The place that the next entry takes. -/
def next (s : Scoped α) : Place := ⟨s.current, (s.entriesIn s.current).length⟩

/-- The entries that can be seen at the end, the shared ones first. -/
def visible (s : Scoped α) : List α := s.shared ++ s.programs.getLast?.getD []

/-- Puts an entry at the end of the last program, or of what is shared if there is no program. -/
def append (s : Scoped α) (a : α) : Scoped α :=
  match s.programs.getLast? with
  | none => { s with shared := s.shared ++ [a] }
  | some own => { s with programs := s.programs.dropLast ++ [own ++ [a]] }

/-- Begins a program. -/
def addProgram (s : Scoped α) : Scoped α := { s with programs := s.programs ++ [[]] }

/-- Changes every entry. -/
def map (f : α → β) (s : Scoped α) : Scoped β :=
  { shared := s.shared.map f, programs := s.programs.map (List.map f) }

/-- Nothing is there at first. -/
@[simp] theorem at?_empty (place : Place) : ({} : Scoped α).at? place = none := by
  obtain ⟨scope, i⟩ := place
  cases scope <;> rfl

/-- A new entry is found at the next place, and no other entry moves. -/
theorem at?_append (s : Scoped α) (a : α) (place : Place) :
    (s.append a).at? place = if place = s.next then some a else s.at? place := by
  obtain ⟨shared, programs⟩ := s
  obtain ⟨scope, i⟩ := place
  rcases List.eq_nil_or_concat programs with rfl | ⟨earlier, own, rfl⟩
  · cases scope with
    | none => simp [append, at?, entriesIn, next, current, getElem?_concat]
    | some p => simp [append, at?, entriesIn, next, current]
  · cases scope with
    | none => simp [append, at?, entriesIn, next, current]
    | some p =>
      simp only [append, at?, entriesIn, next, current, List.getLast?_concat, List.dropLast_concat,
        getElem?_concat, List.length_append, List.length_singleton, Nat.add_sub_cancel,
        Place.mk.injEq, List.concat_eq_append]
      by_cases hp : p = earlier.length
      · simp [hp, getElem?_concat]
      · simp [hp]

/-- Nothing is found yet at the next place. -/
theorem at?_next (s : Scoped α) : s.at? s.next = none := by
  simp [at?, next]

/-- A program that is begun has no entries. -/
theorem at?_addProgram (s : Scoped α) (place : Place) : s.addProgram.at? place = s.at? place := by
  obtain ⟨scope, i⟩ := place
  cases scope with
  | none => rfl
  | some p =>
    simp only [at?, entriesIn, addProgram, getElem?_concat]
    split
    · rename_i hp
      simp [hp]
    · rfl

/-- What can be seen at the end stands somewhere in sight. -/
theorem exists_at?_of_mem_visible {s : Scoped α} {a : α} (h : a ∈ s.visible) :
    ∃ place, s.at? place = some a ∧ place.SeenFrom s.current := by
  obtain ⟨shared, programs⟩ := s
  rcases List.mem_append.1 h with h | h
  · obtain ⟨i, hi⟩ := List.mem_iff_getElem?.1 h
    exact ⟨⟨none, i⟩, hi, .inl rfl⟩
  · rcases List.eq_nil_or_concat programs with rfl | ⟨earlier, own, rfl⟩
    · cases h
    · obtain ⟨i, hi⟩ := List.mem_iff_getElem?.1 h
      refine ⟨⟨some earlier.length, i⟩, ?_, .inr ?_⟩
      · simpa [at?, entriesIn] using hi
      · simp [current]

/-- After a change of entries, what stands at a place is what stood there, changed. -/
theorem at?_map (f : α → β) (s : Scoped α) (place : Place) :
    (s.map f).at? place = (s.at? place).map f := by
  obtain ⟨scope, i⟩ := place
  cases scope with
  | none => exact List.getElem?_map
  | some p =>
    simp only [at?, entriesIn, map, List.getElem?_map]
    cases s.programs[p]? <;> simp

/-- After a change of entries the same ones are visible, changed. -/
theorem visible_map (f : α → β) (s : Scoped α) : (s.map f).visible = s.visible.map f := by
  simp only [visible, map, List.getLast?_map, List.map_append]
  cases s.programs.getLast? <;> simp

/-- Entries can be changed before or after one is put at the end. -/
theorem append_map (f : α → β) (s : Scoped α) (a : α) :
    (s.append a).map f = (s.map f).append (f a) := by
  simp only [append, map, List.getLast?_map]
  cases s.programs.getLast? <;> simp [List.map_dropLast]

/-- Entries can be changed before or after a program is begun. -/
theorem addProgram_map (f : α → β) (s : Scoped α) : s.addProgram.map f = (s.map f).addProgram := by
  simp [addProgram, map]

end Scoped

namespace Listing

variable {ν : Type}

/-- The defines of a listing as entries. -/
def entries (l : Listing ν) : Scoped (Define ν) := ⟨l.defines, l.programs.map Program.defines⟩

/-- A define that is put at the end is the last entry. -/
theorem entries_append (l : Listing ν) (d : Define ν) :
    (l.append d).entries = l.entries.append d := by
  simp only [entries, append, Scoped.append, List.getLast?_map]
  cases l.programs.getLast? <;> simp [List.map_dropLast]

/-- A program that is added is begun among the entries. -/
theorem entries_addProgram (l : Listing ν) (name : ν) :
    (l.addProgram name).entries = l.entries.addProgram := by
  simp [entries, addProgram, Scoped.addProgram]

/-- At every place the entry is the define there. -/
theorem at?_entries (l : Listing ν) (place : Place) : l.entries.at? place = l.at? place := by
  obtain ⟨scope, i⟩ := place
  cases scope with
  | none => rfl
  | some p => simp only [entries, Scoped.at?, Scoped.entriesIn, List.getElem?_map, at?, definesIn]

/-- The entries that are visible are the defines that are. -/
theorem visible_entries (l : Listing ν) : l.entries.visible = l.visible := by
  simp only [entries, Scoped.visible, List.getLast?_map, visible]

end Listing

/-! ### Scripts -/

/-- The number that a phrase comes to on unbounded integers, given the numbers of its symbols. It
has none if a divisor is zero or if a symbol has none. -/
def Expr.Phrase.unbounded (look : Text → Option Int) {level : Nat} : Phrase level → Option Int
  | number token _ => some (Nat.ofDigitChars 10 token.text 0 : Nat)
  | symbol token _ => look token.text
  | parentheses _ _ inner _ _ => inner.unbounded look
  | operand first => first.unbounded look
  | link chain op _ _ _ last => do
    let a ← chain.unbounded look
    let b ← last.unbounded look
    op.unbounded? a b

/-- What a line says, as it is spelled. -/
inductive Written where
  /-- Begins a program. -/
  | program (name : Text)
  /-- Gives a name to what a phrase comes to. -/
  | constant (name : Text) (phrase : Expr.Phrase 5)

/-- Whether tokens spell a line of a script. A program has its name after the directive and nothing
else. A constant has its name and a phrase after the directive, and there may be a qualifier before
the name, which makes no difference. -/
def Written.Spells : Written → List Token → Prop
  | program text, tokens => ∃ directive name : Token, directive.kind = .directive .program ∧
      name.kind = .symbol ∧ name.text = text ∧ tokens = [directive, name]
  | constant text phrase, tokens => ∃ (directive name : Token) (qualifier : Option Token),
      directive.kind = .directive .define ∧ (∀ q ∈ qualifier, q.kind = .qualifier .exported) ∧
      name.kind = .symbol ∧ name.text = text ∧
      tokens = directive :: (qualifier.toList ++ name :: phrase.tokens)

/-- The name of a constant stands where there is no qualifier, so nothing but the tokens decides
whether there is one. -/
theorem eq_of_qualified_eq {name name' : Token} {q q' : Option Token} {rest rest' : List Token}
    (hq : ∀ t ∈ q, t.kind = .qualifier .exported) (hq' : ∀ t ∈ q', t.kind = .qualifier .exported)
    (hname : name.kind = .symbol) (hname' : name'.kind = .symbol)
    (h : q.toList ++ name :: rest = q'.toList ++ name' :: rest') : name = name' ∧ rest = rest' := by
  cases q with
  | none =>
    cases q' with
    | none => exact List.cons.inj h
    | some t =>
      have ht := hq' t rfl
      rw [← (List.cons.inj h).1, hname] at ht
      cases ht
  | some t =>
    cases q' with
    | none =>
      have ht := hq t rfl
      rw [(List.cons.inj h).1, hname'] at ht
      cases ht
    | some t' => exact List.cons.inj (List.cons.inj h).2

/-- Tokens spell one line of a script at most. -/
theorem Written.Spells.unique {v w : Written} {tokens : List Token} (hv : v.Spells tokens)
    (hw : w.Spells tokens) : v = w := by
  cases v with
  | program text =>
    obtain ⟨directive, name, hdirective, hname, rfl, rfl⟩ := hv
    cases w with
    | program text' =>
      obtain ⟨directive', name', -, -, rfl, htokens⟩ := hw
      cases htokens
      rfl
    | constant text' phrase =>
      obtain ⟨directive', name', q, hdirective', -, -, -, htokens⟩ := hw
      cases (List.cons.inj htokens).1
      cases hdirective.symm.trans hdirective'
  | constant text phrase =>
    obtain ⟨directive, name, q, hdirective, hq, hname, rfl, rfl⟩ := hv
    cases w with
    | program text' =>
      obtain ⟨directive', name', hdirective', -, -, htokens⟩ := hw
      cases (List.cons.inj htokens).1
      cases hdirective.symm.trans hdirective'
    | constant text' phrase' =>
      obtain ⟨directive', name', q', -, hq', hname', rfl, htokens⟩ := hw
      obtain ⟨rfl, hphrase⟩ := eq_of_qualified_eq hq hq' hname hname' (List.cons.inj htokens).2
      rw [Expr.Phrase.eq_of_tokens_eq hphrase]

/-- Whether a script is what a source says, line by line. -/
def Writes (source : Text) (script : List Written) : Prop :=
  List.Forall₂ (fun item written => ∃ line, item = .ok line ∧ written.Spells line.tokens)
    (TokenStream.ofText source).lines script

/-- A source says one thing at most. -/
theorem Writes.unique {source : Text} {script script' : List Written} (h : Writes source script)
    (h' : Writes source script') : script = script' := by
  unfold Writes at h h'
  generalize (TokenStream.ofText source).lines = lines at h h'
  induction h generalizing script' with
  | nil =>
    cases h'
    rfl
  | cons hline hlines ih =>
    cases h' with
    | cons hline' hlines' =>
      obtain ⟨line, rfl, hspells⟩ := hline
      obtain ⟨line', hsame, hspells'⟩ := hline'
      cases hsame
      rw [hspells.unique hspells', ih hlines']

/-! ### Reckoning -/

/-- What has been reckoned: the names of constants with their numbers. -/
abbrev Reckoning := Scoped (Text × Option Int)

namespace Reckoning

/-- The number of a name that can be seen. -/
def look (r : Reckoning) (name : Text) : Option Int :=
  (r.visible.find? (·.1 = name)).bind Prod.snd

/-- Takes one line of a script. -/
def take (r : Reckoning) : Written → Reckoning
  | .program _ => r.addProgram
  | .constant name phrase => r.append (name, phrase.unbounded r.look)

end Reckoning

/-- The numbers of a script. -/
def reckon (script : List Written) : Reckoning := script.foldl Reckoning.take {}

end PioFrontEnd
