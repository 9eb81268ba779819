import PioFrontEnd.Proofs.Grammar.Derivation
import PioFrontEnd.Proofs.Isolation

/-!
# Exchanging two defines

Two defines on adjacent lines can be exchanged if neither mentions the other one's name. Each of them
is then read, evaluated and added as if the other one were not there, since all that a line asks of
the listing is which define a name stands for, and the name of the other define is not asked for.
From there on the two listings differ only in the order of two entries of one list. No search can
tell them apart, because the names are different, and so every later line does the same to both.

* `Statement.read_eq_ok_iff_seen`: a line asks only for the names in its expression.
* `Listing.takeLine_of_agree`: a line does the same to listings that agree on the names it asks for.
* `Listing.exchange`: two lines in the other order.
* `Listing.Exchanged`: listings with two defines exchanged, and what later lines make of them.
* `compile_exchange`: what this means for sources.
-/

namespace PioFrontEnd

/-! ### What a line says -/

namespace Statement

variable {see : Text → Option Text} {line : Line}

/-- The name that a statement gives to a constant. -/
def definedName? : Statement Text → Option Text
  | program _ => none
  | define _ name _ => some name

/-- Where names are seen as themselves, a constant is read exactly if it is read when all are seen,
and all names in it are. -/
theorem readConstant_eq_ok_iff_seen
    (hself : ∀ {name seen : Text}, see name = some seen → seen = name) {site : Nat}
    {exported : Bool} {s : Statement Text} : readConstant see site exported line = .ok s ↔
      readConstant some site exported line = .ok s ∧ ∀ n ∈ s.names, see n = some n := by
  by_cases hkind : line.peek.kind = .symbol
  · have hname : line.read? .symbol = some (line.peek, line.rest) := if_pos hkind
    have hiff : ∀ see' : Text → Option Text, readConstant see' site exported line = .ok s ↔
        ∃ e, Expr.readToEnd see' line.rest = .ok e ∧ s = .define exported line.peek.text e := by
      intro see'
      rw [readConstant_eq hname]
      rcases Expr.readToEnd see' line.rest with fault | e <;> simp [Except.map, eq_comm]
    simp only [hiff, Expr.readToEnd_eq_ok_iff_seen hself]
    constructor
    · rintro ⟨e, ⟨hread, hnames⟩, rfl⟩
      exact ⟨⟨e, hread, rfl⟩, hnames⟩
    · rintro ⟨⟨e, hread, rfl⟩, hnames⟩
      exact ⟨e, ⟨hread, hnames⟩, rfl⟩
  · have hname : line.read? .symbol = none := if_neg hkind
    simp [readConstant, hname]

/-- Where names are seen as themselves, a line is read exactly if it is read when all are seen, and
all names in what it says are. -/
theorem read_eq_ok_iff_seen (hself : ∀ {name seen : Text}, see name = some seen → seen = name)
    {s : Statement Text} :
    read see line = .ok s ↔ read some line = .ok s ∧ ∀ n ∈ s.names, see n = some n := by
  unfold read
  dsimp only
  split
  · refine ⟨fun h => ⟨h, ?_⟩, And.left⟩
    obtain ⟨-, -, rfl⟩ := readProgram_eq_ok.1 h
    exact fun n hn => nomatch hn
  · rw [readDefine_eq, readDefine_eq]
    split <;> exact readConstant_eq_ok_iff_seen hself
  · simp

end Statement

namespace Line

/-- What a line says if all names are seen. -/
def statement? (line : Line) : Option (Statement Text) := (Statement.read some line).toOption

/-- The name that a line gives to a constant. -/
def definedName? (line : Line) : Option Text := line.statement?.bind Statement.definedName?

/-- Whether a name is mentioned in the expression of a line. -/
def Mentions (line : Line) (name : Text) : Prop := ∃ s ∈ line.statement?, name ∈ s.names

instance (line : Line) (name : Text) : Decidable (line.Mentions name) :=
  inferInstanceAs (Decidable (∃ s ∈ line.statement?, name ∈ s.names))

end Line

namespace Text

/-- Whether a text has one line with tokens, which begins with `.define` unless there is something in
it that is no token. -/
structure IsDefine (t : Text) : Prop where
  /-- There is one line. -/
  single : (TokenStream.ofText t).lines.length = 1
  /-- It begins with the directive. -/
  begins : ∀ item ∈ (TokenStream.ofText t).lines, ∀ line ∈ item.toOption,
    line.peek.kind = .directive .define

/-- Whether a text does not mention the name that another one gives. -/
def Ignores (t u : Text) : Prop :=
  ∀ item ∈ (TokenStream.ofText t).lines, ∀ line ∈ item.toOption,
    ∀ item' ∈ (TokenStream.ofText u).lines, ∀ other ∈ item'.toOption,
      ∀ name ∈ other.definedName?, ¬ line.Mentions name

instance (t u : Text) : Decidable (t.Ignores u) :=
  inferInstanceAs (Decidable (∀ item ∈ (TokenStream.ofText t).lines, ∀ line ∈ item.toOption,
    ∀ item' ∈ (TokenStream.ofText u).lines, ∀ other ∈ item'.toOption,
      ∀ name ∈ other.definedName?, ¬ line.Mentions name))

/-- Whether a text gives this name to a constant. -/
def Defines (t : Text) (name : Text) : Prop :=
  ∃ line, (TokenStream.ofText t).lines = [.ok line] ∧ line.definedName? = some name

end Text

namespace Listing

variable {l m l' : Listing Text} {line : Line}

/-- A line that begins with the directive, and is taken, says a constant. -/
theorem statement?_of_takeLine (h : line.peek.kind = .directive .define)
    (htake : l.takeLine line = .ok l') : ∃ exported name expr,
      Statement.read l.see line = .ok (.define exported name expr) ∧
      line.statement? = some (.define exported name expr) ∧
      l.defineConstant exported name expr = .ok l' := by
  obtain ⟨statement, hread, hobey⟩ := takeLine_eq_ok.1 htake
  have hall := ((Statement.read_eq_ok_iff_seen eq_of_see).1 hread).1
  cases statement with
  | program name =>
    rcases Statement.read_eq_program_or_define hread with ⟨hprogram, -⟩ | ⟨-, _, line', -, hconstant⟩
    · rw [h] at hprogram
      cases hprogram
    · obtain ⟨-, expr, left, -, -, heq⟩ := Statement.readConstant_eq_ok.1 hconstant
      cases heq
  | define exported name expr =>
    exact ⟨exported, name, expr, hread, by rw [Line.statement?, hall]; rfl, hobey⟩

/-- A line that gives a name to a constant does the same to two listings in which that name and the
names that it mentions are found alike. -/
theorem takeLine_of_agree (h : line.peek.kind = .directive .define)
    (hname : ∀ n ∈ line.definedName?, m.find? n = l.find? n)
    (hmention : ∀ n, line.Mentions n → m.find? n = l.find? n) (htake : l.takeLine line = .ok l') :
    ∃ d, line.definedName? = some d.name ∧ l.find? d.name = none ∧ l' = l.append d ∧
      m.takeLine line = .ok (m.append d) := by
  obtain ⟨exported, name, expr, hread, hstatement, hobey⟩ := statement?_of_takeLine h htake
  obtain ⟨v, hvalue, hfree, rfl⟩ := defineConstant_eq_ok.1 hobey
  have hdefined : line.definedName? = some name := by
    rw [Line.definedName?, hstatement]
    rfl
  have hagree : ∀ n ∈ expr.names, m.find? n = l.find? n :=
    fun n hn => hmention n ⟨_, hstatement, hn⟩
  have hread' : Statement.read m.see line = .ok (.define exported name expr) := by
    obtain ⟨hall, hseen⟩ := (Statement.read_eq_ok_iff_seen eq_of_see).1 hread
    refine (Statement.read_eq_ok_iff_seen eq_of_see).2 ⟨hall, fun n hn => ?_⟩
    rw [see, hagree n hn]
    exact hseen n hn
  have hvalue' : expr.valueUnder m.valueOf = .ok v := by
    rw [← hvalue]
    refine Expr.valueUnder_congr fun n hn => ?_
    rw [valueOf, valueOf, hagree n hn]
  have hfree' : (m.find? name).isSome = false := by rwa [hname name hdefined]
  refine ⟨_, hdefined, ?_, rfl, takeLine_eq_ok.2 ⟨_, hread', defineConstant_eq_ok.2
    ⟨v, hvalue', hfree', rfl⟩⟩⟩
  exact Option.isSome_eq_false_iff.1 hfree |> Option.isNone_iff_eq_none.1

/-- A define that is put at the end is found where nothing else is. -/
theorem find?_append (l : Listing Text) (d : Define Text) (name : Text) :
    (l.append d).find? name = (l.find? name).or (if d.name = name then some d else none) := by
  rw [find?, find?, visible_append, List.find?_append, List.find?_singleton]
  simp only [decide_eq_true_eq]

/-- A define that is put at the end is not found under any other name. -/
theorem find?_append_of_ne {d : Define Text} {name : Text} (h : name ≠ d.name) (l : Listing Text) :
    (l.append d).find? name = l.find? name := by
  rw [find?_append, if_neg h.symm, Option.or_none]

/-- Two lines that are taken, and do not mention each other's names, are taken in the other order.
Each of them adds the same define. -/
theorem exchange {other : Line} {l₁ l₂ : Listing Text} (hline : line.peek.kind = .directive .define)
    (hother : other.peek.kind = .directive .define)
    (hignores : ∀ n ∈ other.definedName?, ¬ line.Mentions n)
    (hignored : ∀ n ∈ line.definedName?, ¬ other.Mentions n) (h : l.takeLine line = .ok l₁)
    (h' : l₁.takeLine other = .ok l₂) :
    ∃ a b, line.definedName? = some a.name ∧ other.definedName? = some b.name ∧
      a.name ≠ b.name ∧ l₂ = (l.append a).append b ∧ l.takeLine other = .ok (l.append b) ∧
      (l.append b).takeLine line = .ok ((l.append b).append a) := by
  obtain ⟨a, ha, -, rfl, -⟩ := takeLine_of_agree hline (fun _ _ => rfl) (fun _ _ => rfl) h
  have hnames : ∀ n ∈ other.definedName?, n ≠ a.name := by
    obtain ⟨b, hb, hfree, -⟩ := takeLine_of_agree hother (fun _ _ => rfl) (fun _ _ => rfl) h'
    intro n hn heq
    rw [Option.some.inj (hb.symm.trans hn), heq, find?_append, if_pos rfl] at hfree
    simp at hfree
  obtain ⟨b, hb, -, rfl, hfirst⟩ := takeLine_of_agree (m := l) hother
    (fun n hn => (find?_append_of_ne (hnames n hn) l).symm)
    (fun n hn => (find?_append_of_ne (fun heq => hignored a.name ha (heq ▸ hn)) l).symm) h'
  have hne : a.name ≠ b.name := (hnames b.name hb).symm
  obtain ⟨a', ha', -, happend, hsecond⟩ := takeLine_of_agree (m := l.append b) hline
    (fun n hn => find?_append_of_ne (Option.some.inj (ha.symm.trans hn) ▸ hne) l)
    (fun n hn => find?_append_of_ne (fun heq => hignores b.name hb (heq ▸ hn)) l) h
  refine ⟨a', b, ha', hb, ?_, by rw [happend], hfirst, hsecond⟩
  rwa [Option.some.inj (ha'.symm.trans ha)]

/-! ### Two defines exchanged -/

/-- Whether two listings are the same but for two defines of one list that stand the other way
round. -/
inductive Exchanged (a b : Define Text) : Listing Text → Listing Text → Prop where
  /-- They are shared. -/
  | shared (before after : List (Define Text)) (programs : List (Program Text)) :
    Exchanged a b ⟨before ++ a :: b :: after, programs⟩ ⟨before ++ b :: a :: after, programs⟩
  /-- They belong to one program. -/
  | own (shared : List (Define Text)) (earlier later : List (Program Text)) (p : Program Text)
    (before after : List (Define Text)) :
    Exchanged a b ⟨shared, earlier ++ { p with defines := before ++ a :: b :: after } :: later⟩
      ⟨shared, earlier ++ { p with defines := before ++ b :: a :: after } :: later⟩

/-- Two defines that are put at the end one way round or the other. -/
theorem exchanged_append (l : Listing Text) (a b : Define Text) :
    Exchanged a b ((l.append a).append b) ((l.append b).append a) := by
  obtain ⟨shared, programs⟩ := l
  rcases List.eq_nil_or_concat' programs with rfl | ⟨programs, p, rfl⟩
  · simp only [append_of_nil, List.append_assoc, List.singleton_append]
    exact .shared shared [] []
  · simp only [append_of_concat, List.append_assoc, List.singleton_append]
    exact .own shared programs [] p p.defines []

/-- A search by name does not depend on the order of entries with different names. -/
theorem find?_exchange {a b : Define Text} (h : a.name ≠ b.name) (before after : List (Define Text))
    (name : Text) : (before ++ b :: a :: after).find? (·.name = name) =
      (before ++ a :: b :: after).find? (·.name = name) := by
  rw [List.find?_append, List.find?_append]
  congr 1
  by_cases ha : a.name = name
  · have hb : b.name ≠ name := fun hb => h (ha.trans hb.symm)
    simp [ha, hb]
  · simp [List.find?_cons, ha]

namespace Exchanged

variable {a b : Define Text}

/-- If two defines are exchanged, they are exchanged among what is visible, or are not visible. -/
theorem visible_eq (h : Exchanged a b l m) : m.visible = l.visible ∨ ∃ before after,
    l.visible = before ++ a :: b :: after ∧ m.visible = before ++ b :: a :: after := by
  cases h with
  | shared before after programs => exact .inr ⟨before, _, List.append_assoc .., List.append_assoc ..⟩
  | own shared earlier later p before after =>
    rcases List.eq_nil_or_concat' later with rfl | ⟨later, q, rfl⟩
    · refine .inr ⟨shared ++ before, after, ?_, ?_⟩ <;> simp [visible]
    · refine .inl ?_
      simp only [visible, ← List.cons_append, ← List.append_assoc, List.getLast?_concat]

/-- Names are found alike. -/
theorem find?_eq (h : Exchanged a b l m) (hne : a.name ≠ b.name) : m.find? = l.find? := by
  funext name
  rw [find?, find?]
  rcases h.visible_eq with hsame | ⟨before, after, hl, hm⟩
  · rw [hsame]
  · rw [hl, hm, find?_exchange hne]

/-- Programs have the names that they had before defines were exchanged. -/
theorem isSome_program?_eq (h : Exchanged a b l m) (name : Text) :
    (m.program? name).isSome = (l.program? name).isSome := by
  cases h with
  | shared before after programs => rfl
  | own shared earlier later p before after =>
    simp only [program?, List.find?_append, List.find?_cons]
    by_cases hname : p.name = name <;> simp [hname]

/-- Defines that are exchanged stay so when a program is added. -/
theorem addProgram (h : Exchanged a b l m) (name : Text) :
    Exchanged a b (l.addProgram name) (m.addProgram name) := by
  cases h with
  | shared before after programs => exact .shared before after _
  | own shared earlier later p before after =>
    simp only [Listing.addProgram, List.append_assoc, List.cons_append]
    exact .own shared earlier _ p before after

/-- Defines that are exchanged stay so when another one is put at the end. -/
theorem append (h : Exchanged a b l m) (d : Define Text) :
    Exchanged a b (l.append d) (m.append d) := by
  cases h with
  | shared before after programs =>
    rcases List.eq_nil_or_concat' programs with rfl | ⟨programs, p, rfl⟩
    · simp only [append_of_nil, List.append_assoc, List.cons_append]
      exact .shared before (after ++ [d]) []
    · simp only [append_of_concat]
      exact .shared before after _
  | own shared earlier later p before after =>
    rcases List.eq_nil_or_concat' later with rfl | ⟨later, q, rfl⟩
    · simp only [append_of_concat, List.append_assoc, List.cons_append]
      exact .own shared earlier [] p before (after ++ [d])
    · simp only [← List.cons_append, ← List.append_assoc, append_of_concat]
      simp only [List.append_assoc, List.cons_append]
      exact .own shared earlier _ p before after

/-- A line does the same to both listings. -/
theorem takeLine (h : Exchanged a b l m) (hne : a.name ≠ b.name) (htake : l.takeLine line = .ok l') :
    ∃ m', m.takeLine line = .ok m' ∧ Exchanged a b l' m' := by
  have hfind := h.find?_eq hne
  have hsee : m.see = l.see := by
    funext name
    rw [see, see, hfind]
  have hvalue : m.valueOf = l.valueOf := by
    funext name
    rw [valueOf, valueOf, hfind]
  obtain ⟨statement, hread, hobey⟩ := takeLine_eq_ok.1 htake
  rw [← hsee] at hread
  cases statement with
  | program name =>
    obtain ⟨hfree, rfl⟩ := beginProgram_eq_ok.1 hobey
    rw [← h.isSome_program?_eq] at hfree
    exact ⟨_, takeLine_eq_ok.2 ⟨_, hread, beginProgram_eq_ok.2 ⟨hfree, rfl⟩⟩, h.addProgram name⟩
  | define exported name expr =>
    obtain ⟨v, hv, hfree, rfl⟩ := defineConstant_eq_ok.1 hobey
    rw [← hvalue] at hv
    rw [← hfind] at hfree
    exact ⟨_, takeLine_eq_ok.2 ⟨_, hread, defineConstant_eq_ok.2 ⟨v, hv, hfree, rfl⟩⟩, h.append _⟩

/-- Lines do the same to both listings. -/
theorem takeLines {lines : List (Except Fault Line)} (h : Exchanged a b l m)
    (hne : a.name ≠ b.name) (htake : l.takeLines lines = .ok l') :
    ∃ m', m.takeLines lines = .ok m' ∧ Exchanged a b l' m' := by
  induction lines generalizing l m with
  | nil =>
    cases htake
    exact ⟨m, rfl, h⟩
  | cons line lines ih =>
    rcases line with fault | line
    · cases htake
    · obtain ⟨l₁, hfirst, hrest⟩ := takeLines_cons_eq_ok.1 htake
      obtain ⟨m₁, hfirst', h₁⟩ := h.takeLine hne hfirst
      obtain ⟨m', hrest', h'⟩ := ih h₁ hrest
      exact ⟨m', takeLines_cons_eq_ok.2 ⟨m₁, hfirst', hrest'⟩, h'⟩

end Exchanged

/-! ### Texts that are taken -/

/-- A line break in front of a text adds nothing. -/
theorem takeText_lineBreak_cons (l : Listing Text) (t : Text) :
    l.takeText ('\n' :: t) = .ok l' ↔ l.takeText t = .ok l' := by
  have hbreak : l.takeText ['\n'] = .ok l := (takeText_lineBreak l []).trans (takeText_nil l)
  rw [← List.singleton_append, takeText_append_eq_ok (by decide), hbreak]
  simp only [Except.ok.injEq, exists_eq_left']

/-- A text and what follows its last line are taken one after the other. -/
theorem takeText_append_eq_ok_of_lineBreak (l : Listing Text) (s : Text) {t : Text}
    (ht : ∀ c ∈ t.head?, c = '\n') :
    l.takeText (s ++ t) = .ok l' ↔ ∃ l₁, l.takeText s = .ok l₁ ∧ l₁.takeText t = .ok l' := by
  rcases t with _ | ⟨c, t⟩
  · simp only [List.append_nil, takeText_nil, Except.ok.injEq, exists_eq_right]
  · obtain rfl := ht c rfl
    rw [← List.singleton_append, ← List.append_assoc,
      takeText_append_eq_ok (Text.isComplete_iff.2 (.inr ⟨s, rfl⟩)), takeText_lineBreak]
    simp only [List.singleton_append, takeText_lineBreak_cons]

variable {t between u after : Text}

/-- Two texts with nothing but lines without tokens between them are taken one after the other. -/
theorem takeText_apart_eq_ok (hbetween : between.IsComplete)
    (hnone : (TokenStream.ofText between).lines = []) (hafter : ∀ c ∈ after.head?, c = '\n')
    (l : Listing Text) : l.takeText (t ++ '\n' :: (between ++ (u ++ after))) = .ok l' ↔
      ∃ l₁ l₂, l.takeText t = .ok l₁ ∧ l₁.takeText u = .ok l₂ ∧ l₂.takeText after = .ok l' := by
  have hgap : ∀ l₁ : Listing Text, l₁.takeText between = .ok l₁ := by
    intro l₁
    rw [takeText, hnone]
    rfl
  have hbreak : ∀ c ∈ ('\n' :: (between ++ (u ++ after))).head?, c = '\n' := by simp
  rw [takeText_append_eq_ok_of_lineBreak l t hbreak]
  simp only [takeText_lineBreak_cons, takeText_append_eq_ok hbetween, hgap, Except.ok.injEq,
    exists_eq_left', takeText_append_eq_ok_of_lineBreak _ u hafter]
  constructor
  · rintro ⟨l₁, ht, l₂, hu, hrest⟩
    exact ⟨l₁, l₂, ht, hu, hrest⟩
  · rintro ⟨l₁, l₂, ht, hu, hrest⟩
    exact ⟨l₁, ht, l₂, hu, hrest⟩

/-- A define is taken as its line is. -/
theorem takeText_of_isDefine (ht : t.IsDefine) (h : l.takeText t = .ok l') :
    ∃ line, (TokenStream.ofText t).lines = [.ok line] ∧ line.peek.kind = .directive .define ∧
      l.takeLine line = .ok l' := by
  obtain ⟨item, hlines⟩ := List.length_eq_one_iff.1 ht.single
  have hmem : item ∈ (TokenStream.ofText t).lines := hlines ▸ List.mem_cons_self
  rw [takeText, hlines] at h
  rcases item with fault | line
  · cases h
  · obtain ⟨l₁, htake, hrest⟩ := takeLines_cons_eq_ok.1 h
    cases hrest
    exact ⟨line, hlines, ht.begins _ hmem line rfl, htake⟩

/-- A text of one line is taken if the line is. -/
theorem takeText_of_line {line : Line} (h : (TokenStream.ofText t).lines = [.ok line])
    (htake : l.takeLine line = .ok l') : l.takeText t = .ok l' := by
  rw [takeText, h]
  exact takeLines_cons_eq_ok.2 ⟨l', htake, rfl⟩

/-- Two defines that ignore each other are taken in the other order, and so is what follows. -/
theorem takeText_exchange (ht : t.IsDefine) (hu : u.IsDefine) (htu : t.Ignores u)
    (hut : u.Ignores t) (hbetween : between.IsComplete)
    (hnone : (TokenStream.ofText between).lines = []) (hafter : ∀ c ∈ after.head?, c = '\n')
    (h : l.takeText (t ++ '\n' :: (between ++ (u ++ after))) = .ok l') :
    ∃ m' a b, l.takeText (u ++ '\n' :: (between ++ (t ++ after))) = .ok m' ∧ t.Defines a.name ∧
      u.Defines b.name ∧ Exchanged a b l' m' := by
  obtain ⟨l₁, l₂, hfirst, hsecond, hrest⟩ := (takeText_apart_eq_ok hbetween hnone hafter l).1 h
  obtain ⟨line, hline, hkind, htake⟩ := takeText_of_isDefine ht hfirst
  obtain ⟨other, hother, hkind', htake'⟩ := takeText_of_isDefine hu hsecond
  have hmem : .ok line ∈ (TokenStream.ofText t).lines := hline ▸ List.mem_cons_self
  have hmem' : .ok other ∈ (TokenStream.ofText u).lines := hother ▸ List.mem_cons_self
  obtain ⟨a, b, ha, hb, hne, rfl, htake₁, htake₂⟩ := exchange hkind hkind'
    (htu _ hmem line rfl _ hmem' other rfl) (hut _ hmem' other rfl _ hmem line rfl) htake htake'
  have hexchanged := exchanged_append l a b
  obtain ⟨m', hrest', hfinal⟩ := hexchanged.takeLines hne hrest
  refine ⟨m', a, b, (takeText_apart_eq_ok hbetween hnone hafter l).2 ?_, ⟨line, hline, ha⟩,
    ⟨other, hother, hb⟩, hfinal⟩
  exact ⟨_, _, takeText_of_line hother htake₁, takeText_of_line hline htake₂, hrest'⟩

end Listing

/-! ### Sources -/

section

variable {before t between u after : Text}

/-- If a source compiles, it compiles with two defines that ignore each other the other way round,
into a file with these two exchanged. -/
theorem exists_compile_exchange (hbefore : before.IsComplete) (ht : t.IsDefine) (hu : u.IsDefine)
    (htu : t.Ignores u) (hut : u.Ignores t) (hbetween : between.IsComplete)
    (hnone : (TokenStream.ofText between).lines = []) (hafter : ∀ c ∈ after.head?, c = '\n')
    {f : File} (h : compile (before ++ (t ++ '\n' :: (between ++ (u ++ after)))) = .ok f) :
    ∃ f' a b, compile (before ++ (u ++ '\n' :: (between ++ (t ++ after)))) = .ok f' ∧
      t.Defines a.name ∧ u.Defines b.name ∧ Listing.Exchanged a b f.named f'.named := by
  obtain ⟨htaken, -⟩ := compile_eq_ok_iff.1 h
  obtain ⟨l, hl, hrest⟩ := (Listing.takeText_append_eq_ok hbefore _).1 htaken
  obtain ⟨m', a, b, hrest', ha, hb, hexchanged⟩ :=
    Listing.takeText_exchange ht hu htu hut hbetween hnone hafter hrest
  have htaken' := (Listing.takeText_append_eq_ok hbefore _).2 ⟨l, hl, hrest'⟩
  obtain ⟨f', hf', rfl⟩ := compile_of_listing htaken'
  exact ⟨f', a, b, hf', ha, hb, hexchanged⟩

/-- Two defines on adjacent lines that do not mention each other's names can be exchanged. The source
compiles one way round exactly if it compiles the other way round, and the files then have the same
programs and defines, with the same expressions, qualifiers and values, but for the order of the
two. -/
theorem compile_exchange (hbefore : before.IsComplete) (ht : t.IsDefine) (hu : u.IsDefine)
    (htu : t.Ignores u) (hut : u.Ignores t) (hbetween : between.IsComplete)
    (hnone : (TokenStream.ofText between).lines = []) (hafter : ∀ c ∈ after.head?, c = '\n') :
    let source := before ++ (t ++ '\n' :: (between ++ (u ++ after)))
    let exchanged := before ++ (u ++ '\n' :: (between ++ (t ++ after)))
    ((∃ f, compile source = .ok f) ↔ ∃ f', compile exchanged = .ok f') ∧
      ∀ f f', compile source = .ok f → compile exchanged = .ok f' →
        ∃ a b, t.Defines a.name ∧ u.Defines b.name ∧ Listing.Exchanged a b f.named f'.named := by
  intro source exchanged
  refine ⟨⟨?_, ?_⟩, ?_⟩
  · rintro ⟨f, hf⟩
    obtain ⟨f', -, -, hf', -⟩ := exists_compile_exchange hbefore ht hu htu hut hbetween hnone hafter hf
    exact ⟨f', hf'⟩
  · rintro ⟨f', hf'⟩
    obtain ⟨f, -, -, hf, -⟩ := exists_compile_exchange hbefore hu ht hut htu hbetween hnone hafter hf'
    exact ⟨f, hf⟩
  · intro f f' hf hf'
    obtain ⟨f₁, a, b, hf₁, ha, hb, hexchanged⟩ :=
      exists_compile_exchange hbefore ht hu htu hut hbetween hnone hafter hf
    obtain rfl : f₁ = f' := Except.ok.inj (hf₁.symm.trans hf')
    exact ⟨a, b, ha, hb, hexchanged⟩

end

/-- Two defines of a program, one of them with a qualifier and a comment. A later one uses both. -/
theorem compile_exchange_of_program :
    let before : Text := ".program p\n".toList
    let t : Text := ".define public A 2 // B".toList
    let between : Text := "  \n".toList
    let u : Text := ".define B 3".toList
    let after : Text := "\n.define C A*B".toList
    let source := before ++ (t ++ '\n' :: (between ++ (u ++ after)))
    let exchanged := before ++ (u ++ '\n' :: (between ++ (t ++ after)))
    (before.IsComplete ∧ t.IsDefine ∧ u.IsDefine ∧ t.Ignores u ∧ u.Ignores t ∧
      between.IsComplete ∧ (TokenStream.ofText between).lines = [] ∧ ∀ c ∈ after.head?, c = '\n') ∧
    ∃ f f', compile source = .ok f ∧ compile exchanged = .ok f' ∧
      ∃ a b, t.Defines a.name ∧ u.Defines b.name ∧ Listing.Exchanged a b f.named f'.named := by
  intro before t between u after source exchanged
  have ht : t.IsDefine := ⟨by decide +kernel, by decide +kernel⟩
  have hu : u.IsDefine := ⟨by decide +kernel, by decide +kernel⟩
  have htu : t.Ignores u := by decide +kernel
  have hut : u.Ignores t := by decide +kernel
  have hbefore : before.IsComplete := by decide +kernel
  have hbetween : between.IsComplete := by decide +kernel
  have hnone : (TokenStream.ofText between).lines = [] := by decide +kernel
  have hafter : ∀ c ∈ after.head?, c = '\n' := by
    rintro c ⟨⟩
    rfl
  obtain ⟨hiff, hfiles⟩ := compile_exchange hbefore ht hu htu hut hbetween hnone hafter
  have hcompiles : (compile source).toOption.isSome = true := by decide +kernel
  obtain ⟨f, hf⟩ : ∃ f, compile source = .ok f := by
    obtain ⟨f, hf⟩ := Option.isSome_iff_exists.1 hcompiles
    exact ⟨f, toOption_eq_some.1 hf⟩
  obtain ⟨f', hf'⟩ := hiff.1 ⟨f, hf⟩
  exact ⟨⟨hbefore, ht, hu, htu, hut, hbetween, hnone, hafter⟩, f, f', hf, hf', hfiles f f' hf hf'⟩

end PioFrontEnd
