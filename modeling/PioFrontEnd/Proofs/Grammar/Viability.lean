import PioFrontEnd.Proofs.Grammar.FirstMisfit

/-!
# Tokens that begin a line

A line is read as a whole, but whether it can be read shows from left to right: some tokens begin a
line that can be read, whatever is still to come, and others do not (`Statement.Viable`). What is
wrong with the others is seen without what follows them. The line that they make by themselves is
refused at one of them (`Statement.exists_fault_of_not_viable`), for what they say as a statement or
for a name that cannot be seen.

* `Statement.read_heading`, `Statement.viable_heading_iff`: after `.define` and the name there is
  nothing but an expression.
* `Statement.misfit_of_read`: a line is refused at one of its tokens, unless these are viable.
-/

namespace PioFrontEnd

variable {ν : Type} {see : Text → Option ν} {line : Line} {fault : Fault} {tokens : List Token}

/-! ### What is said of a line that cannot be read -/

/-- What is said of a line that cannot be read: its tokens form no statement, or a name in it cannot
be seen. -/
def Fault.OfReading (fault : Fault) : Prop :=
  fault.cause.kind = .syntactic ∨ fault.cause.kind = .unknownIdentifier

/-- What is left over of a line is reported at the first token of it. -/
theorem Line.misfit_of_finish (h : line.finish = .error fault) :
    fault.OfReading ∧ ∃ t ∈ line.tokens, fault.offset = t.span.start := by
  unfold finish at h
  split at h
  · cases h
  · rename_i hleft
    cases h
    obtain ⟨_ | ⟨t, tokens⟩, stop⟩ := line
    · exact absurd rfl hleft
    · exact ⟨.inl rfl, t, List.mem_cons_self, rfl⟩

namespace Expr

/-- Tokens that are accepted are read wherever their line ends. -/
theorem Accepts.exists_readToEnd (h : Accepts see tokens) (stop : Token) :
    ∃ e, readToEnd see ⟨tokens, stop⟩ = .ok e := by
  obtain ⟨progress, e, hadvance, hconclude⟩ := accepts_iff_advance.1 h
  exact ⟨e, Progress.runToEnd_eq_ok_iff.2 ⟨progress, hadvance, hconclude⟩⟩

open Progress in
/-- An expression is refused at a token that does not belong to it, or because the line is short. -/
theorem misfit_of_readToEnd (h : readToEnd see line = .error fault) :
    fault.OfReading ∧
      ((∃ t ∈ line.tokens, fault.offset = t.span.start) ∨ Viable see line.tokens) := by
  rw [readToEnd_eq_runToEnd] at h
  rcases refused_of_runToEnd h with
    ⟨before, token, after, progress, cause, htokens, -, hrefusal, rfl⟩ |
    ⟨progress, cause, hadvance, hconclude, rfl⟩
  · refine ⟨?_, .inl ⟨token, ?_, rfl⟩⟩
    · cases progress with
      | operandDue group outer =>
        rcases refusal_operandDue hrefusal with ⟨-, -, rfl⟩ | ⟨-, rfl⟩
        · exact .inr rfl
        · exact .inl rfl
      | operandRead e group outer =>
        rw [refusal_operandRead hrefusal]
        cases outer <;> exact .inl rfl
    · rw [htokens]
      exact List.mem_append_right _ List.mem_cons_self
  · refine ⟨?_, .inr (viable_iff_advance.2 ⟨progress, hadvance⟩)⟩
    rcases progress with _ | ⟨e, group, _ | ⟨around, outer⟩⟩ <;> cases hconclude
    · exact .inl rfl
    · exact .inl rfl

end Expr

namespace Statement

/-! ### Lines that begin with these tokens -/

/-- Whether tokens begin a line that can be read. -/
def Viable (see : Text → Option ν) (tokens : List Token) : Prop :=
  ∃ (line : Line) (s : Statement ν), line.Ended ∧ tokens <+: line.tokens ∧ read see line = .ok s

/-- Whether tokens are what stands before the expression of a constant. -/
inductive Heading : List Token → Bool → Text → Prop where
  /-- The directive and the name. -/
  | bare {d n : Token} (hd : d.kind = .directive .define) (hn : n.kind = .symbol) :
    Heading [d, n] false n.text
  /-- The directive, the qualifier and the name. -/
  | exported {d q n : Token} (hd : d.kind = .directive .define)
    (hq : q.kind = .qualifier .exported) (hn : n.kind = .symbol) : Heading [d, q, n] true n.text

variable {heading : List Token} {exported : Bool} {name : Text}

/-- After a heading there is an expression up to the end of the line. -/
theorem read_heading (h : Heading heading exported name) (see : Text → Option ν)
    (tokens : List Token) (stop : Token) :
    read see ⟨heading ++ tokens, stop⟩ =
      (Expr.readToEnd see ⟨tokens, stop⟩).map (.define exported name) := by
  cases h with
  | @bare d n hd hn =>
    have hq : (⟨n :: tokens, stop⟩ : Line).peek.kind ≠ .qualifier .exported := by
      simp [Line.peek, hn]
    have hname : (⟨n :: tokens, stop⟩ : Line).read? .symbol = some (n, ⟨tokens, stop⟩) := if_pos hn
    have hread : read see ⟨d :: n :: tokens, stop⟩ =
        readDefine see d.span.start ⟨n :: tokens, stop⟩ := by
      simp only [read, Line.peek, List.headD_cons, hd]
      rfl
    rw [List.cons_append, List.cons_append, List.nil_append, hread, readDefine_eq, if_neg hq,
      readConstant_eq hname]
  | @exported d q n hd hq hn =>
    have hname : (⟨n :: tokens, stop⟩ : Line).read? .symbol = some (n, ⟨tokens, stop⟩) := if_pos hn
    have hread : read see ⟨d :: q :: n :: tokens, stop⟩ =
        readDefine see d.span.start ⟨q :: n :: tokens, stop⟩ := by
      simp only [read, Line.peek, List.headD_cons, hd]
      rfl
    have hq' : (⟨q :: n :: tokens, stop⟩ : Line).peek.kind = .qualifier .exported := hq
    rw [List.cons_append, List.cons_append, List.cons_append, List.nil_append, hread,
      readDefine_eq, if_pos hq']
    exact readConstant_eq hname see _ _

/-- After a heading viable tokens begin an expression. -/
theorem viable_heading_iff (h : Heading heading exported name) :
    Viable see (heading ++ tokens) ↔ Expr.Viable see tokens := by
  constructor
  · rintro ⟨⟨all, stop⟩, s, -, ⟨more, rfl⟩, hread⟩
    rw [List.append_assoc, read_heading h] at hread
    rcases hexpr : Expr.readToEnd see ⟨tokens ++ more, stop⟩ with fault | e
    · rw [hexpr] at hread
      cases hread
    · exact ⟨more, stop, e, hexpr⟩
  · rintro ⟨more, haccepts⟩
    let stop : Token := ⟨.endOfLine, ⟨0, 0⟩, []⟩
    obtain ⟨e, hexpr⟩ := haccepts.exists_readToEnd stop
    refine ⟨⟨heading ++ (tokens ++ more), stop⟩, .define exported name e, .inl rfl,
      ⟨more, List.append_assoc _ _ _⟩, ?_⟩
    rw [read_heading h, hexpr]
    rfl

/-- Before its first token a line may still become one that can be read. -/
theorem viable_nil (see : Text → Option ν) : Viable see [] :=
  ⟨⟨[⟨.directive .program, ⟨0, 0⟩, []⟩, ⟨.symbol, ⟨0, 0⟩, []⟩], ⟨.endOfLine, ⟨0, 0⟩, []⟩⟩,
    .program [], .inl rfl, List.nil_prefix, rfl⟩

/-! ### Where a line is refused -/

variable {site : Nat}

/-- A program is refused at the directive or at one of the tokens after it. -/
theorem misfit_of_readProgram (h : readProgram (ν := ν) site line = .error fault) :
    fault.OfReading ∧ (fault.offset = site ∨ ∃ t ∈ line.tokens, fault.offset = t.span.start) := by
  unfold readProgram Line.read? at h
  split at h
  · cases h
    exact ⟨.inl rfl, .inl rfl⟩
  · rename_i name line' hname
    split at hname <;> cases hname
    rcases hfinish : line.rest.finish with fault' | _
    · simp only [bind, Except.bind, hfinish] at h
      cases h
      obtain ⟨hof, t, ht, hoffset⟩ := Line.misfit_of_finish hfinish
      exact ⟨hof, .inr ⟨t, List.mem_of_mem_tail ht, hoffset⟩⟩
    · simp only [bind, Except.bind, hfinish] at h
      cases h

/-- A constant is refused at the directive, at one of the tokens after it, or because the line is too
short for an expression that has begun. -/
theorem misfit_of_readConstant (hended : line.Ended)
    (h : readConstant see site exported line = .error fault) :
    fault.OfReading ∧ (fault.offset = site ∨ (∃ t ∈ line.tokens, fault.offset = t.span.start) ∨
      ∃ n tokens, line.tokens = n :: tokens ∧ n.kind = .symbol ∧ Expr.Viable see tokens) := by
  by_cases hkind : line.peek.kind = .symbol
  · have hname : line.read? .symbol = some (line.peek, line.rest) := if_pos hkind
    have htokens := hended.tokens_eq_cons hkind (by decide) (by decide)
    rw [readConstant_eq hname] at h
    rcases hexpr : Expr.readToEnd see line.rest with fault' | e
    · rw [hexpr] at h
      cases h
      obtain ⟨hof, ⟨t, ht, hoffset⟩ | hviable⟩ := Expr.misfit_of_readToEnd hexpr
      · exact ⟨hof, .inr (.inl ⟨t, List.mem_of_mem_tail ht, hoffset⟩)⟩
      · exact ⟨hof, .inr (.inr ⟨_, _, htokens, hkind, hviable⟩)⟩
    · rw [hexpr] at h
      cases h
  · have hname : line.read? .symbol = none := if_neg hkind
    rw [readConstant, hname] at h
    cases h
    exact ⟨.inl rfl, .inl rfl⟩

/-- A line is refused at one of its tokens, unless they are viable. -/
theorem misfit_of_read (hended : line.Ended) (h : read see line = .error fault) :
    fault.OfReading ∧
      ((∃ t ∈ line.tokens, fault.offset = t.span.start) ∨ Viable see line.tokens) := by
  unfold read at h
  dsimp only at h
  split at h
  · rename_i hd
    obtain ⟨hof, hmisfit⟩ := misfit_of_readProgram h
    rw [hended.tokens_eq_cons hd (by decide) (by decide)]
    exact ⟨hof, .inl ((List.exists_mem_cons_iff _ _ _).2 hmisfit)⟩
  · rename_i hd
    have hrest := hended.rest
    rw [hended.tokens_eq_cons hd (by decide) (by decide), List.exists_mem_cons_iff]
    rw [readDefine_eq] at h
    split at h
    · rename_i hq
      rw [hrest.tokens_eq_cons hq (by decide) (by decide), List.exists_mem_cons_iff]
      obtain ⟨hof, hsite | hmisfit | ⟨n, tokens, htokens, hn, hviable⟩⟩ :=
        misfit_of_readConstant hrest.rest h
      · exact ⟨hof, .inl (.inl hsite)⟩
      · exact ⟨hof, .inl (.inr (.inr hmisfit))⟩
      · rw [htokens]
        exact ⟨hof, .inr ((viable_heading_iff (.exported hd hq hn)).2 hviable)⟩
    · obtain ⟨hof, hsite | hmisfit | ⟨n, tokens, htokens, hn, hviable⟩⟩ :=
        misfit_of_readConstant hrest h
      · exact ⟨hof, .inl (.inl hsite)⟩
      · exact ⟨hof, .inl (.inr hmisfit)⟩
      · rw [htokens]
        exact ⟨hof, .inr ((viable_heading_iff (.bare hd hn)).2 hviable)⟩
  · cases h
    refine ⟨.inl rfl, ?_⟩
    obtain ⟨_ | ⟨t, tokens⟩, stop⟩ := line
    · exact .inr (viable_nil see)
    · exact .inl ⟨t, List.mem_cons_self, rfl⟩

/-- Tokens that are not viable are refused by themselves, at one of them. -/
theorem exists_fault_of_not_viable (hended : line.Ended) (h : ¬ Viable see line.tokens) :
    ∃ fault, read see line = .error fault ∧ fault.OfReading ∧
      ∃ t ∈ line.tokens, fault.offset = t.span.start := by
  rcases hread : read see line with fault | s
  · obtain ⟨hof, hmisfit⟩ := misfit_of_read hended hread
    exact ⟨fault, rfl, hof, hmisfit.resolve_right h⟩
  · exact absurd ⟨line, s, hended, List.prefix_rfl, hread⟩ h

end Statement

end PioFrontEnd
