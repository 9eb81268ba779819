import PioFrontEnd.Proofs.Token.Continuation
import PioFrontEnd.Proofs.Token.Lossless

/-!
# Tokens on both sides of a line break

The tokens of a source can be found one part at a time. If the source is cut at any of its line
breaks, the part before it is divided as it would be if the source ended there, and the part after
it as if the source began there, only further on. The line break itself is a token if there are
tokens to be ended by it, and not otherwise. What is no token ends the source for good, so nothing
after it matters.

* `freshAfter`: whether a line is about to begin once some tokens have been drawn.
* `splice_of_fault`, `splice_of_ending`: how the second part goes on from what is drawn from the
  first one.
* `tokenize_append_of_fault`, `tokenize_append_of_ending`: the same for the source as a whole.
* `tokenize_append_lineBreak`: the tokens of a source that is cut at a line break.
-/

namespace PioFrontEnd

/-- Whether a line is about to begin after these tokens, if it was or was not before them. -/
def freshAfter (fresh : Bool) (tokens : List Token) : Bool :=
  (tokens.getLast?.map fun t => decide (t.kind = .endOfLine)).getD fresh

/-- The line break at an offset as a token, if there are tokens before it that it ends. -/
def lineBreakAfter (tokens : List Token) (offset : Nat) : List Token :=
  if freshAfter true tokens then [] else [⟨.endOfLine, ⟨offset, offset + 1⟩, ['\n']⟩]

/-- After a first token it no longer matters what was before. -/
theorem freshAfter_cons (fresh : Bool) (token : Token) (tokens : List Token) :
    freshAfter fresh (token :: tokens) = freshAfter (token.kind = .endOfLine) tokens := by
  rw [freshAfter, freshAfter, List.getLast?_cons]
  cases tokens.getLast? <;> rfl

/-- After the line break of a text another line is about to begin. -/
theorem freshAfter_lineBreakAfter (tokens : List Token) (offset : Nat) :
    freshAfter true (tokens ++ lineBreakAfter tokens offset) = true := by
  rw [lineBreakAfter]
  cases hfresh : freshAfter true tokens
  · rw [if_neg Bool.false_ne_true, freshAfter, List.getLast?_concat]
    rfl
  · rw [if_pos rfl, List.append_nil, hfresh]

variable {later : List (Except Fault Token)} {tokens : List Token}

/-- Nothing is drawn after a fault. -/
theorem splice_of_fault (h : ∀ token ∈ tokens, token.kind ≠ .endOfFile) (fresh : Bool)
    (fault : Fault) :
    splice later fresh (tokens.map .ok ++ [.error fault]) = tokens.map .ok ++ [.error fault] := by
  induction tokens generalizing fresh with
  | nil => rfl
  | cons token tokens ih =>
    obtain ⟨hkind, hrest⟩ := List.forall_mem_cons.1 h
    rw [List.map_cons, List.cons_append, splice, if_neg hkind, ih hrest]

/-- Where the first part ends, a line break ends its last line if that has tokens, and the second
part follows. -/
theorem splice_of_ending (h : ∀ token ∈ tokens, token.kind ≠ .endOfFile) (fresh : Bool)
    {ending : Token} (hending : ending.kind = .endOfFile) :
    splice later fresh (tokens.map .ok ++ [.ok ending]) =
      tokens.map .ok ++ ((if freshAfter fresh tokens then [] else [.ok ending.lineBreak]) ++
        later) := by
  induction tokens generalizing fresh with
  | nil =>
    rw [List.map_nil, List.nil_append, List.nil_append, splice, if_pos hending]
    cases fresh <;> rfl
  | cons token tokens ih =>
    obtain ⟨hkind, hrest⟩ := List.forall_mem_cons.1 h
    rw [List.map_cons, List.cons_append, List.cons_append, splice, if_neg hkind, ih hrest,
      freshAfter_cons]

/-- A source is drawn as tokens, and then its end comes or something that is no token. -/
theorem exists_tokenize_eq (source : Text) :
    ∃ (tokens : List Token) (final : Except Fault Token),
      tokenize source = tokens.map .ok ++ [final] ∧ (∀ token ∈ tokens, token.kind ≠ .endOfFile) ∧
      (final = .ok ⟨.endOfFile, ⟨Text.byteSize source, Text.byteSize source⟩, []⟩ ∨
        ∃ fault : Fault, final = .error fault ∧ fault.cause.kind = .lexical) := by
  obtain ⟨tokens, final, hitems, hlayout⟩ := (TokenStream.ofText source).exists_layout rfl
  have hfinal := hlayout.final_eq
  rw [show (TokenStream.ofText source).offset = 0 from rfl, Nat.zero_add] at hfinal
  exact ⟨tokens, final, hitems, fun token ht => (hlayout.bounds token ht).1, hfinal⟩

/-- What is drawn from a source is put together from what is drawn from its two parts. -/
theorem tokenize_eq_splice (s t : Text) : tokenize (s ++ '\n' :: t) =
    splice ((tokenize t).map (movedItem (Text.byteSize s + 1))) true (tokenize s) := by
  have hbefore := (TokenStream.ofText s).items_before t rfl
  rw [show (TokenStream.ofText s).offset = 0 from rfl, Nat.zero_add] at hbefore
  exact hbefore

/-! ### Sources that go on -/

variable {s below : Text} {fault : Fault} {tokens' : List Token} {final final' : Except Fault Token}

/-- What is drawn tells the tokens and what comes last. -/
theorem drawn_inj (h : tokens.map .ok ++ [final] = tokens'.map .ok ++ [final']) :
    tokens = tokens' ∧ final = final' := by
  obtain ⟨htokens, hfinal⟩ := List.append_inj' h rfl
  exact ⟨List.map_injective_iff.2 (fun _ _ => Except.ok.inj) htokens, List.singleton_inj.1 hfinal⟩

/-- From the empty source its end is drawn. -/
theorem tokenize_nil : tokenize [] = [.ok ⟨.endOfFile, ⟨0, 0⟩, []⟩] := by
  rw [tokenize, TokenStream.items_of_some (TokenStream.next?_of_ending rfl rfl),
    TokenStream.items_close]
  rfl

/-- The end of the source is drawn last or not at all. -/
theorem kind_ne_endOfFile_of_tokenize (h : tokenize s = tokens.map .ok ++ [final]) :
    ∀ token ∈ tokens, token.kind ≠ .endOfFile := by
  obtain ⟨tokens', final', htokens, hkinds, -⟩ := exists_tokenize_eq s
  rwa [(drawn_inj (h.symm.trans htokens)).1]

/-- Where a fault has been drawn, nothing is drawn from the lines below. -/
theorem tokenize_append_of_fault (h : tokenize s = tokens.map .ok ++ [.error fault])
    (hbelow : ∀ c ∈ below.head?, c = '\n') :
    tokenize (s ++ below) = tokens.map .ok ++ [.error fault] := by
  rcases below with _ | ⟨c, below⟩
  · rw [List.append_nil, h]
  · obtain rfl := hbelow c rfl
    rw [tokenize_eq_splice, h, splice_of_fault (kind_ne_endOfFile_of_tokenize h)]

/-- Where the end has been drawn, the line break and the lines below take its place. -/
theorem tokenize_append_of_ending (h : tokenize s =
      tokens.map .ok ++ [.ok ⟨.endOfFile, ⟨Text.byteSize s, Text.byteSize s⟩, []⟩]) (t : Text) :
    tokenize (s ++ '\n' :: t) = (tokens ++ lineBreakAfter tokens (Text.byteSize s)).map .ok ++
      (tokenize t).map (movedItem (Text.byteSize s + 1)) := by
  rw [tokenize_eq_splice, h, splice_of_ending (kind_ne_endOfFile_of_tokenize h) true rfl,
    lineBreakAfter, List.map_append, List.append_assoc]
  cases freshAfter true tokens <;> rfl

/-- What is drawn from a source that goes on after a line break. If it meets something that is no
token before the line break, that is the end of it, whatever follows. Otherwise come the tokens of
the first part without its end, the line break if these are there and do not end their line, and
then all that is drawn from the second part alone, with every offset increased by the size of what
stands before. -/
theorem tokenize_append_lineBreak (s t : Text) :
    (∃ (tokens : List Token) (fault : Fault), (∀ token ∈ tokens, token.kind ≠ .endOfFile) ∧
      fault.cause.kind = .lexical ∧ tokenize s = tokens.map .ok ++ [.error fault] ∧
      tokenize (s ++ '\n' :: t) = tokenize s) ∨
    ∃ tokens : List Token, (∀ token ∈ tokens, token.kind ≠ .endOfFile) ∧
      tokenize s =
        tokens.map .ok ++ [.ok ⟨.endOfFile, ⟨Text.byteSize s, Text.byteSize s⟩, []⟩] ∧
      tokenize (s ++ '\n' :: t) = tokens.map .ok ++
        ((lineBreakAfter tokens (Text.byteSize s)).map .ok ++
          (tokenize t).map (movedItem (Text.byteSize s + 1))) := by
  obtain ⟨tokens, final, htokens, hkinds, rfl | ⟨fault, rfl, hlexical⟩⟩ := exists_tokenize_eq s
  · refine .inr ⟨tokens, hkinds, htokens, ?_⟩
    rw [tokenize_eq_splice, htokens, splice_of_ending hkinds true rfl, lineBreakAfter]
    cases freshAfter true tokens <;> rfl
  · refine .inl ⟨tokens, fault, hkinds, hlexical, htokens, ?_⟩
    rw [tokenize_eq_splice, htokens, splice_of_fault hkinds]

end PioFrontEnd
