import TransferFlow.Proofs.Balance

namespace TransferFlow

namespace Token

@[simp] theorem signs_nil : signs [] = [] := rfl

theorem signs_cons_text (cs : List Char) (ts : List Token) : signs (.text cs :: ts) = signs ts := rfl

theorem signs_cons {t : Token} (sign : t.kind ≠ .text) (ts : List Token) : signs (t :: ts) = t :: signs ts := by
  rw [signs, List.filter_cons, if_pos (by simpa using sign), signs]

theorem signs_append_tokens (us vs : List Token) : signs (us ++ vs) = signs us ++ signs vs :=
  List.filter_append ..

theorem signs_cons_inj {t : Token} {us vs : List Token} (same : signs (t :: us) = signs (t :: vs)) :
    signs us = signs vs := by
  have front (ts : List Token) : signs (t :: ts) = signs [t] ++ signs ts := signs_append_tokens [t] ts
  rw [front us, front vs] at same
  exact List.append_cancel_left same

theorem signs_endRun (run : List Char) (ts : List Token) : signs (endRun run ts) = signs ts := by
  unfold endRun
  split <;> rfl

/-- Parentheses are signs. -/
theorem counts_signs (ts : List Token) : unopened (signs ts) = unopened ts ∧ unclosed (signs ts) = unclosed ts := by
  induction ts with
  | nil => exact ⟨rfl, rfl⟩
  | cons t ts ih =>
    obtain ⟨opened, closed⟩ := ih
    cases t with
    | text cs =>
      obtain ⟨same, same'⟩ := @counts_of_ne (.text cs) (by simp) (by simp) ts
      rw [signs_cons_text, same, same']
      exact ⟨opened, closed⟩
    | arrow | post | opening | closing | ampersand =>
      rw [signs_cons (by simp [kind]), unopened_cons, unopened_cons, unclosed_cons, unclosed_cons, opened, closed]
      exact ⟨rfl, rfl⟩

theorem isBalanced_signs (ts : List Token) : isBalanced (signs ts) = isBalanced ts := by
  rw [isBalanced, isBalanced, (counts_signs ts).1, (counts_signs ts).2]

/-- Plain characters in front widen the first token at most. -/
theorem signs_lexAfter (run cs : List Char) : signs (lexAfter run cs) = signs (lex (cs.dropWhile isPlain)) := by
  have plain : ∀ c ∈ cs.takeWhile isPlain, isPlain c = true := fun c member => List.mem_takeWhile_imp member
  have stops : ∀ d ∈ (cs.dropWhile isPlain).head?, isPlain d = false := by
    intro d first
    have last := List.head?_dropWhile_not isPlain cs
    rw [first] at last
    exact last
  have whole := @lexAfter_append (cs.takeWhile isPlain) run (cs.dropWhile isPlain) plain
  rw [List.takeWhile_append_dropWhile] at whole
  rw [whole, lexAfter_run _ stops, signs_endRun]

/-- Behind a character that no sign starts or goes on with, the lexer starts anew where a sign stands. -/
theorem lex_append_sign {c : Char} {t : Token} (plain : isPlain c = true)
    (sign : t.kind ≠ .text) (xs ys : List Char) :
    lex (xs ++ c :: (t.chars ++ ys)) = lex (xs ++ [c]) ++ t :: lex ys := by
  have ends : t.Ends (charsOf (lex ys)) := by
    cases t with
    | text => exact absurd rfl sign
    | arrow | post | opening | closing | ampersand => trivial
  refine lex_eq_iff.mpr ⟨?_, (lexed_lex _).append (.cons ends (lexed_lex ys)) ?_⟩
  · rw [charsOf_append, charsOf_cons, charsOf_lex, charsOf_lex, List.append_assoc]
    rfl
  intro u last
  obtain ⟨behind, ends⟩ := (lexed_lex _).ends_of_mem (List.mem_of_getLast? last)
  cases u with
  | arrow | post | opening | closing | ampersand => trivial
  | text cs =>
    refine ⟨ends.1, ?_⟩
    intro c' last' d first
    -- the text ends where `xs ++ [c]` does
    obtain ⟨before, whole⟩ := List.getLast?_eq_some_iff.mp last
    have spelled := congrArg charsOf whole
    rw [charsOf_lex, charsOf_append, charsOf_cons, charsOf_nil, List.append_nil] at spelled
    have atEnd := congrArg List.getLast? spelled
    rw [List.getLast?_concat, List.getLast?_append, chars, Option.mem_def.mp last'] at atEnd
    obtain rfl : c = c' := by simpa using atEnd
    have noPlain : isPlain d = false := by
      rw [charsOf_cons] at first
      cases t with
      | text => exact absurd rfl sign
      | arrow a => cases a <;> cases first <;> rfl
      | post | opening | closing | ampersand => cases first; rfl
    have other : c ≠ '-' ∧ c ≠ '<' ∧ c ≠ '>' := by
      refine ⟨?_, ?_, ?_⟩ <;> rintro rfl <;> cases plain
    simp [joins, noPlain, other]

end Token

namespace Text

/-- The signs of a text, in order. -/
def signs (cs : List Char) : List Token :=
  Token.signs (Token.lex cs)

theorem signs_trim (cs : List Char) : signs (trim cs) = signs cs :=
  Token.signs_lex_trim cs

theorem signs_charsOf {ts : List Token} (lexed : Token.Lexed ts) : signs (Token.charsOf ts) = Token.signs ts := by
  rw [signs, lexed.lex_charsOf]

/-- Plain characters in front of a text add no signs to it. -/
theorem signs_append_of_plain {xs : List Char} (plain : ∀ c ∈ xs, Token.isPlain c = true) (ys : List Char) :
    signs (xs ++ ys) = signs ys := by
  rw [signs, Token.lex, Token.lexAfter_append [] ys plain, Token.signs_lexAfter, ← Token.signs_lexAfter []]
  rfl

theorem signs_of_plain {cs : List Char} (plain : ∀ c ∈ cs, Token.isPlain c = true) : signs cs = [] := by
  have alone := signs_append_of_plain plain []
  rwa [List.append_nil] at alone

/-- Texts beside each other have the signs of both, by induction on the tokens of the first one. -/
theorem signs_append {xs ys : List Char}
    (seam : ∀ c ∈ xs.getLast?, ∀ d ∈ ys.head?, Token.isPlain c = true ∨ Token.joins c d = false) :
    signs (xs ++ ys) = signs xs ++ signs ys := by
  rw [← Token.charsOf_lex xs] at seam ⊢
  have lexed := Token.lexed_lex xs
  generalize Token.lex xs = ts at seam lexed ⊢
  induction lexed with
  | nil => rfl
  | @cons t ts ends rest ih =>
    have go (ends' : t.Ends (Token.charsOf ts ++ ys))
        (later : signs (Token.charsOf ts ++ ys) = signs (Token.charsOf ts) ++ signs ys) :
        signs (Token.charsOf (t :: ts) ++ ys) = signs (Token.charsOf (t :: ts)) ++ signs ys := by
      have first := congrArg Token.signs (Token.lex_append ends')
      have alone := congrArg Token.signs (Token.lex_append ends)
      rw [← List.singleton_append, Token.signs_append_tokens] at first alone
      rw [Token.charsOf_cons, List.append_assoc]
      rw [signs, first, signs, alone, List.append_assoc]
      exact congrArg _ later
    cases ts with
    | cons u us =>
      refine go (ends.mono ?_) (ih ?_)
      · intro d first
        rwa [rest.head?_append (List.cons_ne_nil _ _)] at first
      · intro c last
        refine seam c ?_
        rw [Token.charsOf_cons, List.getLast?_append, Option.mem_def.mp last]
        rfl
    | nil =>
      cases t with
      | arrow | post | opening | closing | ampersand => exact go trivial rfl
      | text cs =>
        have alone : Token.charsOf [.text cs] = cs := by simp [Token.chars]
        rw [alone] at go seam ⊢
        cases ends.1 with
        | run _ plain => rw [signs_append_of_plain plain, signs_of_plain plain, List.nil_append]
        | @fragment c fragment =>
          have noPlain : Token.isPlain c = false := by rcases fragment with rfl | rfl | rfl <;> rfl
          refine go ⟨ends.1, ?_⟩ rfl
          intro c' last d first
          obtain rfl : c = c' := by simpa using last
          exact (seam c last d first).resolve_left (by simp [noPlain])

/-- Plain characters behind a text add no signs to it. -/
theorem signs_append_plain {ys : List Char} (xs : List Char) (plain : ∀ c ∈ ys, Token.isPlain c = true) :
    signs (xs ++ ys) = signs xs := by
  rw [signs_append, signs_of_plain plain, List.append_nil]
  intro c _ d first
  have plain' := plain d (List.mem_of_mem_head? first)
  have other : d ≠ '-' ∧ d ≠ '>' := by
    refine ⟨?_, ?_⟩ <;> rintro rfl <;> cases plain'
  cases inRun : Token.isPlain c with
  | true => exact Or.inl rfl
  | false => exact Or.inr (by simp [Token.joins, inRun, other])

/-- The signs around a sign that a plain character sets off. -/
theorem signs_append_sign {c : Char} {t : Token} (plain : Token.isPlain c = true) (sign : t.kind ≠ .text)
    (xs ys : List Char) : signs (xs ++ c :: (t.chars ++ ys)) = signs xs ++ t :: signs ys := by
  rw [signs, Token.lex_append_sign plain sign, Token.signs_append_tokens, Token.signs_cons sign]
  congr 1
  exact signs_append_plain xs (List.forall_mem_singleton.mpr plain)

theorem balanced_iff_signs {cs : List Char} : Balanced cs ↔ Token.isBalanced (signs cs) = true := by
  rw [signs, Token.isBalanced_signs, Balanced]

theorem hasArrow_eq_signs (cs : List Char) : Token.hasArrow cs = (signs cs).any Token.isArrow :=
  (Token.any_signs Token.isArrow (fun _ => rfl) _).symm

end Text

end TransferFlow
