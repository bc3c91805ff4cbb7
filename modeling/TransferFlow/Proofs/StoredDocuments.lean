import TransferFlow.Proofs.DocumentChecks

namespace TransferFlow

namespace Text

/-- Every carriage return has a line feed right behind it. -/
def Paired (cs : List Char) : Prop :=
  ∀ before after, cs = before ++ '\r' :: after → after.head? = some '\n'

variable {c : Char} {cs ds : List Char}

theorem Paired.tail (paired : Paired (c :: cs)) : Paired cs := by
  rintro before after rfl
  exact paired (c :: before) after rfl

/-- The lines of a unified text are those of the text, less a carriage return at their end. -/
theorem Unifies.splitOn (unifies : Unifies cs ds) (paired : Paired cs) :
    List.Forall₂ (fun line line' => line = line' ∨ line = line' ++ ['\r']) (cs.splitOn '\n') (ds.splitOn '\n') := by
  induction unifies with
  | nil => exact .cons (.inl rfl) .nil
  | @pair cs ds later ih =>
    simp only [List.splitOn_cons_eq_if_modifyHead]
    -- Of the line that ends here only the carriage return is left to compare.
    exact .cons (.inr rfl) (ih paired.tail.tail)
  | lone noFeed later ih => exact absurd (paired [] _ rfl) noFeed
  | @other c cs ds isOther later ih =>
    have lines := ih paired.tail
    rw [List.splitOn_cons_eq_if_modifyHead, List.splitOn_cons_eq_if_modifyHead]
    split
    · exact .cons (.inl rfl) lines
    · generalize cs.splitOn '\n' = lines, ds.splitOn '\n' = lines' at lines ⊢
      cases lines with
      | nil => exact .nil
      | cons first others =>
        refine .cons ?_ others
        rcases first with rfl | rfl
        · exact .inl rfl
        · exact .inr rfl

end Text

section Reading

variable {cwd : AbsolutePath} {fs : FileSystem} {feed : Feed} {config : Config} {filepath text : String}
variable {place : AbsolutePath}

end Reading

end TransferFlow
