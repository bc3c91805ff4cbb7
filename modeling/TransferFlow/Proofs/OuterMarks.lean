import TransferFlow.Proofs.CutPlaces

namespace TransferFlow

namespace Token

/-- The place `i` lies between a parenthesis and its partner. -/
def Grouped (ts : List Token) (i : Nat) : Prop :=
  ∃ j < i, ∃ k < ts.length, i < k ∧ ts[j]? = some .opening ∧ ts[k]? = some .closing ∧
    isBalanced ((ts.take k).drop (j + 1)) = true

instance (ts : List Token) (i : Nat) : Decidable (Grouped ts i) :=
  inferInstanceAs (Decidable (∃ j < i, ∃ k < ts.length, i < k ∧ ts[j]? = some .opening ∧ ts[k]? = some .closing ∧
    isBalanced ((ts.take k).drop (j + 1)) = true))

/-- How many marks `>>` stand outside all groups. -/
def outerMarks (ts : List Token) : Nat :=
  (List.range ts.length).countP fun i => ts[i]? = some .post ∧ ¬ Grouped ts i

/-- A token is in a group when a pair of parentheses stands around it. -/
theorem grouped_iff {ts : List Token} {i : Nat} : Grouped ts i ↔ ∃ j k, Partners ts j k ∧ j < i ∧ i < k := by
  constructor
  · rintro ⟨j, before, k, _, behind, opens, closes, balanced⟩
    have nested : Nested (between ts j k) := nested_iff.mpr (isBalanced_iff.mp balanced)
    exact ⟨j, k, ⟨before.trans behind, opens, closes, nested⟩, before, behind⟩
  · rintro ⟨j, k, partners, before, behind⟩
    have balanced := isBalanced_iff.mpr partners.2.2.2.counts
    exact ⟨j, before, k, partners.lt_length, behind, partners.2.1, partners.2.2.1, balanced⟩

/-- A mark is no parenthesis, so it is outside all pairs when it is in no group. -/
theorem outside_post {ts : List Token} {i : Nat} (mark : ts[i]? = some .post) : Outside ts i ↔ ¬ Grouped ts i := by
  rw [grouped_iff]
  constructor
  · rintro outside ⟨j, k, partners, before, behind⟩
    exact outside j before.le k partners.lt_length behind.le partners
  · intro alone j before k _ behind partners
    have noOpening : j ≠ i := by
      rintro rfl
      exact Token.noConfusion (Option.some.inj (mark.symm.trans partners.2.1))
    have noClosing : k ≠ i := by
      rintro rfl
      exact Token.noConfusion (Option.some.inj (mark.symm.trans partners.2.2.1))
    exact alone ⟨j, k, partners, by omega, by omega⟩

end Token

namespace Pieces

/-- A text has one piece more than marks outside its groups. -/
theorem length_rest_cut_post (cs : List Char) :
    (cut (·.kind == .post) cs).rest.length = Token.outerMarks (Token.lex cs) := by
  have separators := congrArg List.length (cutsFrom_cut (·.kind == .post) cs).separators
  have places : (Token.lex cs).zipIdx.map Prod.snd = List.range (Token.lex cs).length := by
    rw [List.zipIdx_map_snd, List.range_eq_range']
  rw [List.length_map, List.length_map, List.drop_zero, ← List.countP_eq_length_filter] at separators
  rw [separators, Token.outerMarks, ← places, List.countP_map]
  refine List.countP_congr fun place member => ?_
  have atPlace : (Token.lex cs)[place.2]? = some place.1 := List.mem_zipIdx_iff_getElem?.mp member
  have isPost : (place.1.kind == .post) = true ↔ place.1 = .post := by
    cases place.1 <;> simp [Token.kind]
  rw [decide_eq_true_iff, Function.comp_apply, decide_eq_true_iff, isPost, atPlace, Option.some_inj]
  exact and_congr_right fun mark => Token.outside_post (atPlace.trans (congrArg some mark))

example : Token.outerMarks (Token.lex "A >> (B >> C) >> (D >> E".toList) = 3 := by
  decide

end Pieces

end TransferFlow
