import TransferFlow.Proofs.CutPlaces
import TransferFlow.Proofs.PlainPatterns

namespace TransferFlow

open Text (isBlankText trim)

namespace Token

/-- A parenthesis or an ampersand is a token wherever it stands. -/
theorem lex_append_solid {t : Token} (solid : t = .opening ∨ t = .closing ∨ t = .ampersand) (xs ys : List Char) :
    lex (xs ++ (t.chars ++ ys)) = lex xs ++ t :: lex ys := by
  have ends : t.Ends (charsOf (lex ys)) := by rcases solid with rfl | rfl | rfl <;> trivial
  refine lex_eq_iff.mpr ⟨by rw [charsOf_append, charsOf_cons, charsOf_lex, charsOf_lex], ?_⟩
  refine (lexed_lex xs).append (.cons ends (lexed_lex ys)) ?_
  intro u last
  obtain ⟨behind, ends⟩ := (lexed_lex xs).ends_of_mem (List.mem_of_getLast? last)
  cases u with
  | arrow | post | opening | closing | ampersand => trivial
  | text cs =>
    refine ⟨ends.1, ?_⟩
    intro c _ d first
    rw [charsOf_cons] at first
    rcases solid with rfl | rfl | rfl <;> cases first <;> simp [joins, isPlain]

/-- Tokens in parentheses. -/
def group (ts : List Token) : List Token :=
  .opening :: (ts ++ [.closing])

theorem lex_append_group (xs cs ys : List Char) :
    lex (xs ++ '(' :: (cs ++ ')' :: ys)) = lex xs ++ (group (lex cs) ++ lex ys) := by
  have opening : lex (xs ++ '(' :: (cs ++ ')' :: ys)) = lex xs ++ .opening :: lex (cs ++ ')' :: ys) :=
    lex_append_solid (.inl rfl) xs _
  have closing : lex (cs ++ ')' :: ys) = lex cs ++ .closing :: lex ys := lex_append_solid (.inr (.inl rfl)) cs ys
  rw [opening, closing, group, List.cons_append, List.append_assoc, List.singleton_append]

/-- Behind a text a balanced group counts for nothing. -/
theorem unopened_group {ts : List Token} (opened : unopened ts = 0) (closed : unclosed ts = 0) (vs : List Token) :
    unopened (group ts ++ vs) = unopened vs := by
  have whole : group ts ++ vs = .opening :: (ts ++ .closing :: vs) := by simp [group]
  rw [whole, unopened_cons, unopened_append, unopened_cons, opened, closed, countUnopened, countUnopened]
  omega

end Token

namespace Text

theorem Balanced.append {xs ys : List Char} (first : Balanced xs) (second : Balanced ys) : Balanced (xs ++ ys) := by
  rw [balanced_iff] at *
  rw [parens_append, Token.unopened_append, Token.unclosed_append, first.1, first.2, second.1, second.2]
  exact ⟨rfl, rfl⟩

theorem Balanced.group {cs : List Char} (balanced : Balanced cs) : Balanced ('(' :: (cs ++ [')'])) := by
  obtain ⟨opened, closed⟩ := Token.isBalanced_iff.mp balanced
  refine Token.isBalanced_iff.mpr ?_
  rw [Token.lex_group, Token.unopened_cons, Token.unclosed_cons, Token.unopened_append,
    Token.unclosed_append, opened,
    closed]
  exact ⟨rfl, rfl⟩

/-- Balanced texts are balanced together. -/
theorem balanced_intercalate {texts : List (List Char)} (each : ∀ cs ∈ texts, Balanced cs) :
    Balanced (['&'].intercalate texts) := by
  induction texts with
  | nil => rfl
  | cons cs rest ih =>
    obtain ⟨atHead, atTail⟩ := List.forall_mem_cons.mp each
    cases rest with
    | nil => rwa [List.intercalate_singleton]
    | cons next rest =>
      have sign : Balanced ['&'] := rfl
      rw [List.intercalate_cons_cons]
      exact (atHead.append sign).append (ih atTail)

/-- What is joined is blank only if nothing was. -/
theorem solid_intercalate {texts : List (List Char)} {cs : List Char} (member : cs ∈ texts)
    (solid : isBlankText cs = false) : isBlankText (['&'].intercalate texts) = false := by
  rw [isBlankText, List.all_eq_false] at solid ⊢
  obtain ⟨c, inside, sign⟩ := solid
  exact ⟨c, subset_intercalate member inside, sign⟩

end Text

namespace Pieces

open Token (unopened unclosed group)

variable {isSeparator : Token → Bool}

section Groups

/-- Inside a group nothing separates. Tokens that leave the group open, and open no more groups than are
closed behind them, are taken as they are. -/
theorem cutAt_within {us vs : List Token} {depth : Nat} (open' : unopened us ≤ depth)
    (partners : unclosed us ≤ unopened vs) :
    cutAt isSeparator (depth + 1) (PlacedToken.all (us ++ vs)) =
      (cutAt isSeparator (depth + 1 - unopened us + unclosed us) (PlacedToken.all vs)).pushAll us := by
  induction us generalizing depth with
  | nil => rfl
  | cons t us ih =>
    rw [Token.unopened_cons] at open'
    rw [Token.unclosed_cons] at partners
    rw [List.cons_append, Token.unopened_cons, Token.unclosed_cons]
    cases t with
    | opening =>
      simp only [Token.countUnopened, Token.countUnclosed] at open' partners ⊢
      have partner : 0 < unopened (us ++ vs) := by
        rw [Token.unopened_append]
        omega
      have deeper : depth + 1 + 1 - unopened us + unclosed us =
          depth + 1 - (unopened us - 1) + (0 + 1 - unopened us + unclosed us) := by omega
      rw [cutAt_opening (depth + 1) partner, @ih (depth + 1) (by omega) (by omega), deeper]
      rfl
    | closing =>
      simp only [Token.countUnopened, Token.countUnclosed] at open' partners ⊢
      obtain ⟨outer, rfl⟩ := Nat.exists_eq_succ_of_ne_zero (by omega : depth ≠ 0)
      have shallower : outer + 1 - unopened us + unclosed us =
          outer + 1 + 1 - (unopened us + 1) + (0 - 1 - unopened us + unclosed us) := by omega
      rw [cutAt_closing, @ih outer (by omega) (by omega), shallower]
      rfl
    | arrow | post | ampersand | text =>
      simp only [Token.countUnopened, Token.countUnclosed] at open' partners ⊢
      rw [cutAt_other (by simp) (by simp), if_neg (by simp), @ih depth open' (by omega), Nat.zero_sub, Nat.zero_add]
      rfl

/-- A balanced group is taken as it is. -/
theorem cutAt_group {us : List Token} (opened : unopened us = 0) (closed : unclosed us = 0) (depth : Nat)
    (vs : List Token) :
    cutAt isSeparator depth (PlacedToken.all (group us ++ vs)) =
      (cutAt isSeparator depth (PlacedToken.all vs)).pushAll (group us) := by
  have whole : group us ++ vs = .opening :: (us ++ .closing :: vs) := by simp [group]
  have partner : 0 < unopened (us ++ .closing :: vs) := by
    rw [Token.unopened_append, closed, Token.unopened_cons, Token.countUnopened]
    omega
  have within := @cutAt_within isSeparator us (.closing :: vs) depth (by omega) (by omega)
  rw [opened, closed, Nat.sub_zero, Nat.add_zero] at within
  rw [whole, cutAt_opening depth partner, within, cutAt_closing]
  simp [push, pushAll, group]

end Groups

section Stretches

/-- Tokens are cut around one balanced group as around another, by induction on the tokens before the group. -/
theorem stretches_regroup {us vs inside inside' xs ys : List Token} {before after : List (List Token)} {depth : Nat}
    (opened : unopened inside = 0) (closed : unclosed inside = 0)
    (opened' : unopened inside' = 0) (closed' : unclosed inside' = 0) (place : before.flatten ++ xs = us)
    (cuts : (cutAt isSeparator depth (PlacedToken.all (us ++ (group inside ++ vs)))).stretches =
      before ++ (xs ++ (group inside ++ ys)) :: after) :
    (cutAt isSeparator depth (PlacedToken.all (us ++ (group inside' ++ vs)))).stretches =
      before ++ (xs ++ (group inside' ++ ys)) :: after := by
  induction us generalizing depth before xs with
  | nil =>
    obtain ⟨none, rfl⟩ := List.append_eq_nil_iff.mp place
    rw [List.nil_append, cutAt_group opened closed, stretches, pushAll] at cuts
    rw [List.nil_append, cutAt_group opened' closed', stretches, pushAll]
    cases before with
    | nil =>
      obtain ⟨atHead, atTail⟩ := List.cons_eq_cons.mp cuts
      rw [List.nil_append, List.append_cancel_left_eq] at atHead
      dsimp only at atTail ⊢
      rw [atHead, atTail]
      rfl
    | cons first before =>
      obtain ⟨rfl, _⟩ := List.cons_eq_cons.mp cuts
      cases none
  | cons t us ih =>
    have same : unopened (us ++ (group inside' ++ vs)) = unopened (us ++ (group inside ++ vs)) := by
      rw [Token.unopened_append us, Token.unopened_append us, Token.unopened_group opened closed,
        Token.unopened_group opened' closed']
    rw [List.cons_append, PlacedToken.all_cons, cutAt] at cuts ⊢
    dsimp only at cuts ⊢
    rw [same]
    split at cuts
    · rename_i separates
      rw [if_pos separates, stretches_separate]
      rw [stretches_separate] at cuts
      cases before with
      | nil =>
        have none := (List.cons_eq_cons.mp cuts).1
        simp [group] at none
      | cons first before =>
        obtain ⟨rfl, further⟩ := List.cons_eq_cons.mp cuts
        cases before with
        | nil =>
          have length := congrArg List.length (List.cons_eq_cons.mp further).1
          simp only [group, List.length_append, List.length_cons] at length
          omega
        | cons sep before =>
          obtain ⟨rfl, behind⟩ := List.cons_eq_cons.mp further
          rw [ih (List.cons_eq_cons.mp place).2 behind]
          rfl
    · rename_i joins
      rw [if_neg joins, stretches_push]
      rw [stretches_push] at cuts
      cases before with
      | nil =>
        obtain ⟨atHead, atTail⟩ := List.cons_eq_cons.mp cuts
        rw [List.flatten_nil, List.nil_append] at place
        rw [place, List.cons_append] at atHead
        have further := @ih us [] _ rfl (List.cons_eq_cons.mpr ⟨(List.cons_eq_cons.mp atHead).2, atTail⟩)
        obtain ⟨further, later⟩ := List.cons_eq_cons.mp further
        rw [place]
        exact List.cons_eq_cons.mpr ⟨List.cons_eq_cons.mpr ⟨rfl, further⟩, later⟩
      | cons first before =>
        obtain ⟨rfl, atTail⟩ := List.cons_eq_cons.mp cuts
        have further := @ih xs (_ :: before) _ (List.cons_eq_cons.mp place).2 (List.cons_eq_cons.mpr ⟨rfl, atTail⟩)
        obtain ⟨further, later⟩ := List.cons_eq_cons.mp further
        exact List.cons_eq_cons.mpr ⟨List.cons_eq_cons.mpr ⟨rfl, further⟩, later⟩

end Stretches

section Joined

/-- A piece of a cut of tokens that close what is open is taken as it is by another such cut. -/
theorem skipped_cutAt {depth : Nat} {ts : List Token} (closes : unopened ts = depth) (noMore : unclosed ts = 0) :
    (∀ vs, cutAt isSeparator depth (PlacedToken.all ((cutAt isSeparator depth (PlacedToken.all ts)).first ++ vs)) =
      (cutAt isSeparator 0 (PlacedToken.all vs)).pushAll (cutAt isSeparator depth (PlacedToken.all ts)).first) ∧
    ∀ piece ∈ (cutAt isSeparator depth (PlacedToken.all ts)).rest, Skipped isSeparator piece.2 := by
  induction ts generalizing depth with
  | nil =>
    cases closes
    exact ⟨fun _ => rfl, by simp [cutAt]⟩
  | cons t ts ih =>
    rw [Token.unopened_cons] at closes
    rw [Token.unclosed_cons] at noMore
    cases t with
    | opening =>
      simp only [Token.countUnopened, Token.countUnclosed] at closes noMore
      have partner : 0 < unopened ts := by omega
      obtain ⟨first, rest⟩ := @ih (depth + 1) (by omega) (by omega)
      have stillOpen := (@balanced_cutAt isSeparator (depth + 1) ts (by omega) (by omega)).1.1
      rw [cutAt_opening depth partner]
      refine ⟨fun vs => ?_, rest⟩
      have partner' : 0 < unopened ((cutAt isSeparator (depth + 1) (PlacedToken.all ts)).first ++ vs) := by
        rw [Token.unopened_append]
        omega
      rw [push, List.cons_append, cutAt_opening depth partner', first]
      rfl
    | closing =>
      simp only [Token.countUnopened, Token.countUnclosed] at closes noMore
      obtain ⟨outer, rfl⟩ := Nat.exists_eq_succ_of_ne_zero (by omega : depth ≠ 0)
      obtain ⟨first, rest⟩ := @ih outer (by omega) (by omega)
      rw [Nat.succ_eq_add_one, cutAt_closing]
      refine ⟨fun vs => ?_, rest⟩
      rw [push, List.cons_append, cutAt_closing, first]
      rfl
    | arrow | post | ampersand | text =>
      simp only [Token.countUnopened, Token.countUnclosed, Nat.zero_sub, Nat.zero_add] at closes noMore
      obtain ⟨first, rest⟩ := ih closes noMore
      rw [cutAt_other (by simp) (by simp)]
      split
      · rename_i separates
        rw [Bool.and_eq_true, beq_iff_eq] at separates
        rw [separates.1] at first rest ⊢
        exact ⟨fun _ => rfl, List.forall_mem_cons.mpr ⟨first, rest⟩⟩
      · rename_i joins
        refine ⟨fun vs => ?_, rest⟩
        rw [push, List.cons_append, cutAt_other (by simp) (by simp), if_neg joins, first]
        rfl

theorem skipped_parts {cs : List Char} (balanced : Text.Balanced cs) :
    ∀ part ∈ (cut isSeparator cs).parts, Skipped isSeparator (Token.lex part) := by
  obtain ⟨closes, noMore⟩ := Token.isBalanced_iff.mp balanced
  obtain ⟨first, rest⟩ := @skipped_cutAt isSeparator _ _ closes noMore
  refine List.forall_mem_cons.mpr ⟨?_, ?_⟩
  · rw [(lexed_first cs).lex_charsOf]
    exact first
  · intro part member
    obtain ⟨piece, inside, rfl⟩ := List.mem_map.mp member
    rw [(lexed_rest inside).lex_charsOf]
    exact rest piece inside

theorem lex_intercalate (cs : List Char) (texts : List (List Char)) :
    Token.lex (['&'].intercalate (cs :: texts)) =
      (Pieces.mk (Token.lex cs) (texts.map fun text => (.ampersand, Token.lex text))).tokens := by
  induction texts generalizing cs with
  | nil => rw [List.intercalate_singleton, tokens, List.map_nil, List.flatMap_nil, List.append_nil]
  | cons text texts ih =>
    have front : Token.lex (cs ++ (['&'] ++ ['&'].intercalate (text :: texts))) =
        Token.lex cs ++ .ampersand :: Token.lex (['&'].intercalate (text :: texts)) :=
      Token.lex_append_solid (.inr (.inr rfl)) cs _
    rw [List.intercalate_cons_cons, List.append_assoc, front, ih]
    rfl

/-- Texts that a cut at ampersands takes as they are, are its pieces where they are joined. -/
theorem parts_intercalate {texts : List (List Char)} (nonempty : texts ≠ [])
    (skipped : ∀ cs ∈ texts, Skipped (·.kind == .ampersand) (Token.lex cs)) :
    (cut (·.kind == .ampersand) (['&'].intercalate texts)).parts = texts := by
  cases texts with
  | nil => exact absurd rfl nonempty
  | cons cs texts =>
    obtain ⟨atHead, atTail⟩ := List.forall_mem_cons.mp skipped
    have settled : (Pieces.mk (Token.lex cs) (texts.map fun text => (.ampersand, Token.lex text))).Settled
        (·.kind == .ampersand) := by
      refine settled_of_skipped atHead (List.forall_mem_map.mpr fun text member => ?_)
      exact ⟨by simp, by simp, rfl, atTail text member⟩
    rw [cut, lex_intercalate, settled, parts, List.map_map, Token.charsOf_lex]
    exact congrArg (cs :: ·) ((List.map_congr_left fun text _ => Token.charsOf_lex text).trans (List.map_id _))

end Joined

section Alternate

/-- The first of some texts, the third, and so on. -/
def alternate : List (List Char) → List (List Char)
  | [] => []
  | [cs] => [cs]
  | cs :: _ :: rest => cs :: alternate rest

theorem parts_eq (p : Pieces) : p.parts = alternate p.interleaved := by
  obtain ⟨first, rest⟩ := p
  rw [parts, interleaved]
  generalize Token.charsOf first = cs
  induction rest generalizing cs with
  | nil => rfl
  | cons piece rest ih =>
    rw [List.map_cons, List.flatMap_cons]
    exact congrArg (cs :: ·) (ih (Token.charsOf piece.2))

theorem map_alternate (f : List Char → List Char) (texts : List (List Char)) :
    (alternate texts).map f = alternate (texts.map f) := by
  fun_induction alternate texts with
  | case1 => rfl
  | case2 cs => rfl
  | case3 cs _ rest ih => rw [List.map_cons, ih]; rfl

theorem alternate_cons (cs : List Char) (later : List (List Char)) :
    alternate (cs :: later) = cs :: alternate (later.drop 1) := by
  cases later <;> rfl

/-- Blanks at the ends of a text are at the ends of its parts. -/
theorem trim_parts_cut {isSeparator : Token → Bool}
    (noText : ∀ cs, isSeparator (.text cs) = false) (cs : List Char) :
    (cut isSeparator (trim cs)).parts.map trim = (cut isSeparator cs).parts.map trim := by
  rw [parts_eq, parts_eq, map_alternate, map_alternate, interleaved_cut_trim noText]

end Alternate

end Pieces

/-- Blanks at the ends of a group are at the ends of its branches. -/
theorem branchesOf_trim (cs : List Char) : branchesOf (trim cs) = branchesOf cs :=
  Pieces.trim_parts_cut (fun _ => rfl) cs

/-- The pieces of a chain around a group: those before the one that the group stands in, what stands
beside the group in its own, and those behind. -/
structure Place where
  before : List (List Char)
  lead : List Char
  trail : List Char
  after : List (List Char)

namespace Place

/-- The pieces with a group of this text in its place. -/
def fill (place : Place) (inside : List Char) : List (List Char) :=
  place.before ++ (place.lead ++ '(' :: (inside ++ ')' :: place.trail)) :: place.after

/-- The same place in a line that goes on with other pieces behind the chain. -/
def inLine (place : Place) (later : List (List Char)) : Place where
  before := []
  lead := place.before.flatten ++ place.lead
  trail := place.trail ++ place.after.flatten
  after := later

/-- A cut of the whole text gives back the pieces. -/
def CutBy (place : Place) (isSeparator : Token → Bool) (inside : List Char) : Prop :=
  (Pieces.cut isSeparator (place.fill inside).flatten).interleaved = place.fill inside

variable {place : Place} {isSeparator : Token → Bool} {inside inside' : List Char}

theorem flatten_fill (place : Place) (inside : List Char) :
    (place.fill inside).flatten =
      (place.before.flatten ++ place.lead) ++ '(' :: (inside ++ ')' :: (place.trail ++ place.after.flatten)) := by
  simp [fill]

theorem fill_inLine (place : Place) (later : List (List Char)) (inside : List Char) :
    (place.inLine later).fill inside = (place.fill inside).flatten :: later := by
  rw [flatten_fill]
  rfl

theorem map_lex_fill (place : Place) (inside : List Char) :
    (place.fill inside).map Token.lex = place.before.map Token.lex ++
      (Token.lex place.lead ++ (Token.group (Token.lex inside) ++ Token.lex place.trail)) ::
        place.after.map Token.lex := by
  rw [fill, List.map_append, List.map_cons, Token.lex_append_group]

theorem CutBy.lex_before (cuts : place.CutBy isSeparator inside) :
    (place.before.map Token.lex).flatten ++ Token.lex place.lead =
    Token.lex (place.before.flatten ++ place.lead) := by
  have lexed := Token.lexed_lex (place.fill inside).flatten
  rw [← @Pieces.tokens_cut isSeparator, ← Pieces.flatten_stretches, Pieces.stretches_cut, cuts, map_lex_fill,
    List.flatten_append, List.flatten_cons, List.append_assoc, ← List.append_assoc] at lexed
  have texts : Token.charsOf (place.before.map Token.lex).flatten = place.before.flatten := by
    rw [Token.charsOf_flatten, Token.map_charsOf_lex]
  rw [← texts, ← Token.charsOf_lex place.lead, ← Token.charsOf_append, lexed.left.lex_charsOf, Token.charsOf_lex]

/-- A text is cut around a balanced group alike, whatever the group holds. -/
theorem CutBy.regroup (cuts : place.CutBy isSeparator inside) (balanced : Text.Balanced inside)
    (balanced' : Text.Balanced inside') : place.CutBy isSeparator inside' := by
  obtain ⟨opened, closed⟩ := Token.isBalanced_iff.mp balanced
  obtain ⟨opened', closed'⟩ := Token.isBalanced_iff.mp balanced'
  have atOnce := @Pieces.stretches_cut isSeparator (place.fill inside).flatten
  rw [cuts, map_lex_fill, Pieces.cut, flatten_fill, Token.lex_append_group] at atOnce
  have around := Pieces.stretches_regroup opened closed opened' closed' cuts.lex_before atOnce
  rw [← map_lex_fill] at around
  rw [CutBy, Pieces.interleaved_eq, Pieces.cut, flatten_fill, Token.lex_append_group, around, Token.map_charsOf_lex]

end Place

end TransferFlow
