import TransferFlow.Proofs.Continuations
import TransferFlow.Proofs.Regrouping

namespace TransferFlow

open Text (isBlankText trim)

section Reordered

variable {α β : Type} {order : List Nat} {xs : List α}

/-- The elements at these places, in this order. -/
def reordered (order : List Nat) (xs : List α) : List α :=
  order.filterMap (xs[·]?)

theorem mem_of_mem_reordered {x : α} (member : x ∈ reordered order xs) : x ∈ xs := by
  obtain ⟨k, _, atPlace⟩ := List.mem_filterMap.mp member
  exact List.mem_of_getElem? atPlace

theorem map_reordered (f : α → β) (order : List Nat) (xs : List α) :
    (reordered order xs).map f = reordered order (xs.map f) := by
  rw [reordered, reordered, List.map_filterMap]
  simp only [List.getElem?_map]

theorem reordered_range (xs : List α) : reordered (List.range xs.length) xs = xs := by
  induction xs with
  | nil => rfl
  | cons x xs ih =>
    rw [reordered] at ih
    rw [reordered, List.length_cons, List.range_succ_eq_map, List.filterMap_cons, List.filterMap_map]
    exact congrArg (x :: ·) ih

/-- An order that names every place once changes nothing but the order. -/
theorem perm_reordered (perm : order.Perm (List.range xs.length)) : (reordered order xs).Perm xs := by
  have same := perm.filterMap (xs[·]?)
  rwa [← reordered, ← reordered, reordered_range] at same

theorem forall₂_reordered {R : α → β → Prop} {ys : List β} (related : List.Forall₂ R xs ys) (order : List Nat) :
    List.Forall₂ R (reordered order xs) (reordered order ys) := by
  have atPlace (k : Nat) : xs[k]? = none ∧ ys[k]? = none ∨ ∃ x y, xs[k]? = some x ∧ ys[k]? = some y ∧ R x y := by
    induction related generalizing k with
    | nil => exact .inl ⟨rfl, rfl⟩
    | @cons x y xs ys atHead _ ih =>
      cases k with
      | zero => exact .inr ⟨x, y, rfl, rfl, atHead⟩
      | succ k => exact ih k
  induction order with
  | nil => exact .nil
  | cons k order ih =>
    rw [reordered, reordered, List.filterMap_cons, List.filterMap_cons]
    rcases atPlace k with ⟨none, none'⟩ | ⟨x, y, found, found', here⟩
    · rw [none, none']
      exact ih
    · rw [found, found']
      exact .cons here ih

end Reordered

/-- The text inside a group with its branches in another order. -/
def reorderedInside (order : List Nat) (inside : List Char) : List Char :=
  ['&'].intercalate (reordered order (Pieces.cut (·.kind == .ampersand) inside).parts)

example : String.ofList (reorderedInside [1, 0] "X PUSH -> B & Y PULL -> C".toList) =
    " Y PULL -> C&X PUSH -> B " := by
  cbv

/-- A group is a fan-out if its parentheses are balanced and one of its branches has an arrow. -/
theorem Stage.ofChars_group_eq_fanOut {inside : List Char} {texts : List (List Char)} :
    Stage.ofChars ('(' :: (inside ++ [')'])) = .fanOut texts ↔
      Text.Balanced inside ∧ isBlankText inside = false ∧
      (Pieces.cut (·.kind == .ampersand) inside).parts.map trim = texts ∧ texts.any Token.hasArrow = true := by
  rw [Stage.ofChars_eq_fanOut]
  constructor
  · rintro ⟨_, group, rfl, arrows⟩
    obtain ⟨body, same, balanced, solid, rfl⟩ := groupInside?_eq_some.mp group
    obtain rfl := List.append_cancel_right (List.cons_eq_cons.mp same).2
    rw [branchesOf_trim, branchesOf] at *
    exact ⟨balanced, solid, rfl, arrows⟩
  · rintro ⟨balanced, solid, rfl, arrows⟩
    refine ⟨trim inside, ?_, ?_, arrows⟩
    · rw [groupInside?_group balanced, solid]
      rfl
    · rw [branchesOf_trim, branchesOf]

/-- A fan-out with its branches in another order is the fan-out of the same branches in that order. -/
theorem stage_reordered {inside : List Char} {texts : List (List Char)} {order : List Nat}
    (stage : Stage.ofChars ('(' :: (inside ++ [')'])) = .fanOut texts)
    (perm : order.Perm (List.range texts.length)) :
    Stage.ofChars ('(' :: (reorderedInside order inside ++ [')'])) = .fanOut (reordered order texts) := by
  obtain ⟨balanced, _, rfl, arrows⟩ := Stage.ofChars_group_eq_fanOut.mp stage
  rw [List.length_map] at perm
  have balanced' : Text.Balanced (reorderedInside order inside) :=
    Text.balanced_intercalate fun cs member => Pieces.balanced_cut balanced cs (mem_of_mem_reordered member)
  -- The branch with the arrow is still there.
  have arrows' : ((reordered order (Pieces.cut (·.kind == .ampersand) inside).parts).map trim).any Token.hasArrow =
      true := by
    rw [((perm_reordered perm).map trim).any_eq]
    exact arrows
  have parts : (Pieces.cut (·.kind == .ampersand) (reorderedInside order inside)).parts =
      reordered order (Pieces.cut (·.kind == .ampersand) inside).parts := by
    refine Pieces.parts_intercalate ?_ fun cs member =>
      Pieces.skipped_parts balanced cs (mem_of_mem_reordered member)
    intro none
    rw [none] at arrows'
    cases arrows'
  have solid : isBlankText (reorderedInside order inside) = false := by
    obtain ⟨_, member, arrow⟩ := List.any_eq_true.mp arrows'
    obtain ⟨cs, inside', rfl⟩ := List.mem_map.mp member
    refine Text.solid_intercalate inside' (Text.solid_iff.mpr ?_)
    intro none
    rw [none] at arrow
    cases arrow
  refine Stage.ofChars_group_eq_fanOut.mpr ⟨balanced', solid, ?_, map_reordered trim order _ ▸ arrows'⟩
  rw [parts, map_reordered]

namespace Hop

variable {chain : List Char → Except SyntaxError Chain}

/-- Parts with a fan-out among their hops fall into those before its arrow, the arrow, the group and
those behind it. Whatever can be read behind the first ones, their hops come before it. -/
theorem Reads.fanOut_split {parts : List Part} {hops early late : List Hop} {a : Arrow} {branches : List Branch}
    (found : Reads chain parts hops) (shape : hops = early ++ .fanOut a branches :: late) :
    ∃ taken cs texts behind, parts = taken ++ .arrow a :: .text cs :: behind ∧ Stage.ofChars cs = .fanOut texts ∧
      List.Forall₂ (Branch.Reads chain a) texts branches ∧ (branches.map Branch.target).Nodup ∧
      Reads chain behind late ∧
      ∀ parts' hops', Reads chain parts' hops' → Reads chain (taken ++ parts') (early ++ hops') := by
  induction found generalizing early with
  | nil => simp at shape
  | single single atStep _ ih =>
    cases early with
    | nil => cases shape
    | cons h early =>
      obtain ⟨rfl, rest⟩ := List.cons_eq_cons.mp shape
      obtain ⟨taken, cs, texts, behind, rfl, stage, all, distinct, later, front⟩ := ih rest
      exact ⟨_ :: _ :: _ :: _ :: taken, cs, texts, behind, rfl, stage, all, distinct, later,
        fun parts' hops' reads => .single single atStep (front parts' hops' reads)⟩
  | fanIn fanIn steps _ ih =>
    cases early with
    | nil => cases shape
    | cons h early =>
      obtain ⟨rfl, rest⟩ := List.cons_eq_cons.mp shape
      obtain ⟨taken, cs, texts, behind, rfl, stage, all, distinct, later, front⟩ := ih rest
      exact ⟨_ :: _ :: _ :: _ :: taken, cs, texts, behind, rfl, stage, all, distinct, later,
        fun parts' hops' reads => .fanIn fanIn steps (front parts' hops' reads)⟩
  | fanOut fanOut all distinct more ih =>
    cases early with
    | nil =>
      cases shape
      exact ⟨[], _, _, _, rfl, fanOut, all, distinct, more, fun _ _ reads => reads⟩
    | cons h early =>
      obtain ⟨rfl, rest⟩ := List.cons_eq_cons.mp shape
      obtain ⟨taken, cs, texts, behind, rfl, stage, all', distinct', later, front⟩ := ih rest
      exact ⟨_ :: _ :: taken, cs, texts, behind, rfl, stage, all', distinct', later,
        fun parts' hops' reads => .fanOut fanOut all distinct (front parts' hops' reads)⟩

end Hop

namespace Part

theorem ofTexts_append (texts more : List (List Char)) :
    ofTexts (texts ++ more) = ofTexts texts ++ ofTexts more := by
  simp [ofTexts]

/-- Every part is one of the texts, trimmed, and the parts around it are those of the texts around that one. -/
theorem ofTexts_eq_append_cons {texts : List (List Char)} {ps qs : List Part} {q : Part}
    (parts : ofTexts texts = ps ++ q :: qs) :
    ∃ before cs after, texts = before ++ cs :: after ∧ ofTexts before = ps ∧ ofChars (trim cs) = q ∧
      ofTexts after = qs := by
  induction texts generalizing ps with
  | nil => simp [ofTexts] at parts
  | cons cs texts ih =>
    rw [ofTexts_cons] at parts
    split at parts
    · rename_i blank
      obtain ⟨before, cs', after, rfl, atFront, atPlace, atBack⟩ := ih parts
      refine ⟨cs :: before, cs', after, rfl, ?_, atPlace, atBack⟩
      rw [ofTexts_cons, if_pos blank, atFront]
    · rename_i solid
      cases ps with
      | nil =>
        obtain ⟨atPlace, atBack⟩ := List.cons_eq_cons.mp parts
        exact ⟨[], cs, texts, rfl, rfl, atPlace, atBack⟩
      | cons p ps =>
        obtain ⟨rfl, rest⟩ := List.cons_eq_cons.mp parts
        obtain ⟨before, cs', after, rfl, atFront, atPlace, atBack⟩ := ih rest
        refine ⟨cs :: before, cs', after, rfl, ?_, atPlace, atBack⟩
        rw [ofTexts_cons, if_neg solid, atFront]

/-- A group between blanks is one part. -/
theorem ofTexts_group {lead trail : List Char} (blank : isBlankText lead = true) (blank' : isBlankText trail = true)
    (inside : List Char) (texts : List (List Char)) :
    ofTexts ((lead ++ '(' :: (inside ++ ')' :: trail)) :: texts) =
      .text ('(' :: (inside ++ [')'])) :: ofTexts texts := by
  have whole : lead ++ '(' :: (inside ++ ')' :: trail) = lead ++ ('(' :: (inside ++ [')']) ++ trail) := by simp
  have trimGroup : trim (lead ++ '(' :: (inside ++ ')' :: trail)) = '(' :: (inside ++ [')']) := by
    rw [whole, Text.trim_append_left _ blank, Text.trim_append_right _ blank', (Text.trimmed_group inside).trim_eq]
  have solid : ¬ isBlankText (lead ++ '(' :: (inside ++ ')' :: trail)) = true := by
    rw [← Text.trim_eq_nil, trimGroup]
    exact List.cons_ne_nil _ _
  have noArrow (a : Arrow) : '(' :: (inside ++ [')']) ≠ a.chars := by
    cases a <;> simp [Arrow.chars]
  rw [ofTexts_cons, if_neg solid, trimGroup, ofChars, if_neg (noArrow .forward), if_neg (noArrow .reverse)]

end Part

namespace Place

/-- A line with a fan-out of `branches` along `a` in this place of its main chain. What stands before the arrow are
the entity and the hops `early`, what stands behind the group are the hops `late`, and behind the main chain the
texts `later` spell the chains `post`. -/
structure Spells (place : Place) (later : List (List Char)) (inside : List Char) (entity : String)
    (early : List Hop) (a : Arrow) (branches : List Branch) (late : List Hop) (post : List Chain) : Prop where
  line : (place.inLine later).CutBy (·.kind == .post) inside
  chain : place.CutBy Token.isArrow inside
  lead : isBlankText place.lead = true
  trail : isBlankText place.trail = true
  front : ∃ name taken, Part.ofTexts place.before = .text name :: (taken ++ [.arrow a]) ∧
    entity = String.ofList name ∧
    ∀ parts hops, Hop.Reads Chain.read parts hops → Hop.Reads Chain.read (taken ++ parts) (early ++ hops)
  group : ∃ texts, Stage.ofChars ('(' :: (inside ++ [')'])) = .fanOut texts ∧
    List.Forall₂ (Branch.Reads Chain.read a) texts branches ∧ (branches.map Branch.target).Nodup
  back : Hop.Reads Chain.read (Part.ofTexts place.after) late
  post : List.Forall₂ (fun text c => Chain.read text = .ok c)
    ((Pieces.alternate (later.drop 1)).map trim) post

variable {place : Place} {later : List (List Char)} {inside : List Char} {entity : String} {early late : List Hop}
  {a : Arrow} {branches : List Branch} {post : List Chain}

theorem parts_inLine (line : (place.inLine later).CutBy (·.kind == .post) inside) :
    (Pieces.cut (·.kind == .post) ((place.inLine later).fill inside).flatten).parts =
      (place.fill inside).flatten :: Pieces.alternate (later.drop 1) := by
  rw [Pieces.parts_eq, line, fill_inLine, Pieces.alternate_cons]

/-- Such a line is read as the pattern that it spells. -/
theorem Spells.read (spells : place.Spells later inside entity early a branches late post) :
    Pattern.read ((place.inLine later).fill inside).flatten =
      .ok { main := { entity, hops := early ++ .fanOut a branches :: late }, post } := by
  obtain ⟨name, taken, front, named, reads⟩ := spells.front
  obtain ⟨texts, stage, all, distinct⟩ := spells.group
  refine Pattern.read_eq_ok.mpr ?_
  rw [parts_inLine spells.line, List.map_cons]
  refine .cons ?_ spells.post
  rw [Chain.read_eq_readWith, Chain.readWith_eq_ok]
  refine ⟨name, taken ++ .arrow a :: .text ('(' :: (inside ++ [')'])) :: Part.ofTexts place.after, ?_, by simp,
    reads _ _ (.fanOut stage all distinct spells.back), named⟩
  rw [Part.split_trim, Part.split_eq, spells.chain, fill, Part.ofTexts_append, front,
    Part.ofTexts_group spells.lead spells.trail]
  simp

/-- A line whose main chain has a fan-out spells it in some place. -/
theorem exists_spells {cs : List Char} {p : Pattern} (found : Pattern.read cs = .ok p)
    (hops : p.main.hops = early ++ .fanOut a branches :: late) :
    ∃ (place : Place) (later : List (List Char)) (inside : List Char),
      cs = ((place.inLine later).fill inside).flatten ∧
      place.Spells later inside p.main.entity early a branches late p.post := by
  obtain ⟨chain, later, line⟩ : ∃ chain later, (Pieces.cut (·.kind == .post) cs).interleaved = chain :: later :=
    ⟨_, _, rfl⟩
  have chains := Pattern.read_eq_ok.mp found
  rw [Pieces.parts_eq, line, Pieces.alternate_cons, List.map_cons, Pattern.chains, List.forall₂_cons] at chains
  obtain ⟨main, readPost⟩ := chains
  rw [Chain.read_eq_readWith, Chain.readWith_eq_ok, Part.split_trim, Part.split_eq] at main
  obtain ⟨name, _, parts, _, reads, named⟩ := main
  obtain ⟨taken, group, texts, behind, rfl, stage, all, distinct, back, front⟩ := reads.fanOut_split hops
  have split : Part.ofTexts (Pieces.cut Token.isArrow chain).interleaved =
      (.text name :: (taken ++ [.arrow a])) ++ .text group :: behind := by
    rw [parts]
    simp
  obtain ⟨before, piece, after, pieces, atFront, atPlace, rfl⟩ := Part.ofTexts_eq_append_cons split
  obtain rfl := Part.eq_of_ofChars atPlace
  -- The piece of the group is its text between blanks.
  obtain ⟨_, isGroup, _⟩ := Stage.ofChars_eq_fanOut.mp stage
  obtain ⟨inside, trimmed, _⟩ := groupInside?_eq_some.mp isGroup
  obtain ⟨lead, trail, around, blank, blank'⟩ := Text.trim_between piece
  rw [trimmed] at around stage
  have inChain : (Place.mk before lead trail after).fill inside = (Pieces.cut Token.isArrow chain).interleaved := by
    rw [pieces, around]
    simp [fill]
  have inLine : ((Place.mk before lead trail after).inLine later).fill inside =
      (Pieces.cut (·.kind == .post) cs).interleaved := by
    rw [fill_inLine, inChain, Pieces.flatten_cut, line]
  refine ⟨⟨before, lead, trail, after⟩, later, inside, by rw [inLine, Pieces.flatten_cut], ?_⟩
  exact {
    line := by rw [CutBy, inLine, Pieces.flatten_cut]
    chain := by rw [CutBy, inChain, Pieces.flatten_cut]
    lead := blank
    trail := blank'
    front := ⟨name, taken, atFront, named, front⟩
    group := ⟨texts, stage, all, distinct⟩
    back := back
    post := readPost }

/-- There is one text between ampersands for each branch. -/
theorem Spells.length_parts (spells : place.Spells later inside entity early a branches late post) :
    (Pieces.cut (·.kind == .ampersand) inside).parts.length = branches.length := by
  obtain ⟨_, stage, all, _⟩ := spells.group
  obtain ⟨_, _, rfl, _⟩ := Stage.ofChars_group_eq_fanOut.mp stage
  rw [← all.length_eq, List.length_map]

/-- The same texts around the same branches in another order spell the branches in that order. -/
theorem Spells.reorder (spells : place.Spells later inside entity early a branches late post) {order : List Nat}
    (perm : order.Perm (List.range branches.length)) :
    place.Spells later (reorderedInside order inside) entity early a (reordered order branches) late
      post := by
  obtain ⟨texts, stage, all, distinct⟩ := spells.group
  have stage' := stage_reordered stage (all.length_eq ▸ perm)
  obtain ⟨balanced, _⟩ := Stage.ofChars_group_eq_fanOut.mp stage
  obtain ⟨balanced', _⟩ := Stage.ofChars_group_eq_fanOut.mp stage'
  have distinct' : ((reordered order branches).map Branch.target).Nodup :=
    ((perm_reordered perm).map Branch.target).nodup_iff.mpr distinct
  exact { spells with
    line := spells.line.regroup balanced balanced'
    chain := spells.chain.regroup balanced balanced'
    group := ⟨_, stage', forall₂_reordered all order, distinct'⟩ }

end Place

end TransferFlow
