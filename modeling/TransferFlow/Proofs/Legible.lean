import TransferFlow.Proofs.Reading
import TransferFlow.Proofs.SpacedTexts
import TransferFlow.Proofs.WrittenSteps

namespace TransferFlow

open Text (spaced trim)
open Pieces (linksBy marks)

/-- A name between arrows, on one line. -/
structure Text.IsName (cs : List Char) : Prop where
  isText : Part.IsText cs
  line : '\n' ∉ cs

section Links

/-- The step and the target, with the arrows in front of them. -/
def Leg.links (l : Leg) : List (Token × List Char) :=
  [(.arrow l.arrow, l.step.write), (.arrow l.arrow, l.target.toList)]

/-- A group of the texts. -/
def groupOf (texts : List (List Char)) : List Char :=
  '(' :: (writeBranches texts ++ [')'])

/-- What stands behind the arrows of a hop. -/
def Hop.links : Hop → List (Token × List Char)
  | .single leg => leg.links
  | .fanIn a steps target => [(.arrow a, groupOf (steps.map Step.write)), (.arrow a, target.toList)]
  | .fanOut a branches => [(.arrow a, groupOf (branches.map (Branch.write a)))]

theorem spaced_flatMap {α : Type} {f : α → List Char} {links : α → List (Token × List Char)}
    (each : ∀ x, f x = spaced [] (links x)) (first : List Char) (xs : List α) :
    first ++ xs.flatMap f = spaced first (xs.flatMap links) := by
  obtain rfl : f = fun x => spaced [] (links x) := funext each
  simp only [spaced, List.nil_append, List.flatMap_assoc]

theorem Leg.write_eq (l : Leg) : l.write = spaced [] l.links := by
  simp [Leg.write, Leg.links, spaced, Token.chars]

theorem Hop.write_eq (h : Hop) : h.write = spaced [] h.links := by
  cases h with
  | single leg => exact leg.write_eq
  | fanIn | fanOut => simp [Hop.write, Hop.links, groupOf, spaced, Token.chars]

theorem writeBranches_cons (first : List Char) (texts : List (List Char)) :
    writeBranches (first :: texts) = spaced first (linksBy .ampersand texts) := by
  induction texts generalizing first with
  | nil => exact (Text.spaced_nil first).symm
  | cons cs texts ih =>
    rw [writeBranches, ih cs]
    · simp [spaced, linksBy, Token.chars]
    · exact List.cons_ne_nil _ _

theorem Branch.write_eq (a : Arrow) (b : Branch) :
    b.write a =
        b.step.write ++ ' ' :: (a.chars ++ (' ' :: spaced b.target.toList (b.onward.flatMap Leg.links))) := by
  rw [← spaced_flatMap Leg.write_eq]
  simp [Branch.write]

theorem Chain.write_eq (c : Chain) : c.write = spaced c.entity.toList (c.hops.flatMap Hop.links) :=
  spaced_flatMap Hop.write_eq _ _

theorem Pattern.write_eq (p : Pattern) :
    p.write = spaced p.main.write (linksBy .post (p.post.map Chain.write)) := by
  simp [Pattern.write, spaced, linksBy, List.flatMap_map, Token.chars]

end Links

section Groups

/-- The texts are cut apart again at the ampersands between them, in parentheses of their own. -/
def IsGroup : List (List Char) → Prop
  | [] => False
  | first :: texts =>
    (marks first (linksBy .ampersand texts)).Settled (·.kind == .ampersand) ∧
      Token.isBalanced (marks first (linksBy .ampersand texts)).tokens = true

theorem isGroup_congr {texts texts' : List (List Char)} (same : texts.map Text.signs = texts'.map Text.signs) :
    IsGroup texts ↔ IsGroup texts' := by
  cases texts with
  | nil =>
    cases texts' with
    | nil => rfl
    | cons => cases same
  | cons first texts =>
    cases texts' with
    | nil => cases same
    | cons first' texts' => rw [IsGroup, IsGroup, Pieces.marks_linksBy same]

theorem signs_linksBy {sep : Token} (sign : sep.kind ≠ .text) (texts : List (List Char)) :
    ∀ link ∈ linksBy sep texts, link.1.kind ≠ .text := by
  intro link member
  obtain ⟨cs, _, rfl⟩ := List.mem_map.mp member
  exact sign

theorem signs_writeBranches {texts texts' : List (List Char)}
    (same : texts.map Text.signs = texts'.map Text.signs) :
    Text.signs (writeBranches texts) = Text.signs (writeBranches texts') := by
  have sign := @signs_linksBy .ampersand (by simp [Token.kind])
  cases texts with
  | nil =>
    cases texts' with
    | nil => rfl
    | cons => cases same
  | cons first texts =>
    cases texts' with
    | nil => cases same
    | cons first' texts' =>
      rw [writeBranches_cons, writeBranches_cons, Pieces.signs_spaced (sign _), Pieces.signs_spaced (sign _),
        Pieces.marks_linksBy same]

theorem signs_group (cs : List Char) :
    Text.signs ('(' :: (cs ++ [')'])) = .opening :: (Text.signs cs ++ [.closing]) := by
  rw [Text.signs, Token.lex_group, Token.signs_cons (by simp [Token.kind]), Token.signs_append_tokens]
  rfl

variable {texts : List (List Char)}

theorem trimmed_writeBranches (each : ∀ cs ∈ texts, cs ≠ [] ∧ Text.Trimmed cs) :
    Text.Trimmed (writeBranches texts) := by
  cases texts with
  | nil => constructor <;> intro c atEnd <;> cases atEnd
  | cons first texts =>
    obtain ⟨⟨nonempty, trimmed⟩, later⟩ := List.forall_mem_cons.mp each
    rw [writeBranches_cons]
    refine Text.trimmed_spaced nonempty trimmed ?_
    intro link member
    obtain ⟨cs, inside, rfl⟩ := List.mem_map.mp member
    exact later cs inside

/-- A group is read to the texts it was written from. -/
theorem branches_groupOf (isGroup : IsGroup texts) (each : ∀ cs ∈ texts, cs ≠ [] ∧ Text.Trimmed cs) :
    groupInside? (groupOf texts) = some (writeBranches texts) ∧ branchesOf (writeBranches texts) = texts := by
  have trimmed := trimmed_writeBranches each
  cases texts with
  | nil => exact isGroup.elim
  | cons first texts =>
    obtain ⟨settled, balanced⟩ := isGroup
    have sign := @signs_linksBy .ampersand (by simp [Token.kind]) texts
    have nonempty := (each first List.mem_cons_self).1
    rw [groupOf, groupInside?_eq_some, writeBranches_cons] at *
    refine ⟨⟨_, rfl, ?_, ?_, trimmed.trim_eq.symm⟩, ?_⟩
    · rw [Text.balanced_iff_signs, Pieces.signs_spaced sign]
      exact balanced
    · rw [Text.solid_iff, trimmed.trim_eq]
      simp [spaced, nonempty]
    · exact Pieces.parts_spaced (fun _ => rfl) settled fun cs member => (each cs member).2

theorem eq_ampersand {t : Token} (isAmpersand : (t.kind == .ampersand) = true) : t = .ampersand := by
  cases t with
  | ampersand => rfl
  | arrow | post | opening | closing | text => cases isAmpersand

/-- Texts with the signs of the branches of a group make a group with the signs of that group. -/
theorem isGroup_of_branchesOf {cs inside : List Char} (found : groupInside? cs = some inside)
    (same : texts.map Text.signs = (branchesOf inside).map Text.signs) :
    IsGroup texts ∧ Text.signs (groupOf texts) = Text.signs cs := by
  have sign := @signs_linksBy .ampersand (by simp [Token.kind])
  obtain ⟨body, rfl, balanced, _, rfl⟩ := groupInside?_eq_some.mp found
  cases shape : branchesOf (trim body) with
  | nil => exact absurd shape (branchesOf_ne_nil _)
  | cons first branches =>
    obtain ⟨settled, signs⟩ := Pieces.marks_of_parts (fun _ => eq_ampersand) (by simp) shape
    rw [Text.signs_trim] at signs
    rw [shape] at same
    refine ⟨(isGroup_congr same).mpr ⟨settled, ?_⟩, ?_⟩
    · rw [← signs, ← Text.balanced_iff_signs]
      exact balanced
    · rw [groupOf, signs_group, signs_writeBranches same, writeBranches_cons, Pieces.signs_spaced (sign _), ← signs,
        signs_group]

theorem isText_groupOf (texts : List (List Char)) : Part.IsText (groupOf texts) where
  nonempty := List.cons_ne_nil _ _
  trimmed := Text.trimmed_group (writeBranches texts)
  noArrow := rfl

end Groups

section Legible

/-- A leg between names. -/
structure Leg.Legible (l : Leg) : Prop where
  step : l.step.Legible
  target : Text.IsName l.target.toList

/-- A branch that is cut behind its step, and whose continuation is cut at its arrows. -/
structure Branch.Legible (b : Branch) : Prop where
  step : b.step.Legible
  unbroken : Step.Unbroken b.step.protocol.toList
  target : Text.IsName b.target.toList
  onward : ∀ l ∈ b.onward, l.Legible
  settled : (marks b.target.toList (b.onward.flatMap Leg.links)).Settled Token.isArrow

/-- A hop between names. A group is cut at its ampersands, and an arrow tells a fan-out from a fan-in. -/
def Hop.Legible : Hop → Prop
  | .single leg => leg.Legible
  | .fanIn _ steps target =>
    IsGroup (steps.map Step.write) ∧ (∀ s ∈ steps, s.Legible ∧ Token.hasArrow s.write = false) ∧
      Text.IsName target.toList
  | .fanOut a branches =>
    IsGroup (branches.map (Branch.write a)) ∧ (∀ b ∈ branches, b.Legible) ∧ (branches.map Branch.target).Nodup

/-- A chain that is cut at its arrows. -/
structure Chain.Legible (c : Chain) : Prop where
  entity : Text.IsName c.entity.toList
  nonempty : c.hops ≠ []
  hops : ∀ h ∈ c.hops, h.Legible
  settled : (marks c.entity.toList (c.hops.flatMap Hop.links)).Settled Token.isArrow

/-- A line that is cut at its marks. -/
structure Pattern.Legible (p : Pattern) : Prop where
  chains : ∀ c ∈ p.chains, c.Legible
  settled : (marks p.main.write (linksBy .post (p.post.map Chain.write))).Settled (·.kind == .post)

end Legible

section Reading

theorem Step.isText_write {s : Step} (legible : s.Legible) : Part.IsText s.write where
  nonempty := s.write_ne_nil
  trimmed := Step.trimmed_write legible
  noArrow := by
    have long : 2 < s.write.length := by
      rw [Step.write_eq, List.length_append, List.length_cons, Step.length_text]
      omega
    have other (a : Arrow) : s.write ≠ a.chars := by
      intro same
      rw [same] at long
      cases a <;> exact absurd long (by decide)
    rw [Part.ofChars, if_neg (other .forward), if_neg (other .reverse)]

/-- A step ends in a direction, so it is no group. -/
theorem Step.stage_write (s : Step) : Stage.ofChars s.write = .single s.write := by
  refine Stage.ofChars_eq_single.mpr ⟨rfl, ?_⟩
  cases found : groupInside? s.write with
  | none => rfl
  | some inside =>
    obtain ⟨body, whole, _⟩ := groupInside?_eq_some.mp found
    have last := congrArg List.getLast? whole
    rw [← List.cons_append, List.getLast?_concat, Step.write_eq, List.getLast?_append] at last
    cases direction : s.direction <;> rw [direction] at last <;> cases last

theorem Leg.isText_links {l : Leg} (legible : l.Legible) : ∀ link ∈ l.links, Part.IsText link.2 :=
  List.forall_mem_cons.mpr ⟨Step.isText_write legible.step, List.forall_mem_singleton.mpr legible.target.isText⟩

theorem Hop.isText_links {h : Hop} (legible : h.Legible) : ∀ link ∈ h.links, Part.IsText link.2 := by
  cases h with
  | single leg => exact leg.isText_links legible
  | fanIn a steps target =>
    exact List.forall_mem_cons.mpr ⟨isText_groupOf _, List.forall_mem_singleton.mpr legible.2.2.isText⟩
  | fanOut a branches => exact List.forall_mem_singleton.mpr (isText_groupOf _)

variable {chain : List Char → Except SyntaxError Chain}

theorem Leg.reads_links {l : Leg} (legible : l.Legible) {parts : List Part} {hops : List Hop}
    (later : Hop.Reads chain parts hops) : Hop.Reads chain (Part.ofLinks l.links ++ parts) (.single l :: hops) := by
  have first : Hop.Reads chain
      (.arrow l.arrow :: .text l.step.write :: .arrow l.arrow :: .text l.target.toList :: parts)
      (.single { arrow := l.arrow, step := l.step, target := String.ofList l.target.toList } :: hops) :=
    .single l.step.stage_write (Step.read?_write legible.step) later
  rw [String.ofList_toList] at first
  rw [Leg.links, Part.ofLinks_arrow, Part.ofLinks_arrow]
  exact first

theorem reads_legs {legs : List Leg} (legible : ∀ l ∈ legs, l.Legible) :
    Hop.Reads chain (Part.ofLinks (legs.flatMap Leg.links)) (legs.map .single) := by
  induction legs with
  | nil => exact .nil
  | cons l legs ih =>
    obtain ⟨atHead, atTail⟩ := List.forall_mem_cons.mp legible
    rw [List.flatMap_cons, Part.ofLinks_append, List.map_cons]
    exact Leg.reads_links atHead (ih atTail)

section Branches

variable {b : Branch}

theorem Branch.Legible.noBreak (legible : b.Legible) :
    '\n' ∉ spaced b.target.toList (b.onward.flatMap Leg.links) := by
  have arrow (a : Arrow) : '\n' ∉ (Token.arrow a).chars := by cases a <;> decide
  intro inside
  rw [spaced, List.mem_append] at inside
  rcases inside with inside | inside
  · exact legible.target.line inside
  · obtain ⟨⟨sep, cs⟩, member, inside⟩ := List.mem_flatMap.mp inside
    obtain ⟨l, within, member⟩ := List.mem_flatMap.mp member
    have names := legible.onward l within
    have line : ∀ link ∈ l.links, '\n' ∉ link.1.chars ∧ '\n' ∉ link.2 :=
      List.forall_mem_cons.mpr ⟨⟨arrow _, Step.noBreak_write names.step⟩,
        List.forall_mem_singleton.mpr ⟨arrow _, names.target.line⟩⟩
    have each := line _ member
    simp [each.1, each.2] at inside

theorem Branch.Legible.trimmed (legible : b.Legible) :
    Text.Trimmed (spaced b.target.toList (b.onward.flatMap Leg.links)) := by
  refine Text.trimmed_spaced legible.target.isText.nonempty legible.target.isText.trimmed ?_
  intro link member
  obtain ⟨l, inside, member⟩ := List.mem_flatMap.mp member
  have isText := Leg.isText_links (legible.onward l inside) link member
  exact ⟨isText.nonempty, isText.trimmed⟩

theorem Branch.Legible.split (legible : b.Legible) :
    Part.split (spaced b.target.toList (b.onward.flatMap Leg.links)) =
      .text b.target.toList :: Part.ofLinks (b.onward.flatMap Leg.links) := by
  refine Part.split_spaced legible.target.isText ?_ legible.settled
  intro link member
  obtain ⟨l, inside, member⟩ := List.mem_flatMap.mp member
  exact Leg.isText_links (legible.onward l inside) link member

/-- A branch is read again from its text; its continuation is a chain of single hops. -/
theorem Branch.reads_write (legible : b.Legible) (a : Arrow) (n : Nat) :
    Branch.Reads (Chain.readWithin .tooShort (n + 1)) a (b.write a) b := by
  have nonempty : ' ' :: spaced b.target.toList (b.onward.flatMap Leg.links) ≠ [] := List.cons_ne_nil _ _
  have cut := Step.readBranch?_write legible.step legible.unbroken a nonempty (by simpa using legible.noBreak)
  have front : trim (' ' :: spaced b.target.toList (b.onward.flatMap Leg.links)) =
      spaced b.target.toList (b.onward.flatMap Leg.links) :=
    (Text.trim_blank _).trans legible.trimmed.trim_eq
  have parts := legible.split
  rw [front, ← b.write_eq] at cut
  obtain ⟨step, target, onward⟩ := b
  cases onward with
  | nil =>
    have reads := @Branch.Reads.ending (Chain.readWithin .tooShort (n + 1)) a _ _ _ _ cut parts
    rwa [String.ofList_toList] at reads
  | cons l legs =>
    have further : Part.ofLinks ((l :: legs).flatMap Leg.links) =
        .arrow l.arrow :: .text l.step.write ::
          Part.ofLinks ((.arrow l.arrow, l.target.toList) :: legs.flatMap Leg.links) :=
      Part.ofLinks_arrow ..
    have continuation :
        Chain.readWithin SyntaxError.tooShort (n + 1) (spaced target.toList ((l :: legs).flatMap Leg.links)) =
          .ok { entity := target, hops := (l :: legs).map .single } := by
      refine Chain.readWith_eq_ok.mpr ⟨_, _, parts, ?_, reads_legs legible.onward, String.ofList_toList.symm⟩
      rw [further]
      exact List.cons_ne_nil _ _
    rw [further] at parts
    have reads := Branch.Reads.continued cut parts continuation (Chain.legs?_eq_some.mpr rfl)
    rwa [String.ofList_toList] at reads

end Branches

/-- The signs of a branch are those of its step, its arrow and those of what follows. -/
theorem Branch.signs_write (b : Branch) (a : Arrow) :
    Text.signs (b.write a) = Text.signs b.step.write ++
      .arrow a :: Text.signs (spaced b.target.toList (b.onward.flatMap Leg.links)) := by
  have joined := @Text.signs_append_sign ' ' (.arrow a) rfl (by simp [Token.kind]) b.step.write
    (' ' :: spaced b.target.toList (b.onward.flatMap Leg.links))
  have front := @Text.signs_append_of_plain [' '] (List.forall_mem_singleton.mpr rfl)
    (spaced b.target.toList (b.onward.flatMap Leg.links))
  rw [List.singleton_append] at front
  rw [Token.chars, front] at joined
  rw [b.write_eq, joined]

theorem Branch.hasArrow_write (b : Branch) (a : Arrow) : Token.hasArrow (b.write a) = true := by
  rw [Text.hasArrow_eq_signs, b.signs_write, List.any_append, List.any_cons]
  simp [Token.isArrow, Token.kind]

theorem Branch.trimmed_write {b : Branch} (legible : b.Legible) (a : Arrow) :
    b.write a ≠ [] ∧ Text.Trimmed (b.write a) := by
  have whole : b.write a = b.step.write ++ ((' ' :: (a.chars ++ [' '])) ++
      spaced b.target.toList (b.onward.flatMap Leg.links)) := by
    rw [b.write_eq]
    simp
  have nonempty : spaced b.target.toList (b.onward.flatMap Leg.links) ≠ [] := by
    simp [spaced, legible.target.isText.nonempty]
  rw [whole]
  refine ⟨by simp [b.step.write_ne_nil], ?_⟩
  exact Text.trimmed_around _ b.step.write_ne_nil (Step.trimmed_write legible.step) nonempty legible.trimmed

/-- A hop is read again from its text. -/
theorem Hop.reads_links {h : Hop} (legible : h.Legible) (n : Nat) {parts : List Part} {hops : List Hop}
    (later : Hop.Reads (Chain.readWithin .tooShort (n + 1)) parts hops) :
    Hop.Reads (Chain.readWithin .tooShort (n + 1)) (Part.ofLinks h.links ++ parts) (h :: hops) := by
  cases h with
  | single leg => exact Leg.reads_links legible later
  | fanIn a steps target =>
    obtain ⟨isGroup, each, name⟩ := legible
    have trimmed : ∀ cs ∈ steps.map Step.write, cs ≠ [] ∧ Text.Trimmed cs :=
      List.forall_mem_map.mpr fun s member => ⟨s.write_ne_nil, Step.trimmed_write (each s member).1⟩
    obtain ⟨group, branches⟩ := branches_groupOf isGroup trimmed
    have noArrow : (steps.map Step.write).any Token.hasArrow = false := by
      rw [List.any_map, List.any_eq_false]
      intro s member
      simp [(each s member).2]
    have stage : Stage.ofChars (groupOf (steps.map Step.write)) = .fanIn (steps.map Step.write) :=
      Stage.ofChars_eq_fanIn.mpr ⟨_, group, branches.symm, noArrow⟩
    have all : List.Forall₂ (fun t s => Step.read? t = some s) (steps.map Step.write) steps := by
      rw [List.forall₂_map_left_iff, List.forall₂_same]
      exact fun s member => Step.read?_write (each s member).1
    have first := @Hop.Reads.fanIn _ a _ _ _ target.toList _ _ stage all later
    rw [String.ofList_toList] at first
    rw [Hop.links, Part.ofLinks_arrow, Part.ofLinks_arrow]
    exact first
  | fanOut a branches =>
    obtain ⟨isGroup, each, distinct⟩ := legible
    have trimmed : ∀ cs ∈ branches.map (Branch.write a), cs ≠ [] ∧ Text.Trimmed cs :=
      List.forall_mem_map.mpr fun b member => Branch.trimmed_write (each b member) a
    obtain ⟨group, texts⟩ := branches_groupOf isGroup trimmed
    have arrows : (branches.map (Branch.write a)).any Token.hasArrow = true := by
      cases branches with
      | nil => exact isGroup.elim
      | cons b branches => rw [List.map_cons, List.any_cons, b.hasArrow_write, Bool.true_or]
    have stage : Stage.ofChars (groupOf (branches.map (Branch.write a))) =
        .fanOut (branches.map (Branch.write a)) :=
      Stage.ofChars_eq_fanOut.mpr ⟨_, group, texts.symm, arrows⟩
    have all : List.Forall₂ (Branch.Reads (Chain.readWithin .tooShort (n + 1)) a)
        (branches.map (Branch.write a)) branches := by
      rw [List.forall₂_map_left_iff, List.forall₂_same]
      exact fun b member => Branch.reads_write (each b member) a n
    rw [Hop.links, Part.ofLinks_arrow]
    exact .fanOut stage all distinct later

theorem Hop.reads_all {hops : List Hop} (legible : ∀ h ∈ hops, h.Legible) (n : Nat) :
    Hop.Reads (Chain.readWithin .tooShort (n + 1)) (Part.ofLinks (hops.flatMap Hop.links)) hops := by
  induction hops with
  | nil => exact .nil
  | cons h hops ih =>
    obtain ⟨atHead, atTail⟩ := List.forall_mem_cons.mp legible
    rw [List.flatMap_cons, Part.ofLinks_append]
    exact Hop.reads_links atHead n (ih atTail)

theorem Hop.links_ne_nil (h : Hop) : h.links ≠ [] := by
  cases h <;> exact List.cons_ne_nil _ _

section Chains

variable {c : Chain}

theorem Chain.Legible.isText_links (legible : c.Legible) :
    ∀ link ∈ c.hops.flatMap Hop.links, Part.IsText link.2 := by
  intro link member
  obtain ⟨h, inside, member⟩ := List.mem_flatMap.mp member
  exact Hop.isText_links (legible.hops h inside) link member

theorem Chain.Legible.trimmed (legible : c.Legible) : Text.Trimmed c.write := by
  rw [c.write_eq]
  refine Text.trimmed_spaced legible.entity.isText.nonempty legible.entity.isText.trimmed ?_
  exact fun link member => ⟨(legible.isText_links link member).nonempty, (legible.isText_links link member).trimmed⟩

/-- A chain is read again from its text, which is long enough for the continuations inside it. -/
theorem Chain.read_write (legible : c.Legible) : Chain.read c.write = .ok c := by
  have filled : c.hops.flatMap Hop.links ≠ [] := by
    obtain ⟨h, hops, shape⟩ := List.exists_cons_of_ne_nil legible.nonempty
    rw [shape, List.flatMap_cons]
    exact List.append_ne_nil_of_left_ne_nil h.links_ne_nil _
  obtain ⟨⟨sep, cs⟩, links, shape⟩ := List.exists_cons_of_ne_nil filled
  obtain ⟨n, long⟩ : ∃ n, c.write.length - 1 = n + 1 := by
    refine ⟨c.write.length - 2, ?_⟩
    rw [c.write_eq, shape, Text.spaced_cons]
    simp only [spaced, List.length_append, List.length_cons]
    have := List.length_pos_iff.mpr legible.entity.isText.nonempty
    omega
  have parts := Part.split_spaced legible.entity.isText legible.isText_links legible.settled
  rw [← c.write_eq] at parts
  refine Chain.read_eq_ok.mpr ⟨_, _, parts, ?_, ?_, String.ofList_toList.symm⟩
  · rw [shape]
    exact List.cons_ne_nil _ _
  · rw [long]
    exact Hop.reads_all legible.hops n

end Chains

theorem Pattern.read_write {p : Pattern} (legible : p.Legible) : Pattern.read p.write = .ok p := by
  have trimmed : ∀ cs ∈ p.main.write :: p.post.map Chain.write, Text.Trimmed cs := by
    rw [← List.map_cons (f := Chain.write)]
    exact List.forall_mem_map.mpr fun c member => (legible.chains c member).trimmed
  refine Pattern.read_eq_ok.mpr ?_
  rw [p.write_eq, Pieces.parts_spaced (fun _ => rfl) legible.settled trimmed, Pattern.chains,
    ← List.map_cons (f := Chain.write), List.forall₂_map_left_iff, List.forall₂_same]
  exact fun c member => Chain.read_write (legible.chains c member)

end Reading

end TransferFlow
