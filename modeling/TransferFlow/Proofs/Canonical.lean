import TransferFlow.Proofs.Legible
import TransferFlow.Proofs.WrittenSegments

namespace TransferFlow

open Text (spaced trim)
open Pieces (linksBy marks)

/-- Arrows and texts that have the signs of some links. -/
inductive Carries : List Part → List (Token × List Char) → Prop
  | nil : Carries [] []
  | cons {a cs cs' parts links} :
      Text.signs cs = Text.signs cs' → Carries parts links →
      Carries (.arrow a :: .text cs :: parts) ((.arrow a, cs') :: links)

namespace Carries

theorem links {parts : List Part} {links : List (Token × List Char)} (carries : Carries parts links) :
    ∃ found, parts = Part.ofLinks found ∧ (∀ link ∈ found, link.1.isArrow = true) ∧
      ∀ first, marks first found = marks first links := by
  induction carries with
  | nil => exact ⟨[], rfl, by simp, fun _ => rfl⟩
  | @cons a cs cs' parts links same _ ih =>
    obtain ⟨found, rfl, arrows, marked⟩ := ih
    refine ⟨(.arrow a, cs) :: found, (Part.ofLinks_arrow ..).symm, List.forall_mem_cons.mpr ⟨rfl, arrows⟩, ?_⟩
    intro first
    have rest := congrArg Pieces.rest (marked first)
    simp only [marks] at rest
    simp only [marks, List.map_cons, same, rest]

/-- A chain whose parts have the signs of some links is cut as the links are. -/
theorem marks_of_split {parts : List Part} {links : List (Token × List Char)} (carries : Carries parts links)
    {cs first : List Char} (split : Part.split cs = .text first :: parts) :
    (marks first links).Settled Token.isArrow ∧ Text.signs cs = (marks first links).tokens := by
  obtain ⟨found, rfl, arrows, marked⟩ := carries.links
  rw [← marked]
  exact Part.marks_of_split arrows split

end Carries

/-- The parts of a line. -/
def Part.Names (parts : List Part) : Prop :=
  ∀ cs, .text cs ∈ parts → Text.IsName cs

theorem Part.names_split {cs : List Char} (line : '\n' ∉ cs) : Part.Names (Part.split cs) := by
  intro part member
  exact ⟨isText_of_mem_split member, fun inside => line ((isInfix_of_mem_split member).subset inside)⟩

theorem Part.Names.behind {part : Part} {parts : List Part} (names : Part.Names (part :: parts)) :
    Part.Names parts :=
  fun cs member => names cs (List.mem_cons_of_mem _ member)

section Hops

variable {chain : List Char → Except SyntaxError Chain}

/-- A leg has the signs of the parts that it was read from. -/
theorem Leg.legible_of_read? {a : Arrow} {cs name : List Char} {step : Step} (names : Text.IsName cs)
    (names' : Text.IsName name) (atStep : Step.read? cs = some step) {parts : List Part}
    {links : List (Token × List Char)} (later : Carries parts links) :
    Leg.Legible ⟨a, step, String.ofList name⟩ ∧
      Carries (.arrow a :: .text cs :: .arrow a :: .text name :: parts)
        (Leg.links ⟨a, step, String.ofList name⟩ ++ links) := by
  obtain ⟨legible, signs⟩ := Step.legible_of_read? names.isText.trimmed atStep
  refine ⟨⟨legible, by rwa [String.toList_ofList]⟩, ?_⟩
  rw [Leg.links, String.toList_ofList]
  exact .cons signs.symm (.cons rfl later)

theorem legible_legs {parts : List Part} {hops : List Hop} (found : Hop.Reads chain parts hops)
    (names : Part.Names parts) {legs : List Leg} (simple : hops = legs.map .single) :
    (∀ l ∈ legs, l.Legible) ∧ Carries parts (legs.flatMap Leg.links) := by
  induction found generalizing legs with
  | nil =>
    obtain rfl : legs = [] := by simpa using simple.symm
    exact ⟨by simp, .nil⟩
  | fanIn | fanOut => cases legs <;> cases simple
  | @single a cs text step name rest hops single atStep _ ih =>
    cases legs with
    | nil => cases simple
    | cons l legs =>
      obtain ⟨same, simple'⟩ := List.cons_eq_cons.mp simple
      cases same
      obtain ⟨rfl, _⟩ := Stage.ofChars_eq_single.mp single
      obtain ⟨later, carries⟩ := ih names.behind.behind.behind.behind simple'
      obtain ⟨legible, carries'⟩ :=
        Leg.legible_of_read? (a := a) (names text (by simp)) (names name (by simp)) atStep carries
      exact ⟨List.forall_mem_cons.mpr ⟨legible, later⟩, carries'⟩

/-- `chain` reads chains of legs to legible ones. -/
def ReadsLegs (chain : List Char → Except SyntaxError Chain) : Prop :=
  ∀ cs c legs, '\n' ∉ cs → chain cs = .ok c → c.legs? = some legs →
    (∀ l ∈ legs, l.Legible) ∧ ∃ name rest, Part.split cs = .text name :: rest ∧
    Carries rest (legs.flatMap Leg.links)

theorem readsLegs_readWithin (n : Nat) : ReadsLegs (Chain.readWithin .tooShort n) := by
  intro cs c legs line run simple
  cases n with
  | zero => cases run
  | succ n =>
    obtain ⟨name, rest, split, _, found, _⟩ := Chain.readWith_eq_ok.mp run
    have names := Part.names_split line
    rw [split] at names
    obtain ⟨legible, carries⟩ := legible_legs found names.behind (Chain.legs?_eq_some.mp simple)
    exact ⟨legible, name, rest, split, carries⟩

/-- A branch has the signs of the text that it was read from. -/
theorem Branch.Reads.legible {a : Arrow} {cs : List Char} {b : Branch} (found : Branch.Reads chain a cs b)
    (readsLegs : ReadsLegs chain) (trimmed : Text.Trimmed cs) (line : '\n' ∉ cs) :
    b.Legible ∧ Text.signs cs = Text.signs (b.write a) := by
  -- what is left to show once the parts behind the head are known
  have go {step : Step} {onward name : List Char} {rest : List Part} {legs : List Leg}
      (atHead : Step.readBranch? cs = some (step, a, onward)) (split : Part.split onward = .text name :: rest)
      (legible : ∀ l ∈ legs, l.Legible) (carries : Carries rest (legs.flatMap Leg.links)) :
      Branch.Legible ⟨step, String.ofList name, legs⟩ ∧
        Text.signs cs = Text.signs (Branch.write a ⟨step, String.ofList name, legs⟩) := by
    obtain ⟨legible', unbroken, line', signs⟩ := Step.legible_of_readBranch? trimmed line atHead
    obtain ⟨settled, signs'⟩ := carries.marks_of_split split
    have names := Part.names_split line'
    rw [split] at names
    refine ⟨⟨legible', unbroken, ?_, legible, ?_⟩, ?_⟩
    · rw [String.toList_ofList]
      exact names name List.mem_cons_self
    · rwa [String.toList_ofList]
    · rw [signs, signs', Branch.signs_write, String.toList_ofList, settled.signs_spaced fun _ => rfl]
  cases found with
  | ending atHead split => exact go atHead split (by simp) .nil
  | @continued step onward name next more continuation legs atHead split run simple =>
    obtain ⟨_, _, line', _⟩ := Step.legible_of_readBranch? trimmed line atHead
    obtain ⟨legible, name', rest, split', carries⟩ := readsLegs _ _ _ line' run simple
    rw [split] at split'
    cases split'
    exact go atHead split legible carries

/-- The branches of a group are trimmed stretches of it. -/
theorem branch_of_groupInside? {cs inside : List Char} (found : groupInside? cs = some inside) :
    ∀ text ∈ branchesOf inside, Text.Trimmed text ∧ text <:+: cs := by
  obtain ⟨body, rfl, _, _, rfl⟩ := groupInside?_eq_some.mp found
  intro text member
  obtain ⟨part, within, rfl⟩ := List.mem_map.mp member
  have inBody := (Pieces.isInfix_of_mem_parts within).trans (Text.trim_isInfix body)
  exact ⟨Text.trimmed_trim part, (Text.trim_isInfix part).trans (inBody.trans ⟨['('], [')'], rfl⟩)⟩

theorem signs_of_forall₂ {α : Type} {R : List Char → α → Prop} {f : α → List Char} {texts : List (List Char)}
    {xs : List α} (all : List.Forall₂ R texts xs)
    (each : ∀ t ∈ texts, ∀ x, R t x → Text.signs (f x) = Text.signs t) :
    (xs.map f).map Text.signs = texts.map Text.signs := by
  induction all with
  | nil => rfl
  | cons related _ ih =>
    obtain ⟨atHead, atTail⟩ := List.forall_mem_cons.mp each
    rw [List.map_cons, List.map_cons, List.map_cons, atHead _ related, ih atTail]

/-- Hops have the signs of the parts that they were read from, by induction over the hops. -/
theorem Hop.Reads.legible {parts : List Part} {hops : List Hop} (found : Hop.Reads chain parts hops)
    (readsLegs : ReadsLegs chain) (names : Part.Names parts) :
    (∀ h ∈ hops, h.Legible) ∧ Carries parts (hops.flatMap Hop.links) := by
  induction found with
  | nil => exact ⟨by simp, .nil⟩
  | @single a cs text step name rest hops single atStep _ ih =>
    obtain ⟨rfl, _⟩ := Stage.ofChars_eq_single.mp single
    obtain ⟨later, carries⟩ := ih names.behind.behind.behind.behind
    obtain ⟨legible, carries'⟩ :=
      Leg.legible_of_read? (a := a) (names text (by simp)) (names name (by simp)) atStep carries
    exact ⟨List.forall_mem_cons.mpr ⟨legible, later⟩, carries'⟩
  | @fanIn a cs texts steps name rest hops fanIn all _ ih =>
    obtain ⟨inside, group, rfl, noArrow⟩ := Stage.ofChars_eq_fanIn.mp fanIn
    obtain ⟨later, carries⟩ := ih names.behind.behind.behind.behind
    have branch := branch_of_groupInside? group
    obtain ⟨isGroup, signs⟩ := isGroup_of_branchesOf group
      (signs_of_forall₂ all fun t member s atStep => (Step.legible_of_read? (branch t member).1 atStep).2)
    have each : ∀ s ∈ steps, s.Legible ∧ Token.hasArrow s.write = false := by
      intro s member
      obtain ⟨t, within, atStep⟩ := forall₂_mem_right all member
      obtain ⟨legible, same⟩ := Step.legible_of_read? (branch t within).1 atStep
      refine ⟨legible, ?_⟩
      rw [Text.hasArrow_eq_signs, same, ← Text.hasArrow_eq_signs]
      simpa using List.any_eq_false.mp noArrow t within
    have name' : Text.IsName (String.ofList name).toList := by
      rw [String.toList_ofList]
      exact names name (by simp)
    refine ⟨List.forall_mem_cons.mpr ⟨⟨isGroup, each, name'⟩, later⟩, ?_⟩
    exact .cons signs.symm (.cons (by rw [String.toList_ofList]) carries)
  | @fanOut a cs texts branches rest hops fanOut all distinct _ ih =>
    obtain ⟨inside, group, rfl, _⟩ := Stage.ofChars_eq_fanOut.mp fanOut
    obtain ⟨later, carries⟩ := ih names.behind.behind
    have line : ∀ t ∈ branchesOf inside, Text.Trimmed t ∧ '\n' ∉ t := fun t member =>
      ⟨(branch_of_groupInside? group t member).1,
        fun within => (names cs (by simp)).line ((branch_of_groupInside? group t member).2.subset within)⟩
    obtain ⟨isGroup, signs⟩ := isGroup_of_branchesOf group (signs_of_forall₂ all fun t member b reads =>
      (reads.legible readsLegs (line t member).1 (line t member).2).2.symm)
    have each : ∀ b ∈ branches, b.Legible := by
      intro b member
      obtain ⟨t, within, reads⟩ := forall₂_mem_right all member
      exact (reads.legible readsLegs (line t within).1 (line t within).2).1
    exact ⟨List.forall_mem_cons.mpr ⟨⟨isGroup, each, distinct⟩, later⟩, .cons signs.symm carries⟩

end Hops

/-- A chain has the signs of the text that it was read from. -/
theorem Chain.legible_of_read {cs : List Char} {c : Chain} (line : '\n' ∉ cs) (run : Chain.read cs = .ok c) :
    c.Legible ∧ Text.signs c.write = Text.signs cs := by
  obtain ⟨entity, rest, split, _, found, named⟩ := Chain.read_eq_ok.mp run
  have names := Part.names_split line
  rw [split] at names
  obtain ⟨legible, carries⟩ := found.legible (readsLegs_readWithin _) names.behind
  obtain ⟨settled, signs⟩ := carries.marks_of_split split
  have entity' : c.entity.toList = entity := by rw [named, String.toList_ofList]
  have chain : c.Legible := by
    refine ⟨?_, (Chain.wellFormed_of_read run).1, legible, ?_⟩
    · rw [entity']
      exact names entity List.mem_cons_self
    · rwa [entity']
  refine ⟨chain, ?_⟩
  rw [c.write_eq, chain.settled.signs_spaced (fun _ => rfl), entity', signs]

theorem eq_post {t : Token} (isPost : (t.kind == .post) = true) : t = .post := by
  cases t with
  | post => rfl
  | arrow | ampersand | opening | closing | text => cases isPost

/-- Every pattern that a line was read to can be read from its canonical text. -/
theorem Pattern.legible_of_read {cs : List Char} {p : Pattern} (line : '\n' ∉ cs) (run : Pattern.read cs = .ok p) :
    p.Legible := by
  have found := Pattern.read_eq_ok.mp run
  have line' : ∀ text ∈ (Pieces.cut (·.kind == .post) cs).parts.map trim, '\n' ∉ text := by
    intro text member inside
    obtain ⟨part, within, rfl⟩ := List.mem_map.mp member
    exact line ((Pieces.isInfix_of_mem_parts within).subset ((Text.trim_isInfix part).subset inside))
  refine ⟨?_, ?_⟩
  · intro c member
    obtain ⟨text, within, readText⟩ := forall₂_mem_right found member
    exact (Chain.legible_of_read (line' text within) readText).1
  · have same := signs_of_forall₂ found fun text within c readText =>
      (Chain.legible_of_read (line' text within) readText).2
    generalize parts : (Pieces.cut (·.kind == .post) cs).parts.map trim = texts at same
    cases texts with
    | nil => cases same
    | cons first texts =>
      rw [Pieces.marks_linksBy same]
      exact (Pieces.marks_of_parts (fun _ => eq_post) (by simp) parts).1

/-- Whatever text a line is, with stray parentheses and separators in its names, its segments are read again from
their canonical text. -/
theorem tokenize_writeLine {line : String} {segs : List Segment} (oneLine : '\n' ∉ line.toList)
    (run : tokenize line = .ok segs) : tokenize (String.ofList (Segment.writeLine segs)) = .ok segs := by
  obtain ⟨p, found, rfl⟩ := map_eq_ok.mp run
  rw [Pattern.writeLine_segments (Pattern.wellFormed_of_read found), tokenize, String.toList_ofList,
    Pattern.read_write (Pattern.legible_of_read oneLine found)]
  rfl

theorem tokenize_writeLine_uneven :
    ∃ segs, '\n' ∉ "A) ->((x)  pUsh& y\tpull )-> B <-( q -> z Push <-C )>>(D ->z pull->E".toList ∧
      tokenize "A) ->((x)  pUsh& y\tpull )-> B <-( q -> z Push <-C )>>(D ->z pull->E" = .ok segs ∧
      tokenize (String.ofList (Segment.writeLine segs)) = .ok segs := by
  have oneLine : '\n' ∉ "A) ->((x)  pUsh& y\tpull )-> B <-( q -> z Push <-C )>>(D ->z pull->E".toList := by decide
  have read : (tokenize "A) ->((x)  pUsh& y\tpull )-> B <-( q -> z Push <-C )>>(D ->z pull->E").isOk = true := by
    cbv
  obtain ⟨segs, run⟩ := ok_of_isOk read
  exact ⟨segs, oneLine, run, tokenize_writeLine oneLine run⟩

end TransferFlow
