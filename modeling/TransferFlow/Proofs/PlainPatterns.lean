import TransferFlow.Proofs.FieldBalance
import TransferFlow.Proofs.Legible
import TransferFlow.Proofs.Listing
import TransferFlow.Proofs.LoneBranch

namespace TransferFlow

open Text (spaced trim)
open Pieces (linksBy marks)

/-- A trimmed name on one line without parentheses, ampersands, arrows and marks. -/
structure Text.IsPlain (cs : List Char) : Prop where
  nonempty : cs ≠ []
  trimmed : Text.Trimmed cs
  flat : Text.Flat cs
  noArrow : ∀ a : Arrow, ¬ a.chars <:+: cs

/-- All names in the pattern are plain. -/
def Pattern.Plain (p : Pattern) : Prop :=
  ∀ c ∈ p.chains, Text.IsPlain c.entity.toList ∧ ∀ h ∈ c.hops, ∀ t ∈ h.texts, Text.IsPlain t.toList

section Decidable

instance (cs : List Char) : Decidable (Text.Trimmed cs) :=
  decidable_of_iff (trim cs = cs) ⟨fun same => same ▸ Text.trimmed_trim cs, Text.Trimmed.trim_eq⟩

theorem Text.flat_iff {cs : List Char} :
    Text.Flat cs ↔ ('(' ∉ cs ∧ ')' ∉ cs ∧ '&' ∉ cs ∧ '\n' ∉ cs) ∧ ¬ ['>', '>'] <:+: cs := by
  constructor
  · intro flat
    refine ⟨⟨?_, ?_, ?_, flat.noBreak⟩, flat.noPost⟩
    · exact fun inside => (flat.signs _ inside).1 rfl
    · exact fun inside => (flat.signs _ inside).2.1 rfl
    · exact fun inside => (flat.signs _ inside).2.2.1 rfl
  · rintro ⟨⟨noOpening, noClosing, noAmpersand, noBreak⟩, noPost⟩
    refine ⟨fun c member => ⟨?_, ?_, ?_, ?_⟩, noPost⟩ <;> rintro rfl <;> contradiction

instance (cs : List Char) : Decidable (Text.Flat cs) :=
  decidable_of_iff _ Text.flat_iff.symm

instance (cs : List Char) : Decidable (Text.IsPlain cs) :=
  decidable_of_iff
    (cs ≠ [] ∧ Text.Trimmed cs ∧ Text.Flat cs ∧ ¬ Arrow.forward.chars <:+: cs ∧ ¬ Arrow.reverse.chars <:+: cs)
    ⟨fun all => ⟨all.1, all.2.1, all.2.2.1, fun a => a.casesOn all.2.2.2.1 all.2.2.2.2⟩,
      fun plain => ⟨plain.nonempty, plain.trimmed, plain.flat, plain.noArrow .forward, plain.noArrow .reverse⟩⟩

instance (p : Pattern) : Decidable p.Plain :=
  inferInstanceAs (Decidable (∀ c ∈ p.chains, _ ∧ ∀ h ∈ c.hops, ∀ t ∈ h.texts, _))

instance : (h : Hop) → Decidable h.WellFormed
  | .single _ => inferInstanceAs (Decidable True)
  | .fanIn _ steps _ => inferInstanceAs (Decidable (steps ≠ []))
  | .fanOut _ branches => inferInstanceAs (Decidable (branches ≠ [] ∧ (branches.map Branch.target).Nodup))

instance (p : Pattern) : Decidable p.WellFormed :=
  inferInstanceAs (Decidable (∀ c ∈ p.chains, c.hops ≠ [] ∧ ∀ h ∈ c.hops, h.WellFormed))

end Decidable

namespace Pieces

variable {isSeparator : Token → Bool}

/-- Tokens that a cut at these separators takes as they are, whatever follows. -/
def Skipped (isSeparator : Token → Bool) (us : List Token) : Prop :=
  ∀ vs, cutAt isSeparator 0 (PlacedToken.all (us ++ vs)) = (cutAt isSeparator 0 (PlacedToken.all vs)).pushAll us

theorem skipped_nil : Skipped isSeparator [] :=
  fun _ => rfl

theorem Skipped.append {us vs : List Token} (first : Skipped isSeparator us) (second : Skipped isSeparator vs) :
    Skipped isSeparator (us ++ vs) := by
  intro ws
  rw [List.append_assoc, first, second, pushAll, pushAll, pushAll, List.append_assoc]

theorem skipped_of_inert {us : List Token}
    (inert : ∀ t ∈ us, t ≠ .opening ∧ t ≠ .closing ∧ isSeparator t = false) : Skipped isSeparator us :=
  fun vs => cutAt_pushAll 0 vs fun t member =>
    ⟨(inert t member).1, (inert t member).2.1, by rw [(inert t member).2.2, Bool.and_false]⟩

/-- A group without groups inside is skipped, whatever separators stand in it. -/
theorem skipped_group {us : List Token} (noParen : ∀ t ∈ us, t ≠ .opening ∧ t ≠ .closing) :
    Skipped isSeparator (.opening :: (us ++ [.closing])) := by
  intro vs
  have partner : 0 < Token.unopened (us ++ .closing :: vs) := by
    rw [Token.unopened_append, (Token.counts_of_noParen noParen).2, Token.unopened_cons, Token.countUnopened]
    omega
  have whole : .opening :: (us ++ [.closing]) ++ vs = .opening :: (us ++ .closing :: vs) := by simp
  have inside := @cutAt_pushAll isSeparator us 1 (.closing :: vs) fun t member =>
    ⟨(noParen t member).1, (noParen t member).2, rfl⟩
  rw [whole, cutAt_opening 0 partner, inside, cutAt_closing]
  simp [push, pushAll]

/-- Skipped tokens between separators are settled, by induction on the pieces. -/
theorem settled_of_skipped {p : Pieces} (first : Skipped isSeparator p.first)
    (rest : ∀ piece ∈ p.rest, piece.1 ≠ .opening ∧ piece.1 ≠ .closing ∧ isSeparator piece.1 = true ∧
      Skipped isSeparator piece.2) : p.Settled isSeparator := by
  obtain ⟨us, pieces⟩ := p
  induction pieces generalizing us with
  | nil =>
    have alone := first []
    rw [PlacedToken.all_nil, cutAt, pushAll, List.append_nil] at alone
    rw [Settled, tokens, List.flatMap_nil, List.append_nil]
    exact alone
  | cons piece pieces ih =>
    obtain ⟨⟨noOpening, noClosing, separates, skipped⟩, later⟩ := List.forall_mem_cons.mp rest
    have behind := ih piece.2 skipped later
    rw [Settled, tokens] at behind
    rw [Settled, tokens, List.flatMap_cons, first, List.cons_append,
      cutAt_other noOpening noClosing, separates, behind]
    simp [pushAll, separate]

/-- Pieces are skipped together with the separators between them, where these do not count. -/
theorem skipped_tokens {p : Pieces} (first : Skipped isSeparator p.first)
    (rest : ∀ piece ∈ p.rest, piece.1 ≠ .opening ∧ piece.1 ≠ .closing ∧ isSeparator piece.1 = false ∧
      Skipped isSeparator piece.2) : Skipped isSeparator p.tokens := by
  obtain ⟨us, pieces⟩ := p
  refine first.append ?_
  induction pieces with
  | nil => exact skipped_nil
  | cons piece pieces ih =>
    obtain ⟨⟨noOpening, noClosing, inert, skipped⟩, later⟩ := List.forall_mem_cons.mp rest
    have sep : Skipped isSeparator [piece.1] :=
      skipped_of_inert (List.forall_mem_singleton.mpr ⟨noOpening, noClosing, inert⟩)
    rw [List.flatMap_cons]
    exact (sep.append skipped).append (ih first later)

end Pieces

namespace Text.IsPlain

variable {cs : List Char}

/-- A plain name has no signs. -/
theorem signs (plain : Text.IsPlain cs) : Text.signs cs = [] := by
  rw [Text.signs, Token.signs, List.filter_eq_nil_iff]
  intro t member
  obtain ⟨noOpening, noClosing, noAmpersand, noPost⟩ := plain.flat.tokens t member
  cases t with
  | text cs => simp [Token.kind]
  | arrow a =>
    have inside := Token.chars_isInfix_charsOf member
    rw [Token.charsOf_lex] at inside
    exact absurd inside (plain.noArrow a)
  | opening => exact absurd rfl noOpening
  | closing => exact absurd rfl noClosing
  | ampersand => exact absurd rfl noAmpersand
  | post => exact absurd rfl noPost

theorem isName (plain : Text.IsPlain cs) : Text.IsName cs where
  isText :=
    ⟨plain.nonempty, plain.trimmed, Part.ofChars_of_noArrow (by rw [Text.hasArrow_eq_signs, plain.signs]; rfl)⟩
  line := plain.flat.noBreak

end Text.IsPlain

namespace Step

variable {s : Step}

theorem legible_of_plain (plain : Text.IsPlain s.protocol.toList) : s.Legible :=
  ⟨plain.nonempty, plain.trimmed, plain.flat.noBreak⟩

/-- Without arrows a protocol is not cut. -/
theorem unbroken_of_plain (plain : Text.IsPlain s.protocol.toList) : Unbroken s.protocol.toList := by
  intro p q whole _
  cases found : directionAndArrow? q with
  | none => rfl
  | some result =>
    obtain ⟨d, a, behind⟩ := result
    obtain ⟨head, rfl, _⟩ := directionAndArrow?_spec found
    refine absurd ⟨p ++ head, behind, ?_⟩ (plain.noArrow a)
    rw [whole]
    simp only [List.append_assoc]

theorem signs_of_plain (plain : Text.IsPlain s.protocol.toList) : Text.signs s.write = [] := by
  rw [signs_write, plain.signs]

end Step

section Legible

/-- Arrows, and behind them texts that every cut skips. -/
def Skips (links : List (Token × List Char)) : Prop :=
  ∀ link ∈ links, (∃ a, link.1 = .arrow a) ∧ ∀ isSeparator, Pieces.Skipped isSeparator (Text.signs link.2)

/-- A plain name and what a chain has behind it are cut at the arrows, and are skipped where arrows do not count. -/
theorem Skips.marks {first : List Char} {links : List (Token × List Char)} (plain : Text.IsPlain first)
    (skips : Skips links) :
    (Pieces.marks first links).Settled Token.isArrow ∧
      Pieces.Skipped (·.kind == .post) (Pieces.marks first links).tokens := by
  have name (isSeparator : Token → Bool) : Pieces.Skipped isSeparator (Text.signs first) := by
    rw [plain.signs]
    exact Pieces.skipped_nil
  refine ⟨Pieces.settled_of_skipped (name _) ?_, Pieces.skipped_tokens (name _) ?_⟩
  · refine List.forall_mem_map.mpr ?_
    rintro ⟨t, cs⟩ member
    obtain ⟨⟨a, rfl⟩, skipped⟩ := skips _ member
    exact ⟨by simp, by simp, rfl, skipped _⟩
  · refine List.forall_mem_map.mpr ?_
    rintro ⟨t, cs⟩ member
    obtain ⟨⟨a, rfl⟩, skipped⟩ := skips _ member
    exact ⟨by simp, by simp, rfl, skipped _⟩

/-- Texts without other signs than arrows make a group, which is skipped. -/
theorem isGroup_of_arrows {texts : List (List Char)} (nonempty : texts ≠ [])
    (arrows : ∀ cs ∈ texts, ∀ t ∈ Text.signs cs, t.isArrow = true) :
    IsGroup texts ∧ ∀ isSeparator, Pieces.Skipped isSeparator (Text.signs (groupOf texts)) := by
  cases texts with
  | nil => exact absurd rfl nonempty
  | cons first texts =>
    obtain ⟨atFirst, atRest⟩ := List.forall_mem_cons.mp arrows
    have inert {cs : List Char} (only : ∀ t ∈ Text.signs cs, t.isArrow = true) :
        ∀ t ∈ Text.signs cs, t ≠ .opening ∧ t ≠ .closing ∧ (t.kind == .ampersand) = false := by
      intro t member
      have isArrow := only t member
      cases t with
      | arrow a => exact ⟨by simp, by simp, rfl⟩
      | post | opening | closing | ampersand | text => cases isArrow
    have settled : (marks first (linksBy .ampersand texts)).Settled (·.kind == .ampersand) := by
      refine Pieces.settled_of_skipped (Pieces.skipped_of_inert (inert atFirst)) ?_
      refine List.forall_mem_map.mpr (List.forall_mem_map.mpr fun cs member => ?_)
      exact ⟨by simp, by simp, rfl, Pieces.skipped_of_inert (inert (atRest cs member))⟩
    have noParen : ∀ t ∈ (marks first (linksBy .ampersand texts)).tokens, t ≠ .opening ∧ t ≠ .closing := by
      refine List.forall_mem_append.mpr
        ⟨fun t member => ⟨(inert atFirst t member).1, (inert atFirst t member).2.1⟩, ?_⟩
      refine List.forall_mem_flatMap.mpr (List.forall_mem_map.mpr (List.forall_mem_map.mpr fun cs member => ?_))
      refine List.forall_mem_cons.mpr ⟨⟨by simp, by simp⟩, fun t within => ?_⟩
      exact ⟨(inert (atRest cs member) t within).1, (inert (atRest cs member) t within).2.1⟩
    refine ⟨⟨settled, Token.isBalanced_iff.mpr (Token.counts_of_noParen noParen)⟩, fun isSeparator => ?_⟩
    rw [groupOf, signs_group, writeBranches_cons, settled.signs_spaced fun _ => rfl]
    exact Pieces.skipped_group noParen

theorem Leg.legible_of_plain {l : Leg} (plain : ∀ t ∈ l.texts, Text.IsPlain t.toList) : l.Legible where
  step := Step.legible_of_plain (plain _ (by simp [Leg.texts]))
  target := (plain _ (by simp [Leg.texts])).isName

theorem Leg.signs_links {l : Leg} (plain : ∀ t ∈ l.texts, Text.IsPlain t.toList) :
    ∀ link ∈ l.links, (∃ a, link.1 = .arrow a) ∧ Text.signs link.2 = [] := by
  have protocol := plain l.step.protocol (by simp [Leg.texts])
  have target := plain l.target (by simp [Leg.texts])
  exact List.forall_mem_cons.mpr ⟨⟨⟨_, rfl⟩, Step.signs_of_plain protocol⟩,
    List.forall_mem_singleton.mpr ⟨⟨_, rfl⟩, target.signs⟩⟩

theorem Leg.skips_links {l : Leg} (plain : ∀ t ∈ l.texts, Text.IsPlain t.toList) : Skips l.links := by
  intro link member
  obtain ⟨isArrow, none⟩ := Leg.signs_links plain link member
  refine ⟨isArrow, fun isSeparator => ?_⟩
  rw [none]
  exact Pieces.skipped_nil

section Branches

variable {b : Branch}

theorem Branch.plain_onward (plain : ∀ t ∈ b.texts, Text.IsPlain t.toList) :
    ∀ l ∈ b.onward, ∀ t ∈ l.texts, Text.IsPlain t.toList := fun l member t within =>
  plain t (List.mem_cons_of_mem _ (List.mem_cons_of_mem _ (List.mem_flatMap.mpr ⟨l, member, within⟩)))

theorem Branch.legible_of_plain (plain : ∀ t ∈ b.texts, Text.IsPlain t.toList) : b.Legible := by
  have protocol := plain b.step.protocol (by simp [Branch.texts])
  have target := plain b.target (by simp [Branch.texts])
  have onward := Branch.plain_onward plain
  have skips : Skips (b.onward.flatMap Leg.links) :=
    List.forall_mem_flatMap.mpr fun l member => Leg.skips_links (onward l member)
  exact ⟨Step.legible_of_plain protocol, Step.unbroken_of_plain protocol, target.isName,
    fun l member => Leg.legible_of_plain (onward l member), (skips.marks target).1⟩

/-- A branch has no signs but its arrows. -/
theorem Branch.arrows_write (plain : ∀ t ∈ b.texts, Text.IsPlain t.toList) (a : Arrow) :
    ∀ t ∈ Text.signs (b.write a), t.isArrow = true := by
  have legible := Branch.legible_of_plain plain
  have protocol := plain b.step.protocol (by simp [Branch.texts])
  have target := plain b.target (by simp [Branch.texts])
  rw [b.signs_write, Step.signs_of_plain protocol, legible.settled.signs_spaced fun _ => rfl, Pieces.tokens, marks]
  dsimp only
  rw [target.signs, List.nil_append, List.nil_append]
  refine List.forall_mem_cons.mpr ⟨rfl, List.forall_mem_flatMap.mpr (List.forall_mem_map.mpr ?_)⟩
  refine List.forall_mem_flatMap.mpr fun l member => ?_
  rintro ⟨t, cs⟩ within
  obtain ⟨⟨a, rfl⟩, none⟩ := Leg.signs_links (Branch.plain_onward plain l member) _ within
  dsimp only at none ⊢
  rw [none]
  exact List.forall_mem_singleton.mpr rfl

end Branches

/-- A hop between plain names is legible, and a chain skips what its arrows lead to. -/
theorem Hop.legible_of_plain {h : Hop} (wellFormed : h.WellFormed) (plain : ∀ t ∈ h.texts, Text.IsPlain t.toList) :
    h.Legible ∧ Skips h.links := by
  have name {t : String} (member : t ∈ h.texts) (isSeparator : Token → Bool) :
      Pieces.Skipped isSeparator (Text.signs t.toList) := by
    rw [(plain t member).signs]
    exact Pieces.skipped_nil
  cases h with
  | single leg => exact ⟨Leg.legible_of_plain plain, Leg.skips_links plain⟩
  | fanIn a steps target =>
    have protocol : ∀ s ∈ steps, Text.IsPlain s.protocol.toList := fun s member =>
      plain _ (List.mem_append_left _ (List.mem_map_of_mem member))
    have atTarget : target ∈ Hop.texts (.fanIn a steps target) :=
      List.mem_append_right _ (List.mem_singleton_self _)
    obtain ⟨isGroup, skipped⟩ := @isGroup_of_arrows (steps.map Step.write)
      (fun none => wellFormed (List.map_eq_nil_iff.mp none))
      (List.forall_mem_map.mpr fun s member => by rw [Step.signs_of_plain (protocol s member)]; simp)
    refine ⟨⟨isGroup, fun s member => ⟨Step.legible_of_plain (protocol s member), ?_⟩,
      (plain _ atTarget).isName⟩, ?_⟩
    · rw [Text.hasArrow_eq_signs, Step.signs_of_plain (protocol s member)]
      rfl
    · exact List.forall_mem_cons.mpr ⟨⟨⟨a, rfl⟩, skipped⟩, List.forall_mem_singleton.mpr ⟨⟨a, rfl⟩, name atTarget⟩⟩
  | fanOut a branches =>
    have each : ∀ b ∈ branches, ∀ t ∈ b.texts, Text.IsPlain t.toList := fun b member t within =>
      plain t (List.mem_flatMap.mpr ⟨b, member, within⟩)
    obtain ⟨isGroup, skipped⟩ := @isGroup_of_arrows (branches.map (Branch.write a))
      (fun none => wellFormed.1 (List.map_eq_nil_iff.mp none))
      (List.forall_mem_map.mpr fun b member => Branch.arrows_write (each b member) a)
    refine ⟨⟨isGroup, fun b member => Branch.legible_of_plain (each b member), wellFormed.2⟩, ?_⟩
    exact List.forall_mem_singleton.mpr ⟨⟨a, rfl⟩, skipped⟩

/-- A plain chain is legible, and is skipped where a line is cut at its marks. -/
theorem Chain.legible_of_plain {c : Chain} (wellFormed : c.WellFormed) (entity : Text.IsPlain c.entity.toList)
    (plain : ∀ h ∈ c.hops, ∀ t ∈ h.texts, Text.IsPlain t.toList) :
    c.Legible ∧ Pieces.Skipped (·.kind == .post) (Text.signs c.write) := by
  have each : ∀ h ∈ c.hops, h.Legible ∧ Skips h.links := fun h member =>
    Hop.legible_of_plain (wellFormed.2 h member) (plain h member)
  have skips : Skips (c.hops.flatMap Hop.links) := List.forall_mem_flatMap.mpr fun h member => (each h member).2
  obtain ⟨settled, skipped⟩ := skips.marks entity
  refine ⟨⟨entity.isName, wellFormed.1, fun h member => (each h member).1, settled⟩, ?_⟩
  rwa [c.write_eq, settled.signs_spaced fun _ => rfl]

theorem Pattern.legible_of_plain {p : Pattern} (wellFormed : p.WellFormed) (plain : p.Plain) : p.Legible := by
  have each : ∀ c ∈ p.chains, c.Legible ∧ Pieces.Skipped (·.kind == .post) (Text.signs c.write) := fun c member =>
    Chain.legible_of_plain (wellFormed c member) (plain c member).1 (plain c member).2
  refine ⟨fun c member => (each c member).1, Pieces.settled_of_skipped (each _ List.mem_cons_self).2 ?_⟩
  refine List.forall_mem_map.mpr (List.forall_mem_map.mpr (List.forall_mem_map.mpr fun c member => ?_))
  exact ⟨by simp, by simp, rfl, (each c (List.mem_cons_of_mem _ member)).2⟩

end Legible

/-- A pattern of plain names is read from its text with exactly the segments that it stands for. -/
theorem tokenize_write {p : Pattern} (wellFormed : p.WellFormed) (plain : p.Plain) :
    tokenize (String.ofList p.write) = .ok p.listing := by
  rw [tokenize, String.toList_ofList, Pattern.read_write (Pattern.legible_of_plain wellFormed plain),
    Pattern.listing_eq wellFormed]
  rfl

/-- A pattern with both kinds of groups, a continuation, a post-processing chain, and arrow heads in its names. -/
def Pattern.sample : Pattern where
  main := {
    entity := "a-b"
    hops := [
      .fanIn .forward [⟨"<X>", .push⟩, ⟨"Y z", .pull⟩] "B",
      .fanOut .reverse [
        { step := ⟨"P", .push⟩, target := "C", onward := [⟨.forward, ⟨"Q", .pull⟩, "D"⟩] },
        { step := ⟨"R", .pull⟩, target := "E", onward := [] }],
      .single ⟨.forward, ⟨"S", .push⟩, "F >"⟩] }
  post := [{ entity := "F", hops := [.single ⟨.reverse, ⟨"T", .pull⟩, "G"⟩] }]

example : String.ofList Pattern.sample.write =
    "a-b -> (<X> PUSH & Y z PULL) -> B <- (P PUSH <- C -> Q PULL -> D & R PULL <- E) -> S PUSH -> F >" ++
      " >> F <- T PULL <- G" := by
  cbv

theorem tokenize_write_sample :
    Pattern.sample.WellFormed ∧ Pattern.sample.Plain ∧
      tokenize (String.ofList Pattern.sample.write) = .ok Pattern.sample.listing := by
  have wellFormed : Pattern.sample.WellFormed := by decide
  have plain : Pattern.sample.Plain := by decide
  exact ⟨wellFormed, plain, tokenize_write wellFormed plain⟩

end TransferFlow
