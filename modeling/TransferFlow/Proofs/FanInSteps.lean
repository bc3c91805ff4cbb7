import TransferFlow.Proofs.Continuations
import TransferFlow.Proofs.HopLoop
import TransferFlow.Proofs.Regrouping

namespace TransferFlow

open Text (spaced trim isBlankText)
open Pieces (linksBy marks)

/-- A text that stays one branch in a group of steps: its parentheses are matched, no ampersand stands outside its
own groups, and no arrow in it makes the group a fan-out. -/
structure Text.IsBranch (cs : List Char) : Prop where
  balanced : Text.Balanced cs
  noArrow : Token.hasArrow cs = false
  whole : (Pieces.cut (·.kind == .ampersand) cs).rest = []

instance (cs : List Char) : Decidable (Text.IsBranch cs) :=
  decidable_of_iff
    (Token.isBalanced (Token.lex cs) = true ∧ Token.hasArrow cs = false ∧
      (Pieces.cut (·.kind == .ampersand) cs).rest = [])
    ⟨fun all => ⟨all.1, all.2.1, all.2.2⟩, fun branch => ⟨branch.balanced, branch.noArrow, branch.whole⟩⟩

namespace Pieces

variable {isSeparator : Token → Bool}

/-- A balanced text that a cut leaves whole is skipped beside other texts too. -/
theorem skipped_signs (noText : ∀ cs, isSeparator (.text cs) = false) {cs : List Char} (balanced : Text.Balanced cs)
    (whole : (cut isSeparator cs).rest = []) : Skipped isSeparator (Text.signs cs) := by
  obtain ⟨closes, noMore⟩ := Token.isBalanced_iff.mp (Text.balanced_iff_signs.mp balanced)
  have cuts : (cut isSeparator cs).signs = cutAt isSeparator 0 (PlacedToken.all (Text.signs cs)) :=
    signs_cutAt noText 0 (Token.lex cs)
  have tokens := tokens_cutAt isSeparator 0 (PlacedToken.all (Text.signs cs))
  have itself : (cutAt isSeparator 0 (PlacedToken.all (Text.signs cs))).first = Text.signs cs := by
    rw [PlacedToken.map_token_all, Pieces.tokens, ← cuts, Pieces.signs, whole, List.map_nil, List.flatMap_nil,
      List.append_nil] at tokens
    rwa [← cuts]
  have skipped := (@skipped_cutAt isSeparator _ _ closes noMore).1
  rwa [itself] at skipped

theorem skipped_balanced_group {us : List Token} (balanced : Token.isBalanced us = true) :
    Skipped isSeparator (Token.group us) := by
  obtain ⟨opened, closed⟩ := Token.isBalanced_iff.mp balanced
  exact fun vs => cutAt_group opened closed 0 vs

end Pieces

section Groups

variable {steps : List (List Char)}

theorem balanced_writeBranches (each : ∀ cs ∈ steps, Text.Balanced cs) : Text.Balanced (writeBranches steps) := by
  fun_induction writeBranches steps with
  | case1 => rfl
  | case2 cs => exact each cs List.mem_cons_self
  | case3 cs rest _ ih =>
    obtain ⟨atHead, atTail⟩ := List.forall_mem_cons.mp each
    have between : Text.Balanced [' ', '&', ' '] := rfl
    exact (atHead.append between).append (ih atTail)

/-- Nothing in a group is cut by a cut around it. -/
theorem skipped_groupOf (each : ∀ cs ∈ steps, Text.Balanced cs) (isSeparator : Token → Bool) :
    Pieces.Skipped isSeparator (Text.signs (groupOf steps)) := by
  have balanced := Text.balanced_iff_signs.mp (balanced_writeBranches each)
  rw [groupOf, signs_group]
  exact Pieces.skipped_balanced_group balanced

/-- Branches are cut apart again at the ampersands between them, blank ones too. -/
theorem branchesOf_writeBranches (nonempty : steps ≠ []) (each : ∀ cs ∈ steps, Text.IsBranch cs) :
    branchesOf (writeBranches steps) = steps.map trim := by
  cases steps with
  | nil => exact absurd rfl nonempty
  | cons first steps =>
    have skipped {cs : List Char} (branch : Text.IsBranch cs) :
        Pieces.Skipped (·.kind == .ampersand) (Text.signs cs) :=
      Pieces.skipped_signs (fun _ => rfl) branch.balanced branch.whole
    obtain ⟨atFirst, atRest⟩ := List.forall_mem_cons.mp each
    have settled : (marks first (linksBy .ampersand steps)).Settled (·.kind == .ampersand) := by
      refine Pieces.settled_of_skipped (skipped atFirst) ?_
      refine List.forall_mem_map.mpr (List.forall_mem_map.mpr fun cs member => ?_)
      exact ⟨by simp, by simp, rfl, skipped (atRest cs member)⟩
    rw [branchesOf, writeBranches_cons, Pieces.cut_spaced (fun _ => rfl) settled,
      Pieces.trim_parts_ofSpaced, linksBy,
      List.map_map, List.map_cons]
    rfl

/-- Only a lone blank branch leaves a group blank. -/
theorem isBlankText_writeBranches (nonempty : steps ≠ []) (blank : isBlankText (writeBranches steps) = true) :
    ∃ cs, steps = [cs] ∧ isBlankText cs = true := by
  fun_cases writeBranches steps with
  | case1 => exact absurd rfl nonempty
  | case2 cs => exact ⟨cs, rfl, blank⟩
  | case3 cs rest more =>
    rw [writeBranches, Text.isBlankText_append, Text.isBlankText_append] at blank
    · have sign : isBlankText [' ', '&', ' '] = false := rfl
      rw [sign, Bool.and_false, Bool.false_and] at blank
      cases blank
    · exact more

/-- A group of steps is a fan-in of the trimmed steps, unless nothing but blanks stands in it. -/
theorem stage_groupOf (nonempty : steps ≠ []) (each : ∀ cs ∈ steps, Text.IsBranch cs) :
    Stage.ofChars (groupOf steps) =
      if isBlankText (writeBranches steps) then .single (groupOf steps) else .fanIn (steps.map trim) := by
  have group := groupInside?_group (balanced_writeBranches fun cs member => (each cs member).balanced)
  rw [← groupOf] at group
  cases blank : isBlankText (writeBranches steps) with
  | true =>
    rw [blank] at group
    exact Stage.ofChars_eq_single.mpr ⟨rfl, group⟩
  | false =>
    rw [blank] at group
    refine Stage.ofChars_eq_fanIn.mpr ⟨_, group, ?_, ?_⟩
    · rw [branchesOf_trim, branchesOf_writeBranches nonempty each]
    · rw [List.any_eq_false]
      refine List.forall_mem_map.mpr fun cs member => ?_
      rw [Token.hasArrow_trim, (each cs member).noArrow]
      exact Bool.false_ne_true

end Groups

namespace Step

/-- A step ends in a letter or a blank, and a group does not. -/
theorem read?_of_closing (cs : List Char) : Step.read? (cs ++ [')']) = none := by
  cases found : Step.read? (cs ++ [')']) with
  | none => rfl
  | some step =>
    obtain ⟨⟨before, d⟩, search, _⟩ := Option.map_eq_some_iff.mp found
    obtain ⟨rest, whole, _, reads⟩ := shortestPrefix_spec search
    have plain := isPlain_of_finalDirection? reads
    rcases List.eq_nil_or_concat rest with rfl | ⟨init, last, rfl⟩
    · cases reads
    · rw [List.concat_eq_append, ← List.append_assoc] at whole
      obtain ⟨_, atEnd⟩ := List.append_inj' whole rfl
      have letter := plain last (by simp)
      rw [← List.singleton_inj.mp atEnd] at letter
      cases letter

theorem read?_of_groupInside? {cs inside : List Char} (group : groupInside? cs = some inside) :
    Step.read? cs = none := by
  obtain ⟨body, rfl, _⟩ := groupInside?_eq_some.mp group
  exact read?_of_closing ('(' :: body)

theorem kind_of_read {wording : StepWording} {cs : List Char} {e : SyntaxError}
    (failed : Step.read wording cs = .error e) : e.kind = .invalidProtocolDirection := by
  unfold Step.read at failed
  split at failed
  · cases failed
  · cases failed
    rfl

end Step

theorem exists_forall₂ {α β : Type} {R : α → β → Prop} {xs : List α} (each : ∀ x ∈ xs, ∃ y, R x y) :
    ∃ ys, List.Forall₂ R xs ys := by
  induction xs with
  | nil => exact ⟨[], .nil⟩
  | cons x xs ih =>
    obtain ⟨⟨y, atHead⟩, atTail⟩ := List.forall_mem_cons.mp each
    obtain ⟨ys, later⟩ := ih atTail
    exact ⟨y :: ys, .cons atHead later⟩

section Lines

/-- The line from one entity to another over whatever stands between the arrows. -/
def hopText (source : String) (a : Arrow) (stage target : String) : String :=
  source ++ " " ++ a.text ++ " " ++ stage ++ " " ++ a.text ++ " " ++ target

/-- Steps as one group. -/
def groupText (steps : List String) : String :=
  "(" ++ " & ".intercalate steps ++ ")"

theorem intercalate_eq_writeBranches (steps : List (List Char)) :
    [' ', '&', ' '].intercalate steps = writeBranches steps := by
  fun_induction writeBranches steps with
  | case1 => rfl
  | case2 cs => exact List.intercalate_singleton
  | case3 cs rest more ih =>
    obtain ⟨next, later, rfl⟩ := List.exists_cons_of_ne_nil more
    rw [List.intercalate_cons_cons, ih]

theorem toList_groupText (steps : List String) : (groupText steps).toList = groupOf (steps.map String.toList) := by
  rw [groupText, String.toList_append, String.toList_append, String.toList_intercalate, groupOf,
    ← intercalate_eq_writeBranches]
  rfl

theorem toList_hopText (source : String) (a : Arrow) (stage target : String) :
    (hopText source a stage target).toList =
      spaced source.toList [(.arrow a, stage.toList), (.arrow a, target.toList)] := by
  simp [hopText, spaced, toList_text, Token.chars]

variable {source target : String} {a : Arrow} {stage : String}

theorem ofTexts_label {cs : List Char} (label : Text.IsLabel cs) (texts : List (List Char)) :
    Part.ofTexts (cs :: texts) = .text cs :: Part.ofTexts texts := by
  have solid : isBlankText cs = false := Text.solid_iff.mpr (by rw [label.trimmed.trim_eq]; exact label.nonempty)
  have noArrow : Token.hasArrow cs = false := by rw [Text.hasArrow_eq_signs, Text.signs_of_plain label.plain]; rfl
  rw [Part.ofTexts_cons, solid, label.trimmed.trim_eq, Part.ofChars_of_noArrow noArrow]
  rfl

/-- What stands between the arrows is one part of the line, or none if it is blank. -/
theorem split_hopText (label : Text.IsLabel source.toList) (label' : Text.IsLabel target.toList) (a : Arrow)
    (skipped : Pieces.Skipped Token.isArrow (Text.signs stage.toList)) :
    Part.split (hopText source a stage target).toList =
      .text source.toList :: .arrow a :: if isBlankText stage.toList then [.arrow a, .text target.toList]
        else [Part.ofChars (trim stage.toList), .arrow a, .text target.toList] := by
  have name {cs : List Char} (label : Text.IsLabel cs) : Pieces.Skipped Token.isArrow (Text.signs cs) := by
    rw [Text.signs_of_plain label.plain]
    exact Pieces.skipped_nil
  have settled :
      (marks source.toList [(.arrow a, stage.toList), (.arrow a, target.toList)]).Settled Token.isArrow := by
    refine Pieces.settled_of_skipped (name label) (List.forall_mem_map.mpr ?_)
    exact List.forall_mem_cons.mpr ⟨⟨by simp, by simp, rfl, skipped⟩,
      List.forall_mem_singleton.mpr ⟨by simp, by simp, rfl, name label'⟩⟩
  rw [toList_hopText, Part.split_spaced_eq settled, ofTexts_label label]
  simp only [List.flatMap_cons, List.flatMap_nil, List.cons_append, List.nil_append, Token.chars]
  rw [Part.ofTexts_arrow, Part.ofTexts_cons, Part.ofTexts_arrow, ofTexts_label label']
  split <;> rfl

/-- A line of one hop is read as its stage tells. -/
theorem tokenizeChain_of_parts {text : String} {cs : List Char}
    (parts : Part.split text.toList = [.text source.toList, .arrow a, .text cs, .arrow a, .text target.toList]) :
    tokenizeChain text =
        (Hop.readAll Chain.read [.arrow a, .text cs, .arrow a, .text target.toList]).map fun hops =>
      .entity (.plain source) :: hops.flatMap Hop.segments := by
  have accepted :
      Chain.refusal? [.text source.toList, .arrow a, .text cs, .arrow a, .text target.toList] = none := rfl
  rw [tokenizeChain, Chain.read_eq_readWith, Chain.readWith, parts, accepted]
  dsimp only
  rw [String.ofList_toList]
  cases Hop.readAll Chain.read [.arrow a, .text cs, .arrow a, .text target.toList] <;> rfl

theorem behindTarget_alone {chain : List Char → Except SyntaxError Chain} (p q : Part) :
    Hop.readAll.behindTarget chain [p, q] = .ok [] := by
  rw [Hop.readAll.behindTarget, Hop.readAll]

theorem readAll_single {chain : List Char → Except SyntaxError Chain} {cs text : List Char}
    (single : Stage.ofChars cs = .single text) :
    Hop.readAll chain [.arrow a, .text cs, .arrow a, .text target.toList] =
      (Step.read .single text).map fun step => [.single { arrow := a, step, target }] := by
  have closed : Part.closing a missingArrowAfterStep [.arrow a, .text target.toList] = .ok target :=
    Part.closing_eq_ok.mpr ⟨_, _, rfl, String.ofList_toList.symm⟩
  rw [Hop.readAll, Part.chars, single]
  dsimp only
  rw [closed, behindTarget_alone]
  cases Step.read .single text <;> rfl

theorem readAll_fanIn {chain : List Char → Except SyntaxError Chain} {cs : List Char} {texts : List (List Char)}
    (fanIn : Stage.ofChars cs = .fanIn texts) :
    Hop.readAll chain [.arrow a, .text cs, .arrow a, .text target.toList] =
      (texts.mapM (Step.read .grouped)).map fun steps => [.fanIn a steps target] := by
  have closed : Part.closing a missingArrowAfterGroup [.arrow a, .text target.toList] = .ok target :=
    Part.closing_eq_ok.mpr ⟨_, _, rfl, String.ofList_toList.symm⟩
  rw [Hop.readAll, Part.chars, fanIn]
  dsimp only
  rw [closed, behindTarget_alone]
  cases texts.mapM (Step.read .grouped) <;> rfl

/-- The segments of a line with this step alone between its labels. -/
def aloneSegments (source : String) (a : Arrow) (target : String) (s : Step) : List Segment :=
  [.entity (.plain source), .connection (s.connection a target .none none), .entity (.plain target)]

theorem groupInside?_of_label {cs : List Char} (label : Text.IsLabel cs) : groupInside? cs = none := by
  cases group : groupInside? cs with
  | none => rfl
  | some inside =>
    obtain ⟨body, rfl, _⟩ := groupInside?_eq_some.mp group
    cases label.plain '(' List.mem_cons_self

/-- The connections of a group of steps, numbered from one. -/
theorem connections_fanIn (a : Arrow) (steps : List Step) (target : String) :
    (Hop.fanIn a steps target).segments.filterMap Segment.connection? =
      (steps.zipIdx 1).map fun (s, i) => s.connection a target .input (some (i : Int)) := by
  have each :
      (Segment.connection? ∘ fun (s, i) => Segment.connection (s.connection a target .input (some (i : Int)))) =
        some ∘ fun ((s, i) : Step × Nat) => s.connection a target .input (some (i : Int)) := rfl
  rw [Hop.segments, List.filterMap_append, List.filterMap_map, each, List.filterMap_eq_map]
  exact List.append_nil _

/-- A step is read alone, outside all groups, just when it is one. -/
theorem tokenizeChain_alone (label : Text.IsLabel source.toList) (label' : Text.IsLabel target.toList) (a : Arrow)
    (branch : Text.IsBranch stage.toList) {segs : List Segment} :
    (tokenizeChain (hopText source a stage target) = .ok segs ∧ ∃ c, .connection c ∈ segs ∧ c.branch = .none) ↔
      ∃ step, Step.read? (trim stage.toList) = some step ∧ segs = aloneSegments source a target step := by
  have noCut : ∀ t ∈ Token.lex stage.toList, t.isArrow = false := by
    have noArrow := branch.noArrow
    rw [Token.hasArrow, List.any_eq_false] at noArrow
    simpa using noArrow
  have skipped := Pieces.skipped_signs (fun _ => rfl) branch.balanced (Pieces.rest_cut_of_none noCut)
  have parts := split_hopText label label' a skipped
  have isText : Part.ofChars (trim stage.toList) = .text (trim stage.toList) :=
    Part.ofChars_of_noArrow (by rw [Token.hasArrow_trim, branch.noArrow])
  rw [isText] at parts
  constructor
  · rintro ⟨run, c, member, outside⟩
    obtain ⟨⟨_, hops⟩, read, rfl⟩ := map_eq_ok.mp run
    obtain ⟨entity, rest, parts', _, found, rfl⟩ := Chain.read_eq_ok.mp read
    rw [parts'] at parts
    obtain ⟨sameEntity, rfl⟩ := List.cons_eq_cons.mp parts
    cases sameEntity
    split at found
    · cases found
    · rename_i solid
      cases found with
      | single single atStep later =>
        cases later
        obtain ⟨rfl, _⟩ := Stage.ofChars_eq_single.mp single
        refine ⟨_, atStep, ?_⟩
        simp only [Chain.segments, String.ofList_toList]
        rfl
      | fanIn _ _ later =>
        cases later
        have inGroup : c ∈
            (Chain.segments { entity := String.ofList source.toList, hops := [.fanIn a _ _] }).filterMap
              Segment.connection? := List.mem_filterMap.mpr ⟨_, member, rfl⟩
        rw [Chain.segments, List.flatMap_cons, List.flatMap_nil, List.append_nil, List.filterMap_cons,
          Segment.connection?, connections_fanIn] at inGroup
        obtain ⟨_, _, rfl⟩ := List.mem_map.mp inGroup
        cases outside
      | fanOut _ _ _ later =>
        cases later with
        | fanOut fanOut =>
          obtain ⟨_, group, _⟩ := Stage.ofChars_eq_fanOut.mp fanOut
          rw [groupInside?_of_label label'] at group
          cases group
  · rintro ⟨step, atStep, rfl⟩
    have solid : isBlankText stage.toList = false := by
      cases blank : isBlankText stage.toList with
      | false => rfl
      | true => rw [Text.trim_eq_nil.mpr blank] at atStep; cases atStep
    have single : Stage.ofChars (trim stage.toList) = .single (trim stage.toList) := by
      refine Stage.ofChars_eq_single.mpr ⟨rfl, ?_⟩
      cases group : groupInside? (trim stage.toList) with
      | none => rfl
      | some inside => rw [Step.read?_of_groupInside? group] at atStep; cases atStep
    rw [solid] at parts
    refine ⟨?_, step.connection a target .none none, by simp [aloneSegments], rfl⟩
    rw [tokenizeChain_of_parts parts, readAll_single single, Step.read_eq_ok.mpr atStep]
    rfl

/-- A group is read as its steps, or refused for one of them. -/
theorem tokenizeChain_group (label : Text.IsLabel source.toList) (label' : Text.IsLabel target.toList) (a : Arrow)
    {steps : List String} (nonempty : steps ≠ []) (each : ∀ s ∈ steps, Text.IsBranch s.toList) :
    (∀ segs, tokenizeChain (hopText source a (groupText steps) target) = .ok segs ↔
      ∃ found, List.Forall₂ (fun s step => Step.read? (trim s.toList) = some step) steps found ∧
        segs = .entity (.plain source) :: (Hop.fanIn a found target).segments) ∧
      ∀ e, tokenizeChain (hopText source a (groupText steps) target) = .error e →
        e.kind = .invalidProtocolDirection := by
  have nonempty' : steps.map String.toList ≠ [] := by simpa using nonempty
  have each' : ∀ cs ∈ steps.map String.toList, Text.IsBranch cs := List.forall_mem_map.mpr each
  have skipped := skipped_groupOf (fun cs member => (each' cs member).balanced) Token.isArrow
  have isText := isText_groupOf (steps.map String.toList)
  have solid : isBlankText (groupText steps).toList = false := by
    rw [toList_groupText]
    exact Text.solid_iff.mpr (by rw [isText.trimmed.trim_eq]; exact isText.nonempty)
  rw [← toList_groupText] at skipped
  have parts := split_hopText label label' a skipped
  rw [solid, toList_groupText, isText.trimmed.trim_eq, isText.noArrow] at parts
  have stage := stage_groupOf nonempty' each'
  rw [tokenizeChain_of_parts parts]
  split at stage
  · rename_i blank
    obtain ⟨cs, alone, blank'⟩ := isBlankText_writeBranches nonempty' blank
    have noStep : Step.read? (groupOf (steps.map String.toList)) = none := Step.read?_of_closing ('(' :: _)
    rw [readAll_single stage, Step.read, noStep]
    refine ⟨fun segs => ⟨fun run => ?_, ?_⟩, fun e failed => ?_⟩
    · cases run
    · rintro ⟨found, all, _⟩
      obtain ⟨s, rfl, rfl⟩ := List.map_eq_singleton_iff.mp alone
      obtain ⟨step, _, atStep, _⟩ := List.forall₂_cons_left_iff.mp all
      rw [Text.trim_eq_nil.mpr blank'] at atStep
      cases atStep
    · cases failed
      rfl
  · rw [readAll_fanIn stage, List.map_map]
    refine ⟨fun segs => ?_, fun e failed => ?_⟩
    · rw [map_eq_ok]
      constructor
      · rintro ⟨hops, run, rfl⟩
        obtain ⟨found, readSteps, rfl⟩ := map_eq_ok.mp run
        refine ⟨found, ?_, by simp⟩
        have all := List.forall₂_map_left_iff.mp (mapM_eq_ok.mp readSteps)
        exact all.imp fun _ _ => Step.read_eq_ok.mp
      · rintro ⟨found, all, rfl⟩
        refine ⟨_, map_eq_ok.mpr ⟨found, mapM_eq_ok.mpr ?_, rfl⟩, by simp⟩
        exact List.forall₂_map_left_iff.mpr (all.imp fun _ _ => Step.read_eq_ok.mpr)
    · obtain ⟨cs, _, failed⟩ := mapM_eq_error (map_eq_error.mp (map_eq_error.mp failed))
      exact Step.kind_of_read failed

/-- The connection of a step in a group is that of the step alone, but for its place in the group. -/
theorem connections_of_steps {steps : List String} {found : List Step}
    (alone : List.Forall₂ (fun s step => tokenizeChain (hopText source a s target) =
      .ok (aloneSegments source a target step)) steps found) (n : Nat) :
    List.Forall₂ (fun place c => c.branch = .input ∧ c.step = some (place.2 : Int) ∧ c.target = target ∧
        tokenizeChain (hopText source a place.1 target) = .ok [.entity (.plain source),
          .connection { c with branch := .none, step := none }, .entity (.plain target)])
      (steps.zipIdx n) ((found.zipIdx n).map fun (s, i) => s.connection a target .input (some (i : Int))) := by
  induction alone generalizing n with
  | nil => exact .nil
  | cons atHead _ ih => exact .cons ⟨rfl, rfl, rfl, atHead⟩ (ih (n + 1))

/-- A group of steps between two labels is read just when each step is read there alone, outside all groups. Its
connections are then those of the steps alone, numbered from one; otherwise a step is refused. -/
theorem tokenizeChain_fanIn {source target : String} (label : Text.IsLabel source.toList)
    (label' : Text.IsLabel target.toList) (a : Arrow) {steps : List String} (nonempty : steps ≠ [])
    (each : ∀ s ∈ steps, Text.IsBranch s.toList) :
    ((∃ segs, tokenizeChain (hopText source a (groupText steps) target) = .ok segs) ↔
      ∀ s ∈ steps, ∃ segs, tokenizeChain (hopText source a s target) = .ok segs ∧
        ∃ c, .connection c ∈ segs ∧ c.branch = .none) ∧
    (∀ segs, tokenizeChain (hopText source a (groupText steps) target) = .ok segs →
      List.Forall₂ (fun place c => c.branch = .input ∧ c.step = some (place.2 : Int) ∧ c.target = target ∧
          tokenizeChain (hopText source a place.1 target) = .ok [.entity (.plain source),
            .connection { c with branch := .none, step := none }, .entity (.plain target)])
        (steps.zipIdx 1) (segs.filterMap Segment.connection?)) ∧
    ∀ e, tokenizeChain (hopText source a (groupText steps) target) = .error e →
      e.kind = .invalidProtocolDirection := by
  obtain ⟨group, refused⟩ := tokenizeChain_group label label' a nonempty each
  refine ⟨⟨?_, ?_⟩, ?_, refused⟩
  · rintro ⟨segs, run⟩ s member
    obtain ⟨found, all, _⟩ := (group segs).mp run
    obtain ⟨step, _, atStep⟩ := forall₂_mem_left all member
    exact ⟨_, (tokenizeChain_alone label label' a (each s member)).mpr ⟨step, atStep, rfl⟩⟩
  · intro alone
    have reads : ∀ s ∈ steps, ∃ step, Step.read? (trim s.toList) = some step := by
      intro s member
      obtain ⟨segs, run⟩ := alone s member
      obtain ⟨step, atStep, _⟩ := (tokenizeChain_alone label label' a (each s member)).mp run
      exact ⟨step, atStep⟩
    obtain ⟨found, all⟩ := exists_forall₂ reads
    exact ⟨_, (group _).mpr ⟨found, all, rfl⟩⟩
  · intro segs run
    obtain ⟨found, all, rfl⟩ := (group segs).mp run
    rw [List.filterMap_cons, Segment.connection?, connections_fanIn]
    have alone := ((List.forall₂_and_left steps found).mpr ⟨each, all⟩).imp fun _ step both =>
      ((tokenizeChain_alone label label' a both.1).mpr ⟨step, both.2, rfl⟩).1
    exact connections_of_steps alone 1

/-- A step that holds a group of its own is read in a group as it is alone. -/
theorem tokenizeChain_fanIn_nested :
    Text.IsLabel "A".toList ∧ Text.IsLabel "B".toList ∧
      (∀ s ∈ ["FTP (x & y) PUSH", "SFTP pull"], Text.IsBranch s.toList) ∧
      ∃ segs, tokenizeChain "A -> (FTP (x & y) PUSH & SFTP pull) -> B" = .ok segs ∧
        (segs.filterMap Segment.connection?).length = 2 := by
  have label : Text.IsLabel "A".toList := Text.isLabel_singleton (by decide) (by decide)
  have label' : Text.IsLabel "B".toList := Text.isLabel_singleton (by decide) (by decide)
  have each : ∀ s ∈ ["FTP (x & y) PUSH", "SFTP pull"], Text.IsBranch s.toList := by decide
  obtain ⟨iff, places, _⟩ := tokenizeChain_fanIn label label' .forward (List.cons_ne_nil _ _) each
  refine ⟨label, label', each, ?_⟩
  have line : hopText "A" .forward (groupText ["FTP (x & y) PUSH", "SFTP pull"]) "B" =
      "A -> (FTP (x & y) PUSH & SFTP pull) -> B" := by cbv
  rw [line] at iff places
  suffices alone : _ from
    (iff.mpr alone).imp fun segs run => ⟨run, (places segs run).length_eq.symm⟩
  refine List.forall_mem_cons.mpr ⟨?_, List.forall_mem_singleton.mpr ?_⟩
  · exact ⟨_, by cbv, _, List.mem_cons_of_mem _ List.mem_cons_self, rfl⟩
  · exact ⟨_, by cbv, _, List.mem_cons_of_mem _ List.mem_cons_self, rfl⟩

end Lines

end TransferFlow
