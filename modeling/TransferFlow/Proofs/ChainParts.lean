import TransferFlow.Proofs.Continuations

namespace TransferFlow

theorem tokenizeBranches_eq_ok {a : Arrow} {texts : List (List Char)} {segs : List Segment} :
    tokenizeBranches a (texts.map String.ofList) = .ok segs ↔
      ∃ branches, List.Forall₂ (Branch.Reads Chain.read a) texts branches ∧ (branches.map Branch.target).Nodup ∧
        segs = (Hop.fanOut a branches).segments := by
  have same : (texts.map String.ofList).map String.toList = texts := by simp [Function.comp_def]
  rw [tokenizeBranches, same, map_eq_ok]
  constructor
  · rintro ⟨branches, run, rfl⟩
    obtain ⟨all, distinct, _⟩ := Branch.readAll_eq_ok.mp run
    exact ⟨branches, all, distinct, rfl⟩
  · rintro ⟨branches, all, distinct, rfl⟩
    exact ⟨branches, Branch.readAll_eq_ok.mpr ⟨all, distinct, by simp⟩, rfl⟩

/-- The chain that continues a branch begins with the target of the branch, and behind its opening a branch has the
segments of that chain. -/
theorem Branch.segments_of_read {a : Arrow} {used : List String} {cs : List Char} {b : Branch}
    (run : Branch.read Chain.read a used cs = .ok b) (position : Int) :
    let opening : List Segment := [.connection (b.step.connection a b.target .output (some position)),
      .entity { label := b.target, branch := .output, step := some position, isPost := false }]
    ∃ onward, Step.readBranch? cs = some (b.step, a, onward) ∧
      (Part.split onward = [.text b.target.toList] ∧ b.segments a position = opening ∨
        ∃ c, Chain.read onward = .ok c ∧ c.entity = b.target ∧
          b.segments a position = opening ++ Segment.splice b.target position c.segments) := by
  intro opening
  cases (Reads.of_read run).1 with
  | @ending step onward name head alone =>
    refine ⟨onward, head, .inl ⟨by rw [String.toList_ofList, alone], ?_⟩⟩
    simp [opening, segments, Segment.splice, EntitySegment.plain]
  | @continued step onward name next more c legs head parts further simple =>
    obtain ⟨entity, rest, parts', -, -, same⟩ := Chain.read_eq_ok.mp further
    cases parts.symm.trans parts'
    refine ⟨onward, head, .inr ⟨c, further, same, ?_⟩⟩
    rw [segments, Chain.segments, same, Chain.legs?_eq_some.mp simple, List.flatMap_map]
    rfl

namespace Hop

/-- The parts that spell one hop, and the segments of the hop. A fan-out closes its own hop; behind any
other stage its arrow and a target follow. -/
inductive Spells : List Part → List Segment → Prop
  | single {a : Arrow} {s e : List Char} {step : Step} :
      groupInside? s = none → Step.read? s = some step →
      Spells [.arrow a, .text s, .arrow a, .text e]
        (single { arrow := a, step, target := String.ofList e }).segments
  | fanIn {a : Arrow} {s e inside : List Char} {steps : List Step} :
      groupInside? s = some inside → (∀ b ∈ branchesOf inside, Token.hasArrow b = false) →
      List.Forall₂ (fun b step => Step.read? b = some step) (branchesOf inside) steps →
      Spells [.arrow a, .text s, .arrow a, .text e] (fanIn a steps (String.ofList e)).segments
  | fanOut {a : Arrow} {g inside : List Char} {segs : List Segment} :
      groupInside? g = some inside → (∃ b ∈ branchesOf inside, Token.hasArrow b = true) →
      tokenizeBranches a ((branchesOf inside).map String.ofList) = .ok segs →
      Spells [.arrow a, .text g] segs

theorem Spells.parts_ne_nil {parts : List Part} {segs : List Segment} (spells : Spells parts segs) :
    parts ≠ [] := by
  cases spells <;> exact List.cons_ne_nil _ _

/-- Parts that can be read fall into hops. -/
theorem Reads.spells {parts : List Part} {hops : List Hop} (found : Reads Chain.read parts hops) :
    ∃ pieces, parts = pieces.flatten ∧ List.Forall₂ Spells pieces (hops.map segments) := by
  induction found with
  | nil => exact ⟨[], rfl, .nil⟩
  | single single atStep _ ih =>
    obtain ⟨rfl, none⟩ := Stage.ofChars_eq_single.mp single
    obtain ⟨pieces, rfl, all⟩ := ih
    exact ⟨_ :: pieces, rfl, .cons (.single none atStep) all⟩
  | fanIn fanIn steps _ ih =>
    obtain ⟨inside, group, rfl, arrows⟩ := Stage.ofChars_eq_fanIn.mp fanIn
    obtain ⟨pieces, rfl, all⟩ := ih
    have free : ∀ b ∈ branchesOf inside, Token.hasArrow b = false := by simpa using arrows
    exact ⟨_ :: pieces, rfl, .cons (.fanIn group free steps) all⟩
  | fanOut fanOut branches distinct _ ih =>
    obtain ⟨inside, group, rfl, arrows⟩ := Stage.ofChars_eq_fanOut.mp fanOut
    obtain ⟨pieces, rfl, all⟩ := ih
    have read := tokenizeBranches_eq_ok.mpr ⟨_, branches, distinct, rfl⟩
    exact ⟨_ :: pieces, rfl, .cons (.fanOut group (List.any_eq_true.mp arrows) read) all⟩

/-- Hops one behind the other can be read. -/
theorem reads_of_spells {pieces : List (List Part)} {written : List (List Segment)}
    (all : List.Forall₂ Spells pieces written) :
    ∃ hops, Reads Chain.read pieces.flatten hops ∧ written = hops.map segments := by
  induction all with
  | nil => exact ⟨[], .nil, rfl⟩
  | cons atHead _ ih =>
    obtain ⟨hops, found, rfl⟩ := ih
    cases atHead with
    | single none atStep =>
      have single := Stage.ofChars_eq_single.mpr ⟨rfl, none⟩
      exact ⟨_ :: hops, .single single atStep found, rfl⟩
    | fanIn group free steps =>
      have fanIn := Stage.ofChars_eq_fanIn.mpr ⟨_, group, rfl, by simpa using free⟩
      exact ⟨_ :: hops, .fanIn fanIn steps found, rfl⟩
    | fanOut group arrows read =>
      obtain ⟨branches, all, distinct, rfl⟩ := tokenizeBranches_eq_ok.mp read
      have fanOut := Stage.ofChars_eq_fanOut.mpr ⟨_, group, rfl, List.any_eq_true.mpr arrows⟩
      exact ⟨_ :: hops, .fanOut fanOut all distinct found, rfl⟩

end Hop

namespace Chain

/-- An entity and at least one hop, and their segments in the same order. -/
def Spells (parts : List Part) (segs : List Segment) : Prop :=
  ∃ entity pieces written, parts = .text entity :: List.flatten pieces ∧ pieces ≠ [] ∧
    List.Forall₂ Hop.Spells pieces written ∧
    segs = .entity (.plain (String.ofList entity)) :: List.flatten written

theorem spells_iff {parts : List Part} {segs : List Segment} :
    Spells parts segs ↔ ∃ entity rest hops, parts = .text entity :: rest ∧ rest ≠ [] ∧ Hop.Reads read rest hops ∧
      segs = .entity (.plain (String.ofList entity)) :: hops.flatMap Hop.segments := by
  constructor
  · rintro ⟨entity, pieces, written, rfl, further, all, rfl⟩
    have nonempty : pieces.flatten ≠ [] := by
      cases all with
      | nil => exact absurd rfl further
      | cons atHead _ => exact List.append_ne_nil_of_left_ne_nil atHead.parts_ne_nil _
    obtain ⟨hops, found, rfl⟩ := Hop.reads_of_spells all
    exact ⟨entity, pieces.flatten, hops, rfl, nonempty, found, by rw [List.flatMap_def]⟩
  · rintro ⟨entity, rest, hops, rfl, further, found, rfl⟩
    obtain ⟨pieces, rfl, all⟩ := found.spells
    refine ⟨entity, pieces, hops.map Hop.segments, rfl, ?_, all, by rw [List.flatMap_def]⟩
    rintro rfl
    exact further rfl

/-- The early checks turn down no chain, and what passes them and can be read on is one. -/
theorem spells_iff_checked {parts : List Part} {segs : List Segment} :
    Spells parts segs ↔ refusal? parts = none ∧ ∃ entity rest hops, parts = .text entity :: rest ∧
      Hop.readAll read rest = .ok hops ∧
      segs = .entity (.plain (String.ofList entity)) :: hops.flatMap Hop.segments := by
  rw [spells_iff]
  constructor
  · rintro ⟨entity, rest, hops, rfl, further, found, rfl⟩
    exact ⟨refusal?_of_reads found further, entity, rest, hops, rfl, found.run, rfl⟩
  · rintro ⟨accepted, entity, rest, hops, rfl, run, rfl⟩
    refine ⟨entity, rest, hops, rfl, ?_, .of_readAll run, rfl⟩
    rintro rfl
    cases accepted

end Chain

/-- A text is read as a chain just when its parts are an entity and hops, and then its segments are
those of the entity and of the hops in order. For any list of parts the checks made before the hops are
read are exact: such a list passes them, and no other list passes them and has its hops read. -/
theorem tokenizeChain_iff_spells (text : String) :
    (∀ segs, tokenizeChain text = .ok segs ↔ Chain.Spells (Part.split text.toList) segs) ∧
      ∀ parts segs, Chain.Spells parts segs ↔ Chain.refusal? parts = none ∧
        ∃ entity rest hops, parts = .text entity :: rest ∧ Hop.readAll Chain.read rest = .ok hops ∧
          segs = .entity (.plain (String.ofList entity)) :: hops.flatMap Hop.segments := by
  refine ⟨?_, fun _ _ => Chain.spells_iff_checked⟩
  intro segs
  rw [tokenizeChain, map_eq_ok, Chain.spells_iff]
  constructor
  · rintro ⟨c, found, rfl⟩
    rw [Chain.read_eq_readWith, Chain.readWith_eq_ok] at found
    obtain ⟨entity, rest, parts, further, hops, named⟩ := found
    exact ⟨entity, rest, c.hops, parts, further, hops, by rw [← named]; rfl⟩
  · rintro ⟨entity, rest, hops, parts, further, found, rfl⟩
    refine ⟨{ entity := String.ofList entity, hops }, ?_, rfl⟩
    rw [Chain.read_eq_readWith, Chain.readWith_eq_ok]
    exact ⟨entity, rest, parts, further, found, rfl⟩

end TransferFlow
