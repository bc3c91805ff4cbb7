import TransferFlow.Proofs.Parts
import TransferFlow.Proofs.SegmentGrammar
import TransferFlow.Proofs.StepSearch

namespace TransferFlow

open Text (parens trim)

/-- The names that a segment carries. -/
def Segment.texts : Segment → List String
  | .entity e => [e.label]
  | .connection c => [c.target, c.protocol]

def Leg.texts (l : Leg) : List String :=
  [l.step.protocol, l.target]

def Branch.texts (b : Branch) : List String :=
  b.step.protocol :: b.target :: b.onward.flatMap Leg.texts

def Hop.texts : Hop → List String
  | .single leg => leg.texts
  | .fanIn _ steps target => steps.map Step.protocol ++ [target]
  | .fanOut _ branches => branches.flatMap Branch.texts

/-- No group is open where the text of a branch is cut into its protocol and its target. -/
def Branch.CutWhole (cs : List Char) : Prop :=
  ∀ before found, Step.shortestPrefix Step.directionAndOnward? cs = some (before, found) →
    Token.unclosed (Token.lex before) = 0

/-- The branch texts of the fan-outs among the parts behind an entity. -/
def Hop.branchTexts : List Part → List (List Char)
  | .arrow _ :: .text cs :: rest =>
    match Stage.ofChars cs with
    | .fanOut texts => texts ++ branchTexts rest
    | _ => behindTarget rest
  | _ => []
where
  /-- Goes on behind the arrow and the target that close a hop. -/
  behindTarget : List Part → List (List Char)
    | _ :: _ :: rest => branchTexts rest
    | _ => []

/-- The branch texts of all fan-outs of a chain. -/
def Chain.branchTexts (cs : List Char) : List (List Char) :=
  match Part.split cs with
  | _ :: rest => Hop.branchTexts rest
  | [] => []

/-- The branch texts of all fan-outs of a line. -/
def Pattern.branchTexts (cs : List Char) : List (List Char) :=
  ((Pieces.cut (·.kind == .post) cs).parts.map trim).flatMap Chain.branchTexts

namespace Step

/-- Behind the beginning that the search finds there is no parenthesis in a step that stands alone. -/
theorem balanced_of_read? {cs : List Char} {s : Step} (found : read? cs = some s) (balanced : Text.Balanced cs) :
    Text.Balanced s.protocol.toList := by
  obtain ⟨⟨before, d⟩, search, same⟩ := Option.map_eq_some_iff.mp found
  cases same
  obtain ⟨rest, rfl, _, atEnd⟩ := shortestPrefix_spec search
  rw [String.toList_ofList, Text.balanced_trim]
  refine (Text.balanced_congr ?_).mp balanced
  rw [Text.parens_append, Text.parens_of_isPlain (isPlain_of_finalDirection? atEnd), List.append_nil]

theorem parens_of_onward? {cs line : List Char} (found : onward? cs = some line) : parens cs = parens line := by
  obtain ⟨before, after, rfl, blank, blank', _⟩ := onward?_spec found
  rw [Text.parens_append, Text.parens_append, Text.parens_of_isBlankText blank, Text.parens_of_isBlankText blank',
    List.append_nil, List.nil_append]

/-- The head of a branch is its text up to the cut, and what follows the cut holds the other parentheses. -/
theorem readBranch?_spec {cs onward : List Char} {s : Step} {a : Arrow}
    (found : readBranch? cs = some (s, a, onward)) :
    ∃ before line, shortestPrefix directionAndOnward? cs = some (before, s.direction, a, line) ∧
      s.protocol = String.ofList (trim before) ∧ onward = trim line ∧ parens cs = parens before ++ parens line := by
  obtain ⟨⟨before, d, b, line⟩, search, same⟩ := Option.map_eq_some_iff.mp found
  cases same
  refine ⟨before, line, search, rfl, rfl, ?_⟩
  obtain ⟨rest, rfl, _, reads⟩ := shortestPrefix_spec search
  obtain ⟨head, behind, rfl, plain, atOnward⟩ := directionAndOnward?_spec reads
  have arrow : parens a.chars = [] := by cases a <;> rfl
  rw [Text.parens_append, Text.parens_append, Text.parens_append, Text.parens_of_isPlain plain, arrow,
    parens_of_onward? atOnward, List.nil_append, List.nil_append]

/-- A balanced branch is cut outside its groups just when its protocol is balanced, and then so is what
follows. -/
theorem cutWhole_iff {cs onward : List Char} {s : Step} {a : Arrow} (found : readBranch? cs = some (s, a, onward))
    (balanced : Text.Balanced cs) :
    (Branch.CutWhole cs ↔ Text.Balanced s.protocol.toList) ∧
      (Text.Balanced s.protocol.toList → Text.Balanced onward) := by
  obtain ⟨before, line, search, protocol, rfl, split⟩ := readBranch?_spec found
  rw [Text.balanced_iff, split, Token.unopened_append, Token.unclosed_append] at balanced
  rw [protocol, String.toList_ofList, Text.balanced_trim, Text.balanced_trim, Text.balanced_iff, Text.balanced_iff]
  constructor
  · constructor
    · intro whole
      have closed := whole _ _ search
      rw [← Text.unclosed_parens] at closed
      omega
    · intro closed before' found' search'
      rw [search] at search'
      cases search'
      rw [← Text.unclosed_parens]
      exact closed.2
  · omega

end Step

section Readers

variable {chain : List Char → Except SyntaxError Chain} {a : Arrow}

/-- Whatever is no fan-out is cut outside all groups. -/
theorem Hop.Reads.balanced {parts : List Part} {hops : List Hop} (found : Hop.Reads chain parts hops)
    (balanced : ∀ cs, .text cs ∈ parts → Text.Balanced cs) :
    ∀ h ∈ hops, (∃ a branches, h = .fanOut a branches) ∨ ∀ t ∈ h.texts, Text.Balanced t.toList := by
  induction found with
  | nil => simp
  | @single a cs text step name rest hops single atStep _ ih =>
    obtain ⟨rfl, _⟩ := Stage.ofChars_eq_single.mp single
    refine List.forall_mem_cons.mpr ⟨Or.inr ?_, ih fun cs inside => balanced cs (by simp [inside])⟩
    refine List.forall_mem_cons.mpr ⟨Step.balanced_of_read? atStep (balanced text (by simp)), ?_⟩
    refine List.forall_mem_singleton.mpr ?_
    rw [String.toList_ofList]
    exact balanced name (by simp)
  | @fanIn a cs texts steps name rest hops fanIn all _ ih =>
    obtain ⟨inside, group, rfl, _⟩ := Stage.ofChars_eq_fanIn.mp fanIn
    refine List.forall_mem_cons.mpr ⟨Or.inr ?_, ih fun cs inside => balanced cs (by simp [inside])⟩
    refine List.forall_mem_append.mpr ⟨?_, List.forall_mem_singleton.mpr ?_⟩
    · intro t member
      obtain ⟨step, within, rfl⟩ := List.mem_map.mp member
      obtain ⟨text, among, atStep⟩ := forall₂_mem_right all within
      exact Step.balanced_of_read? atStep (balanced_branchesOf (balanced_groupInside? group) text among)
    · rw [String.toList_ofList]
      exact balanced name (by simp)
  | @fanOut a cs texts branches rest hops _ _ _ _ ih =>
    exact List.forall_mem_cons.mpr ⟨Or.inl ⟨a, branches, rfl⟩, ih fun cs inside => balanced cs (by simp [inside])⟩

/-- A chain without fan-outs is cut outside all groups. -/
theorem Chain.balanced_legs {cs : List Char} {c : Chain} {legs : List Leg} (run : Chain.readWith chain cs = .ok c)
    (balanced : Text.Balanced cs) (simple : c.legs? = some legs) :
    ∀ l ∈ legs, ∀ t ∈ l.texts, Text.Balanced t.toList := by
  obtain ⟨entity, rest, parts, _, found, _⟩ := Chain.readWith_eq_ok.mp run
  have each := found.balanced fun cs inside =>
    Part.balanced_split balanced cs (by rw [parts]; exact List.mem_cons_of_mem _ inside)
  intro l member
  have among : Hop.single l ∈ c.hops := by
    rw [Chain.legs?_eq_some.mp simple]
    exact List.mem_map_of_mem member
  rcases each (.single l) among with ⟨_, _, other⟩ | balanced
  · cases other
  · exact balanced

/-- `chain` cuts a chain without fan-outs outside all groups. -/
def Cuts (chain : List Char → Except SyntaxError Chain) : Prop :=
  ∀ cs c legs, chain cs = .ok c → Text.Balanced cs → c.legs? = some legs →
    ∀ l ∈ legs, ∀ t ∈ l.texts, Text.Balanced t.toList

theorem Chain.cuts_readWithin (n : Nat) : Cuts (Chain.readWithin .tooShort n) := by
  intro cs c legs run
  cases n with
  | zero => cases run
  | succ n => exact Chain.balanced_legs run

theorem Branch.Reads.balanced_iff {cs : List Char} {b : Branch} (cuts : Cuts chain)
    (found : Branch.Reads chain a cs b) (balanced : Text.Balanced cs) :
    (∀ t ∈ b.texts, Text.Balanced t.toList) ↔ Branch.CutWhole cs := by
  have texts (t : String) : t ∈ b.texts ↔ t = b.step.protocol ∨ t = b.target ∨ t ∈ b.onward.flatMap Leg.texts := by
    rw [Branch.texts, List.mem_cons, List.mem_cons]
  cases found with
  | @ending step onward name atHead parts =>
    obtain ⟨whole, behind⟩ := Step.cutWhole_iff atHead balanced
    rw [whole]
    constructor
    · exact fun each => each _ ((texts _).mpr (Or.inl rfl))
    · intro protocol t member
      rcases (texts t).mp member with rfl | rfl | member
      · exact protocol
      · rw [String.toList_ofList]
        exact Part.balanced_split (behind protocol) name (by rw [parts]; exact List.mem_singleton_self _)
      · cases member
  | @continued step onward name next more continuation legs atHead parts run simple =>
    obtain ⟨whole, behind⟩ := Step.cutWhole_iff atHead balanced
    rw [whole]
    constructor
    · exact fun each => each _ ((texts _).mpr (Or.inl rfl))
    · intro protocol t member
      rcases (texts t).mp member with rfl | rfl | member
      · exact protocol
      · rw [String.toList_ofList]
        exact Part.balanced_split (behind protocol) name (by rw [parts]; exact List.mem_cons_self)
      · obtain ⟨leg, inside, member⟩ := List.mem_flatMap.mp member
        exact cuts onward continuation legs run (behind protocol) simple leg inside t member

/-- The names in the hops of a balanced text are balanced just when its branches are cut outside their
groups. -/
theorem Hop.Reads.balanced_iff {parts : List Part} {hops : List Hop} (cuts : Cuts chain)
    (found : Hop.Reads chain parts hops) (balanced : ∀ cs, .text cs ∈ parts → Text.Balanced cs) :
    (∀ h ∈ hops, ∀ t ∈ h.texts, Text.Balanced t.toList) ↔ ∀ cs ∈ Hop.branchTexts parts, Branch.CutWhole cs := by
  have each := found.balanced balanced
  induction found with
  | nil => simp [branchTexts]
  | single single _ _ ih | fanIn single _ _ ih =>
    obtain ⟨atHead, atTail⟩ := List.forall_mem_cons.mp each
    have later := ih (fun cs inside => balanced cs (by simp [inside])) atTail
    rw [branchTexts, single, List.forall_mem_cons]
    dsimp only
    rw [branchTexts.behindTarget]
    refine Iff.trans ?_ later
    rcases atHead with ⟨_, _, other⟩ | atHead
    · cases other
    · exact ⟨And.right, fun rest => ⟨atHead, rest⟩⟩
  | @fanOut a cs texts branches rest hops fanOut all _ _ ih =>
    obtain ⟨_, atTail⟩ := List.forall_mem_cons.mp each
    have later := ih (fun cs inside => balanced cs (by simp [inside])) atTail
    obtain ⟨inside, group, rfl, _⟩ := Stage.ofChars_eq_fanOut.mp fanOut
    have whole := balanced_branchesOf (balanced_groupInside? group)
    rw [branchTexts, fanOut, List.forall_mem_cons, List.forall_mem_append]
    refine and_congr ?_ later
    constructor
    · intro names text member
      obtain ⟨b, among, reads⟩ := forall₂_mem_left all member
      exact (reads.balanced_iff cuts (whole text member)).mp fun t inside =>
        names t (List.mem_flatMap.mpr ⟨b, among, inside⟩)
    · intro cut t member
      obtain ⟨b, among, inside⟩ := List.mem_flatMap.mp member
      obtain ⟨text, within, reads⟩ := forall₂_mem_right all among
      exact (reads.balanced_iff cuts (whole text within)).mpr (cut text within) t inside

end Readers

section Segments

/-- The names that segments carry. -/
def Segment.allTexts (segs : List Segment) : List String :=
  segs.flatMap texts

theorem Segment.allTexts_append (xs ys : List Segment) : allTexts (xs ++ ys) = allTexts xs ++ allTexts ys :=
  List.flatMap_append

theorem Segment.allTexts_map {f : Segment → Segment} (same : ∀ s, (f s).texts = s.texts) (segs : List Segment) :
    allTexts (segs.map f) = allTexts segs := by
  rw [allTexts, List.flatMap_map]
  simp only [same]
  rfl

theorem Segment.allTexts_markPost (started : Bool) (segs : List Segment) :
    allTexts (markPost started segs) = allTexts segs := by
  fun_induction markPost started segs with
  | case1 => rfl
  | case2 started e rest ih =>
    rw [allTexts] at ih
    rw [allTexts, List.flatMap_cons, ih]
    rfl
  | case3 started c rest ih =>
    rw [allTexts] at ih
    rw [allTexts, List.flatMap_cons, ih]
    rfl

theorem mem_allTexts_legs {legs : List Leg} {t : String} :
    t ∈ Segment.allTexts (legs.flatMap Leg.segments) ↔ t ∈ legs.flatMap Leg.texts := by
  induction legs with
  | nil => rfl
  | cons l legs ih =>
    rw [List.flatMap_cons, List.flatMap_cons, Segment.allTexts_append, List.mem_append, List.mem_append, ih]
    have leg : t ∈ Segment.allTexts l.segments ↔ t ∈ l.texts := by
      simp only [Segment.allTexts, Leg.segments, Leg.texts, Step.connection, EntitySegment.plain, List.flatMap_cons,
        List.flatMap_nil, Segment.texts, List.append_nil, List.mem_append, List.mem_cons, List.not_mem_nil]
      tauto
    rw [leg]

theorem mem_allTexts_branch {a : Arrow} {b : Branch} {position : Int} {t : String} :
    t ∈ Segment.allTexts (b.segments a position) ↔ t ∈ b.texts := by
  have continuing (s : Segment) : (s.continuing position).texts = s.texts := by cases s <;> rfl
  have opening : Segment.allTexts (b.segments a position) =
      [b.target, b.step.protocol, b.target] ++ Segment.allTexts (b.onward.flatMap Leg.segments) := by
    rw [Branch.segments, Segment.splice_repeated, ← Segment.allTexts_map continuing (b.onward.flatMap _)]
    rfl
  rw [opening, List.mem_append, mem_allTexts_legs, Branch.texts, List.mem_cons, List.mem_cons]
  simp only [List.mem_cons, List.not_mem_nil]
  tauto

theorem mem_allTexts_zipIdx {α : Type} {f : α × Nat → List Segment} {texts : α → List String} {t : String}
    (each : ∀ x i, t ∈ Segment.allTexts (f (x, i)) ↔ t ∈ texts x) (xs : List α) (n : Nat) :
    t ∈ Segment.allTexts ((xs.zipIdx n).flatMap f) ↔ t ∈ xs.flatMap texts := by
  induction xs generalizing n with
  | nil => rfl
  | cons x xs ih =>
    rw [List.zipIdx_cons, List.flatMap_cons, List.flatMap_cons, Segment.allTexts_append, List.mem_append,
      List.mem_append, ih, each]

/-- The segments of a hop carry the names in the hop, and no others. -/
theorem mem_allTexts_hop {h : Hop} {t : String} : t ∈ Segment.allTexts h.segments ↔ t ∈ h.texts := by
  cases h with
  | single leg =>
    have alone := @mem_allTexts_legs [leg] t
    rwa [List.flatMap_singleton, List.flatMap_singleton] at alone
  | fanIn a steps target =>
    have connections := @mem_allTexts_zipIdx Step
      (fun p => [.connection (p.1.connection a target .input (some (p.2 : Int)))])
      (fun s => [target, s.protocol]) t (fun s i => Iff.rfl) steps 1
    rw [← List.map_eq_flatMap] at connections
    rw [Hop.segments, Segment.allTexts_append, List.mem_append, connections, Hop.texts, List.mem_append,
      List.mem_flatMap, List.mem_map]
    show _ ∨ t ∈ [target] ↔ _
    constructor
    · rintro (⟨s, member, either⟩ | last)
      · rcases List.mem_cons.mp either with same | protocol
        · exact Or.inr (List.mem_singleton.mpr same)
        · exact Or.inl ⟨s, member, (List.mem_singleton.mp protocol).symm⟩
      · exact Or.inr last
    · rintro (⟨s, member, same⟩ | last)
      · exact Or.inl ⟨s, member, by simp [same]⟩
      · exact Or.inr last
  | fanOut a branches => exact mem_allTexts_zipIdx (fun b i => mem_allTexts_branch) branches 1

theorem forall_allTexts_chain {c : Chain} {p : String → Prop} :
    (∀ t ∈ Segment.allTexts c.segments, p t) ↔ p c.entity ∧ ∀ h ∈ c.hops, ∀ t ∈ h.texts, p t := by
  have hops (t : String) : t ∈ Segment.allTexts (c.hops.flatMap Hop.segments) ↔ ∃ h ∈ c.hops, t ∈ h.texts := by
    rw [Segment.allTexts, List.flatMap_assoc, List.mem_flatMap]
    exact exists_congr fun h => and_congr_right fun _ => mem_allTexts_hop
  have entity : Segment.allTexts c.segments = c.entity :: Segment.allTexts (c.hops.flatMap Hop.segments) := rfl
  rw [entity, List.forall_mem_cons]
  refine and_congr_right fun _ => ⟨fun each h member t inside => each t ((hops t).mpr ⟨h, member, inside⟩), ?_⟩
  intro each t member
  obtain ⟨h, inside, within⟩ := (hops t).mp member
  exact each h inside t within

theorem forall_allTexts_pattern {q : Pattern} {p : String → Prop} :
    (∀ t ∈ Segment.allTexts q.segments, p t) ↔ ∀ c ∈ q.chains, ∀ t ∈ Segment.allTexts c.segments, p t := by
  have post (t : String) : t ∈ Segment.allTexts (q.post.flatMap fun c => Segment.markPost false c.segments) ↔
      ∃ c ∈ q.post, t ∈ Segment.allTexts c.segments := by
    rw [Segment.allTexts, List.flatMap_assoc, List.mem_flatMap]
    refine exists_congr fun c => and_congr_right fun _ => ?_
    rw [← Segment.allTexts_markPost false c.segments]
    rfl
  rw [Pattern.segments, Segment.allTexts_append, List.forall_mem_append, Pattern.chains, List.forall_mem_cons]
  refine and_congr_right fun _ => ⟨fun each c member t inside => each t ((post t).mpr ⟨c, member, inside⟩), ?_⟩
  intro each t member
  obtain ⟨c, inside, within⟩ := (post t).mp member
  exact each c inside t within

end Segments

/-- The names in a balanced chain are balanced just when its branches are cut outside their groups. -/
theorem Chain.balanced_iff {cs : List Char} {c : Chain} (run : Chain.read cs = .ok c)
    (balanced : Text.Balanced cs) :
    (∀ t ∈ Segment.allTexts c.segments, Text.Balanced t.toList) ↔
      ∀ text ∈ Chain.branchTexts cs, Branch.CutWhole text := by
  obtain ⟨entity, rest, parts, _, found, named⟩ := Chain.read_eq_ok.mp run
  have each := Part.balanced_split balanced
  rw [parts] at each
  have hops :=
    found.balanced_iff (Chain.cuts_readWithin _) fun text member => each text (List.mem_cons_of_mem _ member)
  rw [forall_allTexts_chain, named, String.toList_ofList, Chain.branchTexts, parts]
  exact ⟨fun all => hops.mp all.2, fun whole => ⟨each entity List.mem_cons_self, hops.mpr whole⟩⟩

theorem tokenize_nested :
    tokenize "A -> ((FTP PUSH -> B))" = .ok [
      Segment.plain "A" false,
      .connection {
        arrow := .forward, protocol := "(FTP", direction := .push, target := "B)", branch := .output, step := some 1
        isPost := false, startsPost := false },
      .entity { label := "B)", branch := .output, step := some 1, isPost := false }] := by
  have chain : Chain.read "A -> ((FTP PUSH -> B))".toList = .ok {
      entity := "A"
      hops := [.fanOut .forward
        [{ step := { protocol := "(FTP", direction := .push }, target := "B)", onward := [] }]] } := by
    refine Chain.read_eq_ok.mpr ⟨['A'], [.arrow .forward, .text "((FTP PUSH -> B))".toList], by cbv, ?_, ?_, rfl⟩
    · exact List.cons_ne_nil _ _
    · exact Hop.readAll_eq_ok.mp (by cbv)
  exact (tokenize_of_single (by cbv)).mpr ⟨_, chain, rfl⟩

/-- A line breaks a group just where a branch of a fan-out is cut inside one. -/
theorem balanced_texts_iff {line : String} {segs : List Segment} (run : tokenize line = .ok segs)
    (balanced : Text.Balanced line.toList) :
    (∀ s ∈ segs, ∀ t ∈ s.texts, Text.Balanced t.toList) ↔
      ∀ text ∈ Pattern.branchTexts line.toList, Branch.CutWhole text := by
  obtain ⟨p, found, rfl⟩ := map_eq_ok.mp run
  have reads := Pattern.read_eq_ok.mp found
  have pieces : ∀ piece ∈ (Pieces.cut (·.kind == .post) line.toList).parts.map trim, Text.Balanced piece := by
    intro piece member
    obtain ⟨part, inside, rfl⟩ := List.mem_map.mp member
    exact Text.balanced_trim.mpr (Pieces.balanced_cut balanced part inside)
  have texts : (∀ s ∈ p.segments, ∀ t ∈ s.texts, Text.Balanced t.toList) ↔
      ∀ t ∈ Segment.allTexts p.segments, Text.Balanced t.toList := by
    rw [Segment.allTexts, List.forall_mem_flatMap]
  rw [texts, forall_allTexts_pattern, Pattern.branchTexts, List.forall_mem_flatMap]
  constructor
  · intro each piece member
    obtain ⟨c, inside, atPiece⟩ := forall₂_mem_left reads member
    exact (Chain.balanced_iff atPiece (pieces piece member)).mp (each c inside)
  · intro whole c member
    obtain ⟨piece, inside, atPiece⟩ := forall₂_mem_right reads member
    exact (Chain.balanced_iff atPiece (pieces piece inside)).mpr (whole piece inside)

/-- The cut of a branch that is one group in itself. -/
theorem balanced_texts_iff_nested :
    ∃ segs, tokenize "A -> ((FTP PUSH -> B))" = .ok segs ∧ Text.Balanced "A -> ((FTP PUSH -> B))".toList ∧
      ((∀ s ∈ segs, ∀ t ∈ s.texts, Text.Balanced t.toList) ↔
        ∀ text ∈ Pattern.branchTexts "A -> ((FTP PUSH -> B))".toList, Branch.CutWhole text) := by
  have balanced : Text.Balanced "A -> ((FTP PUSH -> B))".toList := by
    unfold Text.Balanced
    cbv
  exact ⟨_, tokenize_nested, balanced, balanced_texts_iff tokenize_nested balanced⟩

/-- Where parentheses of a whole line all match, those of its names need not. -/
theorem broken_group :
    ¬ ∀ line segs, tokenize line = .ok segs → Text.Balanced line.toList →
      ∀ s ∈ segs, ∀ t ∈ s.texts, Text.Balanced t.toList := by
  intro unbroken
  have balanced : Text.Balanced "A -> ((FTP PUSH -> B))".toList := by
    unfold Text.Balanced
    cbv
  have target := unbroken _ _ tokenize_nested balanced
    (.entity { label := "B)", branch := .output, step := some 1, isPost := false })
    (by simp) "B)" List.mem_cons_self
  revert target
  unfold Text.Balanced
  decide

end TransferFlow
