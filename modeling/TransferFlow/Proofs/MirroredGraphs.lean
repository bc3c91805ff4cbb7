import TransferFlow.Document
import TransferFlow.Proofs.MirroredPatterns
import TransferFlow.Proofs.PlainPatterns
import TransferFlow.Proofs.SegmentGrammar

namespace TransferFlow

open Text (Clear mirror)

/-- The text with all arrows turned. -/
def Text.mirrored (s : String) : String :=
  String.ofList (mirror s.toList)

/-- The other direction. -/
def FlowDirection.flip : FlowDirection → FlowDirection
  | .forward => .reverse
  | .reverse => .forward

section Turned

variable (rename : String → String)

/-- The connection with its arrow turned and its texts renamed. -/
def ConnectionSegment.turn (c : ConnectionSegment) : ConnectionSegment :=
  { c with arrow := c.arrow.flip, protocol := rename c.protocol, target := rename c.target }

def EntitySegment.turn (e : EntitySegment) : EntitySegment :=
  { e with label := rename e.label }

def Segment.turn : Segment → Segment
  | .entity e => .entity (e.turn rename)
  | .connection c => .connection (c.turn rename)

def Node.turn (n : Node) : Node :=
  { n with label := rename n.label }

def Edge.turn (e : Edge) : Edge :=
  { e with
    fromLabel := e.fromLabel.map rename
    toLabel := rename e.toLabel
    protocol := rename e.protocol
    arrow := e.arrow.flip
    flowDirection := e.flowDirection.flip }

def Graph.turn (g : Graph) : Graph :=
  { nodes := g.nodes.map (Node.turn rename), edges := g.edges.map (Edge.turn rename) }

def Flow.turn (flow : Flow) : Flow :=
  { flow with toGraph := flow.toGraph.turn rename, originalText := rename flow.originalText }

def Warning.turn (w : Warning) : Warning :=
  { w with fromLabel := w.fromLabel.map rename, toLabel := rename w.toLabel, protocol := rename w.protocol }

def Reached.turn (r : Reached) : Reached :=
  { entries := r.entries.map fun (step, label) => (step, rename label) }

def Builder.turn (b : Builder) : Builder :=
  { b with
    nodes := b.nodes.map (Node.turn rename)
    edges := b.edges.map (Edge.turn rename)
    warnings := b.warnings.map (Warning.turn rename)
    lastLabel := b.lastLabel.map rename
    groupSource := b.groupSource.map rename
    reached := b.reached.turn rename }

end Turned

section Segments

variable (rename : String → String)

theorem Segment.continuing_turn (step : Int) (s : Segment) :
    (s.turn rename).continuing step = (s.continuing step).turn rename := by
  cases s <;> rfl

theorem Branch.segments_turn (a : Arrow) (b : Branch) (position : Int) :
    (b.turn rename).segments a.flip position = (b.segments a position).map (Segment.turn rename) := by
  -- The entity in front repeats the target on both sides, so it is dropped whatever the renaming makes of it.
  have legs : (b.turn rename).onward.flatMap Leg.segments =
      (b.onward.flatMap Leg.segments).map (Segment.turn rename) := by
    rw [turn, List.flatMap_map, List.map_flatMap]
    rfl
  have continued : (Segment.continuing position) ∘ Segment.turn rename =
      Segment.turn rename ∘ Segment.continuing position := funext (Segment.continuing_turn rename position)
  rw [segments, segments, Segment.splice_repeated, Segment.splice_repeated, legs, List.map_map, continued,
    List.map_cons, List.map_cons, List.map_map]
  rfl

theorem Hop.segments_turn (h : Hop) : (h.turn rename).segments = h.segments.map (Segment.turn rename) := by
  cases h with
  | single leg => rfl
  | fanIn a steps target =>
    rw [turn, segments, segments, List.zipIdx_map, List.map_map, List.map_append, List.map_map]
    rfl
  | fanOut a branches =>
    rw [turn, segments, segments, List.zipIdx_map, List.flatMap_map, List.map_flatMap]
    exact List.flatMap_congr fun place _ => Branch.segments_turn rename a place.1 place.2

theorem Chain.segments_turn (c : Chain) : (c.turn rename).segments = c.segments.map (Segment.turn rename) := by
  rw [segments, segments, turn, List.map_cons, List.flatMap_map, List.map_flatMap]
  exact congrArg _ (List.flatMap_congr fun h _ => Hop.segments_turn rename h)

theorem Segment.markPost_turn (started : Bool) (segs : List Segment) :
    markPost started (segs.map (turn rename)) = (markPost started segs).map (turn rename) := by
  induction segs generalizing started with
  | nil => rfl
  | cons s segs ih =>
    cases s with
    | entity e => exact congrArg _ (ih started)
    | connection c => exact congrArg _ (ih true)

theorem Pattern.segments_turn (p : Pattern) : (p.turn rename).segments = p.segments.map (Segment.turn rename) := by
  rw [segments, segments, turn, List.map_append, List.flatMap_map, List.map_flatMap, Chain.segments_turn]
  refine congrArg _ (List.flatMap_congr fun c _ => ?_)
  rw [Chain.segments_turn, Segment.markPost_turn]

end Segments

theorem Reached.get?_turn (rename : String → String) (r : Reached) (step : Option Int) :
    (r.turn rename).get? step = (r.get? step).map rename := by
  rw [get?, get?, turn]
  induction r.entries with
  | nil => rfl
  | cons entry entries ih =>
    obtain ⟨key, label⟩ := entry
    rw [List.map_cons, List.lookup_cons, List.lookup_cons, ih]
    cases step == key <;> rfl

theorem Reached.set_turn (rename : String → String) (r : Reached) (step : Option Int) (label : String) :
    (r.turn rename).set step (rename label) = (r.set step label).turn rename := by
  rw [set, set, turn, turn, List.filter_map, List.map_cons]
  rfl

theorem Reached.setNew_turn (rename : String → String) (r : Reached) (step : Option Int) (label : String) :
    (r.turn rename).setNew step (rename label) = (r.setNew step label).turn rename := by
  rw [setNew, setNew, get?_turn, Option.isSome_map, set_turn]
  split <;> rfl

namespace Builder

variable {rename : String → String}

section Lookups

variable (injective : Function.Injective rename)

include injective

theorem node?_turn (b : Builder) (isPost : Bool) (label : String) :
    (b.turn rename).node? isPost (rename label) = (b.node? isPost label).map (Node.turn rename) := by
  have same : ((fun n : Node => n.isPost == isPost && n.label == rename label) ∘ Node.turn rename) =
      fun n => n.isPost == isPost && n.label == label := by
    funext n
    rw [Function.comp_apply, Node.turn, Bool.eq_iff_iff]
    simp only [Bool.and_eq_true, beq_iff_eq, injective.eq_iff]
  rw [node?, turn, List.find?_map, same, node?]

theorem lookup_turn (b : Builder) (label : Option String) (isPost : Bool) :
    (b.turn rename).lookup (label.map rename) isPost = (b.lookup label isPost).map (Node.turn rename) := by
  cases label with
  | none => rfl
  | some label =>
    rw [Option.map_some, lookup, lookup, node?_turn injective, node?_turn injective]
    cases isPost with
    | false => rfl
    | true => cases b.node? true label <;> rfl

theorem addNode_turn (b : Builder) (label : String) (isPost : Bool) :
    (b.turn rename).addNode (rename label) isPost = (b.addNode label isPost).turn rename := by
  have known := lookup_turn injective b (some label) isPost
  rw [Option.map_some] at known
  rw [addNode, addNode, known, Option.isSome_map]
  split
  · rfl
  · simp [turn, Node.turn]

theorem introduce_turn (b : Builder) (s : Segment) :
    (b.turn rename).introduce (s.turn rename) = (b.introduce s).turn rename := by
  cases s with
  | entity e => exact addNode_turn injective b e.label e.isPost
  | connection c => rfl

omit injective in
theorem markSource_turn (b : Builder) (position : Nat) :
    (b.turn rename).markSource position = (b.markSource position).turn rename := by
  have nodes : (b.nodes.map (Node.turn rename)).modify position (fun n => { n with role := .source }) =
      (b.nodes.modify position fun n => { n with role := .source }).map (Node.turn rename) := by
    apply List.ext_getElem?
    intro i
    rw [List.getElem?_modify, List.getElem?_map, List.getElem?_map, List.getElem?_modify]
    cases b.nodes[i]? with
    | none => rfl
    | some n => by_cases here : position = i <;> simp [here, Node.turn]
  rw [markSource, markSource, turn, turn, nodes]

theorem withNodes_turn (segs : List Segment) :
    withNodes (segs.map (Segment.turn rename)) = (withNodes segs).turn rename := by
  have introduced : (segs.map (Segment.turn rename)).foldl introduce empty =
      (segs.foldl introduce empty).turn rename := by
    rw [List.foldl_map]
    show segs.foldl (fun b s => b.introduce (s.turn rename)) (empty.turn rename) = _
    exact List.foldl_hom (turn rename) (introduce_turn injective)
  have first (b : Builder) : (b.turn rename).firstMain? = b.firstMain? := by
    rw [firstMain?, turn, List.findIdx?_map]
    rfl
  rw [withNodes, introduced, withNodes]
  simp only [first]
  split
  · exact markSource_turn _ _
  · rfl

end Lookups

section Visits

variable (b : Builder) (e : EntitySegment) (c : ConnectionSegment)

theorem visitEntity_turn : (b.turn rename).visitEntity (e.turn rename) = (b.visitEntity e).turn rename := by
  cases kind : e.branch with
  | none | input => simp only [visitEntity, EntitySegment.turn, kind]; rfl
  | output | continuation =>
    simp only [visitEntity, EntitySegment.turn, kind, turn]
    split <;> simp only [Reached.set_turn]

theorem openGroup_turn : (b.turn rename).openGroup (c.turn rename) = (b.openGroup c).turn rename := by
  have source : (b.groupSource.map rename <|> b.lastLabel.map rename) =
      (b.groupSource <|> b.lastLabel).map rename := by
    cases b.groupSource <;> rfl
  cases kind : c.branch with
  | none => simp only [openGroup, ConnectionSegment.turn, kind]; rfl
  | continuation => simp only [openGroup, ConnectionSegment.turn, kind]
  | input => simp only [openGroup, ConnectionSegment.turn, kind, turn, source]
  | output => simp only [openGroup, ConnectionSegment.turn, kind, turn, source, Reached.setNew_turn]

theorem sourceLabel_turn : (b.turn rename).sourceLabel (c.turn rename) = (b.sourceLabel c).map rename := by
  cases kind : c.branch with
  | none | input | output => simp only [sourceLabel, ConnectionSegment.turn, kind]; rfl
  | continuation =>
    simp only [sourceLabel, ConnectionSegment.turn, kind, turn, Reached.get?_turn]
    cases b.reached.get? c.step <;> rfl

theorem moveOn_turn : (b.turn rename).moveOn (c.turn rename) = (b.moveOn c).turn rename := by
  cases kind : c.branch with
  | none => simp only [moveOn, ConnectionSegment.turn, kind]; rfl
  | input | output => simp only [moveOn, ConnectionSegment.turn, kind]
  | continuation => simp only [moveOn, ConnectionSegment.turn, kind, turn, Reached.set_turn]

theorem edge_turn (index : Nat) (fromLabel : Option String) (fromNode toNode : Option Node) :
    edge index (c.turn rename) (fromLabel.map rename) (fromNode.map (Node.turn rename))
        (toNode.map (Node.turn rename)) =
      (edge index c fromLabel fromNode toNode).turn rename := by
  have direction : FlowDirection.ofArrow c.arrow.flip = (FlowDirection.ofArrow c.arrow).flip := by
    cases c.arrow <;> rfl
  simp only [edge, Edge.turn, ConnectionSegment.turn, Option.map_map, direction]
  rfl

theorem addEdge_turn (e : Edge) : (b.turn rename).addEdge (e.turn rename) = (b.addEdge e).turn rename := by
  have warnings : warningsOf (e.turn rename) = (warningsOf e).map (Warning.turn rename) := by
    rw [warningsOf, warningsOf, Edge.turn, List.map_append]
    congr 1 <;> split <;> rfl
  simp only [addEdge, turn, warnings, List.map_append, List.map_cons, List.map_nil]

theorem visitConnection_turn (injective : Function.Injective rename) :
    (b.turn rename).visitConnection (c.turn rename) = (b.visitConnection c).turn rename := by
  have flow (b : Builder) : (b.turn rename).sourceIsPost (c.turn rename) = b.sourceIsPost c := by
    cases kind : c.branch <;> simp only [sourceIsPost, ConnectionSegment.turn, kind] <;> rfl
  have target (b : Builder) : (b.turn rename).lookup (some (c.turn rename).target) (c.turn rename).isPost =
      (b.lookup (some c.target) c.isPost).map (Node.turn rename) := lookup_turn injective b (some c.target) c.isPost
  have count (b : Builder) : (b.turn rename).edges.length = b.edges.length := List.length_map _
  rw [visitConnection, visitConnection, openGroup_turn]
  simp only [sourceLabel_turn, flow, lookup_turn injective, target, count, edge_turn, addEdge_turn, moveOn_turn]

theorem visit_turn (injective : Function.Injective rename) (s : Segment) :
    (b.turn rename).visit (s.turn rename) = (b.visit s).turn rename := by
  cases s with
  | entity e => exact visitEntity_turn b e
  | connection c => exact visitConnection_turn b c injective

end Visits

theorem roleOf_turn (edges : List Edge) (n : Node) :
    roleOf (edges.map (Edge.turn rename)) (n.turn rename) = roleOf edges n := by
  rw [roleOf, roleOf, List.any_map]
  rfl

theorem targetLastPost_turn (nodes : List Node) :
    targetLastPost (nodes.map (Node.turn rename)) = (targetLastPost nodes).map (Node.turn rename) := by
  induction nodes with
  | nil => rfl
  | cons n nodes ih =>
    have later : (nodes.map (Node.turn rename)).any (·.isPost) = nodes.any (·.isPost) := List.any_map
    rw [List.map_cons, targetLastPost, targetLastPost, later, ih, Node.turn]
    split <;> rfl

theorem assignRoles_turn (b : Builder) : (b.turn rename).assignRoles = b.assignRoles.turn rename := by
  have roles : (b.nodes.map (Node.turn rename)).map
        (fun n => { n with role := roleOf (b.edges.map (Edge.turn rename)) n }) =
      (b.nodes.map fun n => { n with role := roleOf b.edges n }).map (Node.turn rename) := by
    rw [List.map_map, List.map_map]
    refine List.map_congr_left fun n _ => ?_
    simp only [Function.comp_apply, roleOf_turn]
    rfl
  rw [assignRoles, assignRoles, turn, turn, roles, targetLastPost_turn]

/-- A builder does the same with turned segments. -/
theorem build_turn (injective : Function.Injective rename) (segs : List Segment) :
    build (segs.map (Segment.turn rename)) = (build segs).turn rename := by
  rw [build, withNodes_turn injective, List.foldl_map,
    List.foldl_hom (turn rename) fun b s => visit_turn b injective s,
    assignRoles_turn, build]

end Builder

theorem Graph.ofSegments_turn {rename : String → String} (injective : Function.Injective rename)
    (segs : List Segment) :
    ofSegments (segs.map (Segment.turn rename)) = (ofSegments segs).turn rename := by
  rw [ofSegments, Builder.build_turn injective]
  rfl

section Lines

theorem Flow.alike_ofLine (f : Turning) {line : List Char} (clear : Clear line) (k : Int) :
    Alike (turn f.rename) (ofLine k line) (ofLine k (mirror line)) := by
  refine (Pattern.alike_read f clear).map fun p _ => ?_
  rw [ofPattern, Pattern.segments_turn, Graph.ofSegments_turn f.injective, ← f.mirrors clear]
  rfl

theorem Turning.alike_parseLine (f : Turning) {text : String} (clear : Clear text.toList) (k : Int) :
    Alike (Option.map (Flow.turn f.rename)) (parseLine text k) (parseLine (Text.mirrored text) k) := by
  rw [parseLine, parseLine, Text.mirrored, String.toList_ofList, Text.isBlankText_mirror, Text.trim_mirror]
  split
  · exact .ok none
  · exact (Flow.alike_ofLine f (clear.of_isInfix (Text.trim_isInfix _)) k).map fun flow _ => rfl

namespace Turning

/-- Turns the clear texts and renames the others by `g`. -/
def ofUnclear (g : String → String) (injective : Function.Injective g)
    (unclear : ∀ s : String, ¬ Clear s.toList → ¬ Clear (g s).toList) : Turning where
  rename s := if Clear s.toList then Text.mirrored s else g s
  injective := by
    have apart {s s' : String} (clear : Clear s.toList) (unclear' : ¬ Clear s'.toList) :
        Text.mirrored s ≠ g s' := by
      intro same
      refine unclear s' unclear' ?_
      rw [← same, Text.mirrored, String.toList_ofList]
      exact clear.mirror
    intro s s' same
    dsimp only at same
    split at same <;> split at same
    · rename_i clear clear'
      have turned := Text.mirror_mirror clear
      rw [Text.mirrored, Text.mirrored, String.ofList_inj] at same
      rw [same, Text.mirror_mirror clear'] at turned
      exact (String.toList_inj.mp turned).symm
    · exact absurd same (apart ‹_› ‹_›)
    · exact absurd same.symm (apart ‹_› ‹_›)
    · exact injective same
  mirrors := by
    intro cs clear
    rw [String.toList_ofList, if_pos clear, Text.mirrored, String.toList_ofList]

/-- Keeps the texts that are not clear. -/
def keeping : Turning :=
  ofUnclear id Function.injective_id fun _ unclear => unclear

/-- Marks the texts that are not clear. -/
def marking : Turning :=
  ofUnclear (·.push '!') (fun s s' same => by simpa using same) fun s unclear clear =>
    unclear (clear.of_isInfix ⟨[], ['!'], by simp⟩)

/-- The two differ in all texts that are not clear. -/
theorem keeping_eq_mirrored {s : String} (same : keeping.rename s = marking.rename s) :
    keeping.rename s = Text.mirrored s := by
  by_cases clear : Clear s.toList
  · exact if_pos clear
  · have same' : s = s.push '!' := by
      simpa only [keeping, marking, ofUnclear, if_neg clear, id] using same
    have lengths := congrArg String.length same'
    simp at lengths

end Turning

/-- Where the two agree on a flow, its texts are clear. -/
theorem Flow.turn_eq_mirrored {flow : Flow}
    (same : flow.turn Turning.keeping.rename = flow.turn Turning.marking.rename) :
    flow.turn Turning.keeping.rename = flow.turn Text.mirrored := by
  have nodes : flow.nodes.map (Node.turn Turning.keeping.rename) = flow.nodes.map (Node.turn Text.mirrored) := by
    refine List.map_congr_left fun n member => ?_
    have label := List.map_inj_left.mp (congrArg (·.nodes) same) n member
    have label' := Turning.keeping_eq_mirrored (congrArg Node.label label)
    rw [Node.turn, label', Node.turn]
  have edges : flow.edges.map (Edge.turn Turning.keeping.rename) = flow.edges.map (Edge.turn Text.mirrored) := by
    refine List.map_congr_left fun e member => ?_
    have texts := List.map_inj_left.mp (congrArg (·.edges) same) e member
    have toLabel := Turning.keeping_eq_mirrored (congrArg Edge.toLabel texts)
    have protocol := Turning.keeping_eq_mirrored (congrArg Edge.protocol texts)
    have fromLabel : e.fromLabel.map Turning.keeping.rename = e.fromLabel.map Text.mirrored := by
      have same' : e.fromLabel.map Turning.keeping.rename = e.fromLabel.map Turning.marking.rename :=
        congrArg Edge.fromLabel texts
      cases shape : e.fromLabel with
      | none => rfl
      | some label =>
        rw [shape] at same'
        exact congrArg some (Turning.keeping_eq_mirrored (Option.some.inj same'))
    rw [Edge.turn, toLabel, protocol, fromLabel, Edge.turn]
  have text := Turning.keeping_eq_mirrored (congrArg Flow.originalText same)
  rw [turn, Graph.turn, nodes, edges, text, turn, Graph.turn]

/-- A clear line and its mirror are read alike: both are refused for errors of one kind, or their flows differ in
arrows alone. -/
theorem parseLine_mirrored {text : String} (clear : Clear text.toList) (k : Int) :
    Alike (Option.map (Flow.turn Text.mirrored)) (parseLine text k) (parseLine (Text.mirrored text) k) := by
  have kept := Turning.keeping.alike_parseLine clear k
  have marked := Turning.marking.alike_parseLine clear k
  generalize parseLine text k = answer, parseLine (Text.mirrored text) k = answer' at kept marked ⊢
  cases kept with
  | error kinds => exact .error kinds
  | ok flow? =>
    cases flow? with
    | none => exact .ok none
    | some flow =>
      -- Both renamings give the flow of the mirror, so they agree on every text in it.
      have same : flow.turn Turning.keeping.rename = flow.turn Turning.marking.rename :=
        Option.some.inj (Except.ok.inj marked.eq_ok)
      rw [Option.map_some, Flow.turn_eq_mirrored same]
      exact .ok (some flow)

/-- The arrow in the name of a vault is turned with those of the line. -/
theorem parseLine_mirrored_vault :
    Clear "V (a->b) <- X PUSH <- C".toList ∧
      ∃ flow, parseLine "V (a->b) <- X PUSH <- C" 1 = .ok (some flow) ∧
        parseLine "V (a<-b) -> X PUSH -> C" 1 = .ok (some (flow.turn Text.mirrored)) := by
  have clear : Clear "V (a->b) <- X PUSH <- C".toList := by decide +kernel
  have turned : Text.mirrored "V (a->b) <- X PUSH <- C" = "V (a<-b) -> X PUSH -> C" := by decide +kernel
  obtain ⟨p, found⟩ : ∃ p, Pattern.read (Text.trim "V (a->b) <- X PUSH <- C".toList) = .ok p := by
    let p : Pattern := {
      main := { entity := "V (a->b)", hops := [.single { arrow := .reverse, step := ⟨"X", .push⟩, target := "C" }] }
      post := [] }
    have main : p.main.Legible := {
      entity := ⟨⟨by decide, by decide, by decide⟩, by decide⟩
      nonempty := List.cons_ne_nil _ _
      hops := List.forall_mem_singleton.mpr ⟨Step.legible_of_plain (by decide), Text.IsPlain.isName (by decide)⟩
      settled := by
        unfold Pieces.Settled
        decide +kernel }
    have legible : p.Legible := {
      chains := List.forall_mem_singleton.mpr main
      settled := by
        unfold Pieces.Settled
        decide +kernel }
    have line : p.write = Text.trim "V (a->b) <- X PUSH <- C".toList := by decide
    exact ⟨p, line ▸ Pattern.read_write legible⟩
  have solid : Text.isBlankText "V (a->b) <- X PUSH <- C".toList = false := by decide
  obtain ⟨flow, run⟩ : ∃ flow, parseLine "V (a->b) <- X PUSH <- C" 1 = .ok (some flow) := by
    rw [parseLine, solid, if_neg Bool.false_ne_true, Flow.ofLine, found]
    exact ⟨_, rfl⟩
  have alike := parseLine_mirrored clear 1
  rw [run, turned] at alike
  exact ⟨clear, flow, run, alike.eq_ok⟩

end Lines

end TransferFlow
