import TransferFlow.Proofs.OuterMarks
import TransferFlow.Proofs.PlainPatterns
import TransferFlow.Proofs.Regrouping
import TransferFlow.Proofs.Renumbering

namespace TransferFlow

namespace Hop

/-- The entities of a hop, in written order. -/
def entities : Hop → List String
  | .single leg => [leg.target]
  | .fanIn _ _ target => [target]
  | .fanOut _ branches => branches.flatMap fun b => b.target :: b.onward.map Leg.target

/-- Where the connections of a hop lead, in written order. -/
def targets : Hop → List String
  | .single leg => [leg.target]
  | .fanIn _ steps target => steps.map fun _ => target
  | .fanOut _ branches => branches.flatMap fun b => b.target :: b.onward.map Leg.target

theorem mem_targets {h : Hop} (wellFormed : h.WellFormed) {x : String} : x ∈ h.targets ↔ x ∈ h.entities := by
  cases h with
  | single leg => rfl
  | fanOut a branches => rfl
  | fanIn a steps target =>
    obtain ⟨s, some⟩ := List.exists_mem_of_ne_nil steps wellFormed
    rw [targets, entities, List.mem_map, List.mem_singleton]
    exact ⟨fun ⟨_, _, same⟩ => same.symm, fun same => ⟨s, some, same.symm⟩⟩

end Hop

/-- The entities of a chain, in written order. -/
def Chain.entities (c : Chain) : List String :=
  c.entity :: c.hops.flatMap Hop.entities

section Segments

/-- Where a connection leads. -/
def Segment.target? : Segment → Option String
  | .entity _ => none
  | .connection c => some c.target

theorem Segment.map_target (segs : List Segment) :
    (segs.filterMap connection?).map ConnectionSegment.target = segs.filterMap target? := by
  rw [List.map_filterMap]
  refine List.filterMap_congr fun s _ => ?_
  cases s <;> rfl

/-- A branch names the targets of its connections, whether as entities or as targets. -/
theorem Branch.filterMap_segments {f : Segment → Option String}
    (each : ∀ c : ConnectionSegment, c.leg.filterMap f = [c.target]) (a : Arrow) (b : Branch) (position : Int) :
    (b.segments a position).filterMap f = b.target :: b.onward.map Leg.target := by
  have onward (legs : List Leg) : ((legs.map fun l => l.step.connection l.arrow l.target .continuation
      (some position)).flatMap ConnectionSegment.leg).filterMap f = legs.map Leg.target := by
    rw [List.filterMap_flatMap, List.flatMap_map]
    simp only [each]
    exact List.map_eq_flatMap.symm
  rw [segments_eq_block, Block.segments, List.filterMap_append, each, block, onward]
  rfl

theorem Hop.filterMap_fanOut {f : Segment → Option String}
    (each : ∀ c : ConnectionSegment, c.leg.filterMap f = [c.target]) (a : Arrow) (branches : List Branch) :
    (Hop.fanOut a branches).segments.filterMap f =
      branches.flatMap fun b => b.target :: b.onward.map Leg.target := by
  rw [segments, List.filterMap_flatMap]
  simp only [Branch.filterMap_segments each]
  conv_rhs => rw [← List.zipIdx_map_fst 1 branches, List.flatMap_map]

theorem Hop.entities_segments (h : Hop) : h.segments.filterMap Segment.entityLabel? = h.entities := by
  cases h with
  | single leg => rfl
  | fanOut a branches => exact filterMap_fanOut (fun _ => rfl) a branches
  | fanIn a steps target =>
    rw [segments, List.filterMap_append, List.filterMap_map]
    simp [Function.comp_def, Segment.entityLabel?, entities, EntitySegment.plain]

theorem Hop.targets_segments (h : Hop) : h.segments.filterMap Segment.target? = h.targets := by
  cases h with
  | single leg => rfl
  | fanOut a branches => exact filterMap_fanOut (fun _ => rfl) a branches
  | fanIn a steps target =>
    rw [segments, List.filterMap_append, List.filterMap_map]
    simp [Function.comp_def, Segment.target?, targets, Step.connection]

theorem Segment.filterMap_markPost {f : Segment → Option String}
    (labels : ∀ e flag, f (.entity { e with isPost := flag }) = f (.entity e))
    (targets : ∀ c post starts, f (.connection { c with isPost := post, startsPost := starts }) = f (.connection c))
    (started : Bool) (segs : List Segment) : (markPost started segs).filterMap f = segs.filterMap f := by
  induction segs generalizing started with
  | nil => rfl
  | cons s segs ih =>
    cases s with
    | entity e => rw [markPost, List.filterMap_cons, List.filterMap_cons, labels, ih]
    | connection c => rw [markPost, List.filterMap_cons, List.filterMap_cons, targets, ih]

namespace Chain

theorem entities_segments (c : Chain) : c.segments.filterMap Segment.entityLabel? = c.entities := by
  rw [segments, List.filterMap_cons, List.filterMap_flatMap]
  simp only [Hop.entities_segments]
  rfl

theorem targets_segments (c : Chain) : c.segments.filterMap Segment.target? = c.hops.flatMap Hop.targets := by
  rw [segments, List.filterMap_cons, List.filterMap_flatMap]
  simp only [Hop.targets_segments]
  rfl

theorem entities_markPost (c : Chain) :
    (Segment.markPost false c.segments).filterMap Segment.entityLabel? = c.entities := by
  rw [Segment.filterMap_markPost (fun _ _ => rfl) (fun _ _ _ => rfl), entities_segments]

theorem targets_markPost (c : Chain) :
    (Segment.markPost false c.segments).filterMap Segment.target? = c.hops.flatMap Hop.targets := by
  rw [Segment.filterMap_markPost (fun _ _ => rfl) (fun _ _ _ => rfl), targets_segments]

/-- Behind its first entity a chain names what its connections lead to. -/
theorem mem_entities {c : Chain} (wellFormed : c.WellFormed) {x : String} :
    x ∈ c.entities ↔ x = c.entity ∨ x ∈ c.hops.flatMap Hop.targets := by
  rw [entities, List.mem_cons, List.mem_flatMap, List.mem_flatMap]
  refine or_congr_right (exists_congr fun h => and_congr_right fun member => ?_)
  exact (Hop.mem_targets (wellFormed.2 h member)).symm

end Chain

end Segments

open Segment (expectedEdges startOf nearestEntity? nearestTarget? IsChain IsLine Opens plain)

section Starts

/-- What is nearest behind the first texts is found among the others, if there is any there. -/
theorem findSome?_reverse_append {α β : Type} (f : α → Option β) (xs : List α) {ys : List α}
    (some : ∃ y ∈ ys, (f y).isSome) : ∃ y ∈ ys, ∃ b, f y = .some b ∧ (xs ++ ys).reverse.findSome? f = .some b := by
  obtain ⟨y, member, found⟩ := some
  have among : (ys.reverse.findSome? f).isSome :=
    List.findSome?_isSome_iff.mpr ⟨y, List.mem_reverse.mpr member, found⟩
  obtain ⟨b, nearest⟩ := Option.isSome_iff_exists.mp among
  obtain ⟨y', member', found'⟩ := List.exists_of_findSome?_eq_some nearest
  refine ⟨y', List.mem_reverse.mp member', b, found', ?_⟩
  rw [List.reverse_append, List.findSome?_append, nearest]
  rfl

namespace Segment

theorem nearestEntity?_behind {segs : List Segment} {e : EntitySegment} (member : .entity e ∈ segs)
    (outside : e.branch = .none) (before : List Segment) :
    ∃ x ∈ segs.filterMap entityLabel?, nearestEntity? (before ++ segs) = some x := by
  obtain ⟨s, inside, x, found, nearest⟩ := findSome?_reverse_append
    (fun s => match s with
      | .entity e => if e.branch = .none then some e.label else none
      | .connection _ => none) before ⟨_, member, by simp [outside]⟩
  refine ⟨x, List.mem_filterMap.mpr ⟨s, inside, ?_⟩, nearest⟩
  cases s with
  | connection c => cases found
  | entity e =>
    dsimp only at found
    split at found
    · exact found
    · cases found

theorem nearestTarget?_behind {segs : List Segment} {c : ConnectionSegment} (member : .connection c ∈ segs)
    (before : List Segment) : ∃ x ∈ segs.filterMap target?, nearestTarget? (before ++ segs) = some x := by
  obtain ⟨s, inside, x, found, nearest⟩ := findSome?_reverse_append target? before ⟨_, member, rfl⟩
  exact ⟨x, List.mem_filterMap.mpr ⟨s, inside, found⟩, nearest⟩

/-- A connection of a chain starts inside the chain, whatever stands before the chain. -/
theorem start_in_chain {chain pre post : List Segment} {c : ConnectionSegment} {entity : String} {isPost : Bool}
    (shape : plain entity isPost :: chain = pre ++ .connection c :: post) (opens : Opens chain)
    (before : List Segment) :
    ∃ x, startOf (before ++ pre) c = some x ∧ (x ∈ pre.filterMap entityLabel? ∨ x ∈ pre.filterMap target?) := by
  cases pre with
  | nil => cases shape
  | cons s pre =>
    rw [List.cons_append] at shape
    obtain ⟨rfl, rfl⟩ := List.cons_eq_cons.mp shape
    unfold startOf
    split
    · rename_i continues
      -- The first connection of the chain is no continuation, so one of the chain stands before this one.
      have begun : pre.filterMap connection? ≠ [] := by
        intro none
        refine opens c ?_ continues
        rw [List.filterMap_append, none]
        rfl
      obtain ⟨c', member⟩ := List.exists_mem_of_ne_nil _ begun
      obtain ⟨s, inside, same⟩ := List.mem_filterMap.mp member
      cases s with
      | entity e => cases same
      | connection c'' =>
        obtain ⟨x, member, nearest⟩ :=
          nearestTarget?_behind (List.mem_cons_of_mem (plain entity isPost) inside) before
        exact ⟨x, nearest, .inr member⟩
    · have atStart : plain entity isPost ∈ plain entity isPost :: pre := List.mem_cons_self
      obtain ⟨x, member, nearest⟩ := nearestEntity?_behind atStart rfl before
      exact ⟨x, nearest, .inl member⟩

end Segment

end Starts

section Edges

variable (look : Option String → Bool → Option Node) (index : Nat) (before : List Segment)

/-- What an edge copies from its connection can be read off the connections. -/
theorem Segment.map_expectedEdges {β : Type} {f : Edge → β} {g : ConnectionSegment → β}
    (copies : ∀ i c label m n, f (Builder.edge i c label m n) = g c) (segs : List Segment) :
    (expectedEdges look index before segs).map f = (segs.filterMap connection?).map g := by
  induction segs generalizing index before with
  | nil => rfl
  | cons s segs ih =>
    cases s with
    | entity e => exact ih _ _
    | connection c => exact List.cons_eq_cons.mpr ⟨copies .., ih _ _⟩

theorem Segment.expectedEdges_flatMap {α : Type} (f : α → List Segment) (xs : List α) :
    ∃ pieces, expectedEdges look index before (xs.flatMap f) = List.flatten pieces ∧
      List.Forall₂ (fun x es => ∃ i b, es = expectedEdges look i b (f x)) xs pieces := by
  induction xs generalizing index before with
  | nil => exact ⟨[], rfl, .nil⟩
  | cons x xs ih =>
    rw [List.flatMap_cons, expectedEdges_append]
    obtain ⟨pieces, flat, each⟩ := ih (index + ((f x).filterMap connection?).length) (before ++ f x)
    exact ⟨_ :: pieces, by rw [flat, List.flatten_cons], .cons ⟨index, before, rfl⟩ each⟩

/-- The edges of a post-processing chain. The first one leaves the entity of the chain and starts its
post-processing, and all of them stay among the entities of the chain. -/
structure Chain.PostEdges (c : Chain) (es : List Edge) : Prop where
  isPost : ∀ e ∈ es, e.isPost = true
  starts : ∃ first later, es = first :: later ∧ first.startsPost = true ∧ first.fromLabel = some c.entity ∧
    ∀ e ∈ later, e.startsPost = false
  targets : es.map Edge.toLabel = c.hops.flatMap Hop.targets
  inside : ∀ e ∈ es, ∃ x ∈ c.entities, e.fromLabel = some x

theorem Chain.postEdges {c : Chain} (wellFormed : c.WellFormed) :
    c.PostEdges (expectedEdges look index before (Segment.markPost false c.segments)) := by
  obtain ⟨first, rest, shape⟩ : ∃ first rest, Segment.markPost false c.segments =
      plain c.entity true :: .connection first :: rest := by
    obtain ⟨first, rest, hops, shape, _⟩ := segments_cons wellFormed
    rw [shape, Segment.plain, Segment.markPost_chain]
    exact ⟨_, _, rfl⟩
  have isChain := isChain_markPost wellFormed
  have opens : Opens (.connection first :: rest) := by
    have opens := Segment.opens_markPost c.opens_segments false
    rwa [shape] at opens
  constructor
  · intro e member
    obtain ⟨pre, c', post, place, rfl⟩ := Segment.mem_expectedEdges.mp member
    exact isChain.isPost_connection (place ▸ List.mem_append_right pre List.mem_cons_self)
  · obtain ⟨flags, starts, later⟩ := isChain.starts
    rw [← Segment.map_expectedEdges look index before (f := Edge.startsPost) fun _ _ _ _ _ => rfl] at starts
    rw [shape, plain, expectedEdges, expectedEdges] at starts ⊢
    rw [List.map_cons] at starts
    obtain ⟨flag, rfl⟩ := List.cons_eq_cons.mp starts
    refine ⟨_, _, rfl, flag, ?_, fun e member => later _ (List.mem_map_of_mem member)⟩
    show startOf (before ++ [plain c.entity true]) first = some c.entity
    unfold startOf
    split
    · rename_i continues
      exact absurd continues (opens first rfl)
    · exact Segment.nearestEntity?_plain before c.entity true
  · rw [Segment.map_expectedEdges look index before (g := ConnectionSegment.target) fun _ _ _ _ _ => rfl,
      Segment.map_target, targets_markPost]
  · intro e member
    obtain ⟨pre, c', post, place, rfl⟩ := Segment.mem_expectedEdges.mp member
    have early {f : Segment → Option String} {x : String} (named : x ∈ pre.filterMap f) :
        x ∈ (Segment.markPost false c.segments).filterMap f := by
      rw [place, List.filterMap_append]
      exact List.mem_append_left _ named
    obtain ⟨x, start, named⟩ := Segment.start_in_chain (shape.symm.trans place) opens before
    refine ⟨x, ?_, start⟩
    rcases named with entity | target
    · rw [← c.entities_markPost]
      exact early entity
    · rw [mem_entities wellFormed, ← c.targets_markPost]
      exact .inr (early target)

/-- The ends of the edges of a post-processing chain are the entities of the chain. -/
theorem Chain.PostEdges.mem_entities {c : Chain} {es : List Edge} (edges : c.PostEdges es)
    (wellFormed : c.WellFormed)
    {x : String} : x ∈ c.entities ↔ ∃ e ∈ es, e.fromLabel = some x ∨ e.toLabel = x := by
  rw [Chain.mem_entities wellFormed]
  constructor
  · rintro (rfl | target)
    · obtain ⟨first, later, rfl, _, start, _⟩ := edges.starts
      exact ⟨first, List.mem_cons_self, .inl start⟩
    · rw [← edges.targets] at target
      obtain ⟨e, member, label⟩ := List.mem_map.mp target
      exact ⟨e, member, .inr label⟩
  · rintro ⟨e, member, start | rfl⟩
    · obtain ⟨x', named, start'⟩ := edges.inside e member
      obtain rfl := Option.some.inj (start.symm.trans start')
      exact (Chain.mem_entities wellFormed).mp named
    · rw [← edges.targets]
      exact .inr (List.mem_map_of_mem member)

theorem Chain.PostEdges.countP_startsPost {c : Chain} {es : List Edge} (edges : c.PostEdges es) :
    es.countP (·.startsPost) = 1 := by
  obtain ⟨first, later, rfl, starts, _, continues⟩ := edges.starts
  rw [List.countP_cons_of_pos starts, List.countP_eq_zero.mpr]
  intro e member
  rw [continues e member]
  exact Bool.false_ne_true

namespace Pattern

variable {p : Pattern} (wellFormed : p.WellFormed)

include wellFormed

/-- The edges of the main chain come first, and those of the post-processing chains follow chain by chain. -/
theorem edges_by_chain : ∃ main post, (Graph.ofSegments p.segments).edges = main ++ List.flatten post ∧
    (∀ e ∈ main, e.isPost = false ∧ e.startsPost = false) ∧ List.Forall₂ Chain.PostEdges p.post post := by
  have edges := (Builder.build_line (isLine_segments wellFormed)).1
  rw [segments, Segment.expectedEdges_append] at edges
  obtain ⟨post, flat, each⟩ := Segment.expectedEdges_flatMap _ _ _
    (fun c : Chain => Segment.markPost false c.segments) p.post
  rw [flat] at edges
  refine ⟨_, post, edges, ?_, ?_⟩
  · intro e member
    obtain ⟨pre, c, behind, place, rfl⟩ := Segment.mem_expectedEdges.mp member
    have inMain : .connection c ∈ p.main.segments := place ▸ List.mem_append_right pre List.mem_cons_self
    have isChain := Chain.isChain_segments (wellFormed p.main List.mem_cons_self)
    exact ⟨isChain.isPost_connection inMain, Chain.startsPost_segments inMain⟩
  · have both := (List.forall₂_and_left _ _).mpr
      ⟨fun c member => wellFormed c (List.mem_cons_of_mem _ member), each⟩
    refine both.imp fun c es => ?_
    rintro ⟨chain, i, b, rfl⟩
    exact Chain.postEdges _ i b chain

theorem touches_iff {n : Node} {e : Edge} (member : n ∈ (Graph.ofSegments p.segments).nodes)
    (inside : e ∈ (Graph.ofSegments p.segments).edges) :
    e.touches n.id = true ↔ e.fromLabel = some n.label ∨ e.toLabel = n.label := by
  have line := isLine_segments wellFormed
  have same {m : Node} (member' : m ∈ (Graph.ofSegments p.segments).nodes) : m.id = n.id ↔ m.label = n.label := by
    constructor
    · intro id
      rw [Builder.eq_of_id member' member id]
    · intro label
      rw [List.inj_on_of_nodup_map (Builder.labels_build_line line) member' member label]
  obtain ⟨m, atStart, m', atEnd, fromLabel, fromId, toLabel, toId, _⟩ := Builder.ends_of_edge line inside
  rw [Edge.touches, Bool.or_eq_true, beq_iff_eq, beq_iff_eq, fromId, toId, fromLabel, toLabel, Option.some_inj,
    Option.some_inj, Option.some_inj, same atStart, same atEnd]

omit wellFormed in
theorem mainLabels_eq (p : Pattern) : p.mainLabels = p.main.entities :=
  p.main.entities_segments

omit wellFormed in
theorem postLabels_eq (p : Pattern) :
    p.postLabels = ((p.post.flatMap Chain.entities).removeAll p.main.entities).eraseDups := by
  rw [postLabels, mainLabels_eq, List.filterMap_flatMap]
  simp only [Chain.entities_markPost]

/-- The nodes of the main flow are the entities of the main chain, and post-processing has those that
its chains name besides. -/
theorem labels_by_flow :
    ((Graph.ofSegments p.segments).nodes.filter (!·.isPost)).map Node.label = p.main.entities.eraseDups ∧
    ((Graph.ofSegments p.segments).nodes.filter (·.isPost)).map Node.label =
      ((p.post.flatMap Chain.entities).removeAll p.main.entities).eraseDups := by
  have named : ∀ n ∈ (Graph.ofSegments p.segments).nodes, n.isPost = decide (n.label ∉ p.mainLabels) := by
    intro n member
    rw [Bool.eq_iff_iff, ← not_iff_not, Bool.not_eq_true, isPost_iff wellFormed member]
    simp
  have kept (keep : Bool → Bool) :
      ((Graph.ofSegments p.segments).nodes.filter fun n => keep n.isPost).map Node.label =
      (p.mainLabels.eraseDups.filter fun label => keep (decide (label ∉ p.mainLabels))) ++
        p.postLabels.filter fun label => keep (decide (label ∉ p.mainLabels)) := by
    rw [← List.filter_append, ← labels_nodes wellFormed, List.filter_map]
    refine congrArg _ (List.filter_congr fun n member => ?_)
    rw [named n member]
    rfl
  have inMain (keep : Bool → Bool) : ∀ label ∈ p.mainLabels.eraseDups,
      keep (decide (label ∉ p.mainLabels)) = keep false := fun label member => by
    rw [decide_eq_false (not_not_intro (List.mem_eraseDups.mp member))]
  have own (keep : Bool → Bool) : ∀ label ∈ p.postLabels,
      keep (decide (label ∉ p.mainLabels)) = keep true := fun label member => by
    rw [decide_eq_true (not_mem_mainLabels member)]
  rw [← postLabels_eq, ← mainLabels_eq]
  constructor
  · rw [kept (!·), List.filter_congr (inMain (!·)), List.filter_congr (own (!·))]
    simp
  · show ((Graph.ofSegments p.segments).nodes.filter fun n => id n.isPost).map Node.label = _
    rw [kept id, List.filter_congr (inMain id), List.filter_congr (own id)]
    simp

/-- A main node is touched by post-processing if a post-processing chain names it. -/
theorem bridges_eq :
    (Graph.ofSegments p.segments).bridges = (Graph.ofSegments p.segments).nodes.filter fun n =>
      n.label ∈ p.main.entities && n.label ∈ p.post.flatMap Chain.entities := by
  obtain ⟨main, post, edges, inMain, each⟩ := edges_by_chain wellFormed
  have isPost {e : Edge} : e ∈ (Graph.ofSegments p.segments).edges ∧ e.isPost = true ↔ e ∈ post.flatten := by
    rw [edges, List.mem_append]
    constructor
    · rintro ⟨member | member, flag⟩
      · rw [(inMain e member).1] at flag
        cases flag
      · exact member
    · intro member
      obtain ⟨es, inside, within⟩ := List.mem_flatten.mp member
      obtain ⟨c, _, chain⟩ := forall₂_mem_right each inside
      exact ⟨.inr member, chain.isPost e within⟩
  refine List.filter_congr fun n member => ?_
  have main : (!n.isPost) = decide (n.label ∈ p.main.entities) := by
    rw [Bool.eq_iff_iff, Bool.not_eq_true', isPost_iff wellFormed member, mainLabels_eq, decide_eq_true_iff]
  have touched : ((Graph.ofSegments p.segments).edges.any fun e => e.isPost && e.touches n.id) =
      decide (n.label ∈ p.post.flatMap Chain.entities) := by
    rw [Bool.eq_iff_iff, List.any_eq_true, decide_eq_true_iff, List.mem_flatMap]
    simp only [Bool.and_eq_true]
    constructor
    · rintro ⟨e, inside, flag, touches⟩
      obtain ⟨es, ofChain, within⟩ := List.mem_flatten.mp (isPost.mp ⟨inside, flag⟩)
      obtain ⟨c, inPost, chain⟩ := forall₂_mem_right each ofChain
      refine ⟨c, inPost, (chain.mem_entities (wellFormed c (List.mem_cons_of_mem _ inPost))).mpr ⟨e, within, ?_⟩⟩
      exact (touches_iff wellFormed member inside).mp touches
    · rintro ⟨c, inPost, named⟩
      obtain ⟨es, ofChain, chain⟩ := forall₂_mem_left each inPost
      obtain ⟨e, within, ends⟩ := (chain.mem_entities (wellFormed c (List.mem_cons_of_mem _ inPost))).mp named
      obtain ⟨inside, flag⟩ := isPost.mpr (List.mem_flatten.mpr ⟨es, ofChain, within⟩)
      exact ⟨e, inside, flag, (touches_iff wellFormed member inside).mpr ends⟩
  rw [main, touched]

end Pattern

end Edges

/-- In the flow of a line the edges of post-processing come behind all others, chain by chain, and the first edge of
each chain is marked: there are as many marked edges as marks `>>` outside the groups of the line. The nodes of the
main flow are the entities of the main chain, and post-processing has a node for each other entity that its chains
name. The nodes where the two flows meet are those of the main entities that a post-processing chain names too. -/
theorem bridges_of_parseLine {text : String} {k : Int} {flow : Flow} (run : parseLine text k = .ok (some flow)) :
    ∃ p main post, Pattern.read (Text.trim text.toList) = .ok p ∧
      flow.edges = main ++ List.flatten post ∧ (∀ e ∈ main, e.isPost = false ∧ e.startsPost = false) ∧
      List.Forall₂ Chain.PostEdges p.post post ∧
      flow.edges.countP (·.startsPost) = Token.outerMarks (Token.lex text.toList) ∧
      (flow.nodes.filter (!·.isPost)).map Node.label = p.main.entities.eraseDups ∧
      (flow.nodes.filter (·.isPost)).map Node.label =
        ((p.post.flatMap Chain.entities).removeAll p.main.entities).eraseDups ∧
      flow.bridges = flow.nodes.filter fun n =>
        n.label ∈ p.main.entities && n.label ∈ p.post.flatMap Chain.entities := by
  rw [parseLine] at run
  split at run
  · cases run
  obtain ⟨_, read, ⟨⟩⟩ := map_eq_ok.mp run
  obtain ⟨p, found, rfl⟩ := map_eq_ok.mp read
  have wellFormed := Pattern.wellFormed_of_read found
  obtain ⟨main, post, edges, inMain, each⟩ := Pattern.edges_by_chain wellFormed
  obtain ⟨ofMain, ofPost⟩ := Pattern.labels_by_flow wellFormed
  refine ⟨p, main, post, found, edges, inMain, each, ?_, ofMain, ofPost, Pattern.bridges_eq wellFormed⟩
  have chains := (Pattern.read_eq_ok.mp found).length_eq
  rw [Pieces.trim_parts_cut fun _ => rfl, List.length_map, Pieces.parts, List.length_cons, List.length_map,
    Pieces.length_rest_cut_post, Pattern.chains, List.length_cons, Nat.add_right_cancel_iff] at chains
  have starts : (post.map fun es => es.countP (·.startsPost)).sum = post.length := by
    rw [List.map_congr_left (g := fun _ => 1) fun es member => ?_]
    · simp
    · obtain ⟨c, _, chain⟩ := forall₂_mem_right each member
      exact chain.countP_startsPost
  show (Graph.ofSegments p.segments).edges.countP _ = _
  rw [edges, List.countP_append, List.countP_flatten, starts, chains, ← each.length_eq, List.countP_eq_zero.mpr,
    Nat.zero_add]
  intro e member
  rw [(inMain e member).2]
  exact Bool.false_ne_true

/-- Both post-processing chains start at nodes of other chains, and the first one with a group that leads back. -/
theorem bridges_of_parseLine_shared :
    ∃ flow, parseLine "A -> (X PUSH & Y PULL) -> B >> B -> (P PUSH -> C & Q PULL -> A) >> C -> R PUSH -> D" 1 =
        .ok (some flow) ∧ flow.edges.countP (·.startsPost) = 2 ∧
      (flow.nodes.filter (!·.isPost)).map Node.label = ["A", "B"] ∧
      (flow.nodes.filter (·.isPost)).map Node.label = ["C", "D"] ∧
      flow.bridges = flow.nodes.filter fun n => n.label ∈ ["A", "B"] && n.label ∈ ["B", "C", "A", "C", "D"] := by
  obtain ⟨p, found, main, post⟩ : ∃ p, Pattern.read (Text.trim
      "A -> (X PUSH & Y PULL) -> B >> B -> (P PUSH -> C & Q PULL -> A) >> C -> R PUSH -> D".toList) = .ok p ∧
        p.main.entities = ["A", "B"] ∧ p.post.flatMap Chain.entities = ["B", "C", "A", "C", "D"] := by
    let p : Pattern := {
      main := { entity := "A", hops := [.fanIn .forward [⟨"X", .push⟩, ⟨"Y", .pull⟩] "B"] }
      post := [
        { entity := "B", hops := [.fanOut .forward [
          { step := ⟨"P", .push⟩, target := "C", onward := [] },
          { step := ⟨"Q", .pull⟩, target := "A", onward := [] }]] },
        { entity := "C", hops := [.single { arrow := .forward, step := ⟨"R", .push⟩, target := "D" }] }] }
    have line : p.write = Text.trim
        "A -> (X PUSH & Y PULL) -> B >> B -> (P PUSH -> C & Q PULL -> A) >> C -> R PUSH -> D".toList := by decide
    exact ⟨p, line ▸ Pattern.read_write (Pattern.legible_of_plain (by decide) (by decide)), rfl, rfl⟩
  have solid : Text.isBlankText
      "A -> (X PUSH & Y PULL) -> B >> B -> (P PUSH -> C & Q PULL -> A) >> C -> R PUSH -> D".toList = false := by
    decide
  have marks : Token.outerMarks (Token.lex
      "A -> (X PUSH & Y PULL) -> B >> B -> (P PUSH -> C & Q PULL -> A) >> C -> R PUSH -> D".toList) = 2 := by decide
  obtain ⟨flow, run⟩ : ∃ flow, parseLine
      "A -> (X PUSH & Y PULL) -> B >> B -> (P PUSH -> C & Q PULL -> A) >> C -> R PUSH -> D" 1 =
        .ok (some flow) := by
    rw [parseLine, solid, if_neg Bool.false_ne_true, Flow.ofLine, found]
    exact ⟨_, rfl⟩
  obtain ⟨p', _, _, found', _, _, _, starts, ofMain, ofPost, bridges⟩ := bridges_of_parseLine run
  obtain rfl : p = p' := Except.ok.inj (found.symm.trans found')
  rw [main] at ofMain ofPost bridges
  rw [post] at ofPost bridges
  exact ⟨flow, run, starts.trans marks, ofMain.trans (by decide), ofPost.trans (by decide), bridges⟩

end TransferFlow
