import TransferFlow.Proofs.GroupPlaces
import TransferFlow.Proofs.Renumbering

namespace TransferFlow

open Segment (drawn Opens withStep)

/-- The position that the branch at position `i` of the new order had in the old one, both counted from one. -/
def oldPosition (order : List Nat) (i : Int) : Int :=
  match order[(i - 1).toNat]? with
  | some k => k + 1
  | none => i

/-- Graphs that are the same but for numbering. The `count` edges behind the first `start` come in another order in
`g'`, and `f` gives them the positions that they have in `g`. -/
structure Graph.Renumbers (g g' : Graph) (start count : Nat) (f : Int → Int) : Prop where
  nodes : (g'.nodes.map Node.unnumbered).Perm (g.nodes.map Node.unnumbered)
  early : (g'.edges.take start).map Edge.unnumbered = (g.edges.take start).map Edge.unnumbered
  group : (((g'.edges.drop start).take count).map fun e => (e.withStep f).unnumbered).Perm
    (((g.edges.drop start).take count).map Edge.unnumbered)
  late : (g'.edges.drop (start + count)).map Edge.unnumbered = (g.edges.drop (start + count)).map Edge.unnumbered

section Positions

variable {α : Type} {order : List Nat} {xs : List α}

theorem getElem?_reordered (inside : ∀ k ∈ order, k < xs.length) (j : Nat) :
    (reordered order xs)[j]? = order[j]?.bind (xs[·]?) := by
  induction order generalizing j with
  | nil => rfl
  | cons k order ih =>
    obtain ⟨atHead, atTail⟩ := List.forall_mem_cons.mp inside
    rw [reordered, List.filterMap_cons, List.getElem?_eq_getElem atHead]
    cases j with
    | zero => exact (List.getElem?_eq_getElem atHead).symm
    | succ j => exact ih atTail j

/-- In another order every element keeps its old position, if that is looked up. -/
theorem zipIdx_reordered (perm : order.Perm (List.range xs.length)) :
    ((reordered order xs).zipIdx 1).map (fun (x, i) => (x, oldPosition order (i : Int))) =
      reordered order ((xs.zipIdx 1).map fun (x, i) => (x, (i : Int))) := by
  have inside : ∀ k ∈ order, k < xs.length := fun k member => List.mem_range.mp (perm.subset member)
  apply List.ext_getElem?
  intro j
  rw [getElem?_reordered (by simpa using inside), List.getElem?_map, List.getElem?_zipIdx,
    getElem?_reordered inside,
    Option.map_map]
  cases atPlace : order[j]? with
  | none => rfl
  | some k =>
    have position : oldPosition order ((1 + j : Nat) : Int) = ((1 + k : Nat) : Int) := by
      have back : (((1 + j : Nat) : Int) - 1).toNat = j := by omega
      rw [oldPosition, back, atPlace]
      push_cast
      omega
    rw [Option.bind_some, Option.bind_some, List.getElem?_map, List.getElem?_zipIdx, Option.map_map]
    congr 1
    funext x
    exact congrArg (Prod.mk x) position

end Positions

namespace Pattern

/-- The pattern with other hops in its main chain. -/
def withHops (p : Pattern) (hops : List Hop) : Pattern :=
  { p with main := { p.main with hops } }

variable {p : Pattern} {early late : List Hop} {a : Arrow} {branches : List Branch} {order : List Nat}

/-- The segments in front of a hop. -/
def segmentsBefore (p : Pattern) (early : List Hop) : List Segment :=
  .entity (.plain p.main.entity) :: early.flatMap Hop.segments

/-- The segments behind a hop. -/
def segmentsBehind (p : Pattern) (late : List Hop) : List Segment :=
  late.flatMap Hop.segments ++ p.post.flatMap fun c => Segment.markPost false c.segments

theorem segments_withHops (p : Pattern) (early : List Hop) (h : Hop) (late : List Hop) :
    (p.withHops (early ++ h :: late)).segments =
    p.segmentsBefore early ++ (h.segments ++ p.segmentsBehind late) := by
  simp [segments, withHops, segmentsBefore, segmentsBehind, Chain.segments]

theorem opens_segmentsBehind (p : Pattern) (late : List Hop) : Opens (p.segmentsBehind late) :=
  (Segment.opens_flatMap fun h _ => h.opens_segments).append
    (Segment.opens_flatMap fun c _ => Segment.opens_markPost c.opens_segments false)

/-- What the branches of a fan-out draw, each at its position. -/
def drawnBranches (p : Pattern) (early : List Hop) (a : Arrow) (places : List (Branch × Int)) : List Edge :=
  places.flatMap fun (b, i) => drawn (p.segmentsBefore early) (b.segments a i)

/-- The branches of a fan-out with their positions. -/
def places (branches : List Branch) : List (Branch × Int) :=
  (branches.zipIdx 1).map fun (b, i) => (b, (i : Int))

theorem drawn_fanOut (p : Pattern) (early : List Hop) (a : Arrow) (branches : List Branch) :
    drawn (p.segmentsBefore early) (Hop.fanOut a branches).segments =
        p.drawnBranches early a (places branches) := by
  rw [drawnBranches, places, List.flatMap_map, Hop.segments, Branch.drawn_segments]

/-- The edges of a line are those before a fan-out, those of its branches and those behind it, which do
not depend on its branches. -/
theorem edges_unnumbered (wellFormed : (p.withHops (early ++ .fanOut a branches :: late)).WellFormed) :
    (Graph.ofSegments (p.withHops (early ++ .fanOut a branches :: late)).segments).edges.map Edge.unnumbered =
      drawn [] (p.segmentsBefore early) ++ (p.drawnBranches early a (places branches) ++
        drawn (p.segmentsBefore early) (p.segmentsBehind late)) := by
  have edges := (Builder.build_line (isLine_segments wellFormed)).1
  have behind : drawn (p.segmentsBefore early ++ (Hop.fanOut a branches).segments) (p.segmentsBehind late) =
      drawn (p.segmentsBefore early) (p.segmentsBehind late) := by
    refine Segment.drawn_congr (Segment.nearestEntity?_append ?_ _) (.inr (p.opens_segmentsBehind late))
    intro e member
    obtain ⟨⟨b, i⟩, _, inside⟩ := List.mem_flatMap.mp member
    exact Branch.branch_of_mem_segments inside
  rw [Graph.ofSegments, Builder.graph, edges, Segment.map_unnumbered, segments_withHops, Segment.drawn_append,
    Segment.drawn_append, List.nil_append, behind, drawn_fanOut]

/-- Branches in another order draw the same edges, at the old positions. -/
theorem drawnBranches_reordered (perm : order.Perm (List.range branches.length)) :
    ((p.drawnBranches early a (places (reordered order branches))).map (Edge.withStep (oldPosition order))).Perm
      (p.drawnBranches early a (places branches)) := by
  have each (b : Branch) (i : Int) :
      (drawn (p.segmentsBefore early) (b.segments a i)).map (Edge.withStep (oldPosition order)) =
        drawn (p.segmentsBefore early) (b.segments a (oldPosition order i)) := by
    rw [Segment.map_withStep_drawn _ rfl (.inl rfl), Branch.map_withStep_segments]
  have positions : (places (reordered order branches)).map (fun (b, i) => (b, oldPosition order i)) =
      reordered order (places branches) := by
    rw [places, List.map_map]
    exact zipIdx_reordered perm
  have moved : (p.drawnBranches early a (places (reordered order branches))).map
      (Edge.withStep (oldPosition order)) = p.drawnBranches early a (reordered order (places branches)) := by
    rw [← positions, drawnBranches, drawnBranches, List.map_flatMap, List.flatMap_map]
    simp only [each]
  rw [moved]
  refine (perm_reordered ?_).flatMap_right _
  rwa [places, List.length_map, List.length_zipIdx]

section Nodes

/-- The main chain names the same entities as often. -/
theorem perm_mainLabels (perm : order.Perm (List.range branches.length)) :
    (p.withHops (early ++ .fanOut a (reordered order branches) :: late)).mainLabels.Perm
      (p.withHops (early ++ .fanOut a branches :: late)).mainLabels := by
  have label (f : Int → Int) (s : Segment) : (withStep f s).entityLabel? = s.entityLabel? := by
    cases s <;> rfl
  have each (b : Branch) (i : Int) : (b.segments a i).filterMap Segment.entityLabel? =
      (b.segments a 0).filterMap Segment.entityLabel? := by
    rw [← Branch.map_withStep_segments (fun _ => i) a b 0, List.filterMap_map]
    simp only [Function.comp_def, label]
  have group (branches : List Branch) : (Hop.fanOut a branches).segments.filterMap Segment.entityLabel? =
      branches.flatMap fun b => (b.segments a 0).filterMap Segment.entityLabel? := by
    conv_rhs => rw [← List.zipIdx_map_fst 1 branches, List.flatMap_map]
    rw [Hop.segments, List.filterMap_flatMap]
    simp only [each]
  have labels (branches : List Branch) : (p.withHops (early ++ .fanOut a branches :: late)).mainLabels =
      (p.segmentsBefore early).filterMap Segment.entityLabel? ++
        ((branches.flatMap fun b => (b.segments a 0).filterMap Segment.entityLabel?) ++
          (late.flatMap Hop.segments).filterMap Segment.entityLabel?) := by
    rw [← group, ← List.filterMap_append, ← List.filterMap_append]
    simp [mainLabels, withHops, Chain.segments, segmentsBefore]
  rw [labels, labels]
  exact (((perm_reordered perm).flatMap_right _).append_right _).append_left _

/-- Patterns with the same entities, whose edges leave the same labels, have the same nodes. -/
theorem perm_nodes {p p' : Pattern} (wellFormed : p.WellFormed) (wellFormed' : p'.WellFormed)
    (entity : p'.main.entity = p.main.entity) (post : p'.post = p.post) (labels : p'.mainLabels.Perm p.mainLabels)
    (leaves : ∀ label, Leaves (Graph.ofSegments p'.segments).edges label ↔
      Leaves (Graph.ofSegments p.segments).edges label) :
    ((Graph.ofSegments p'.segments).nodes.map Node.unnumbered).Perm
      ((Graph.ofSegments p.segments).nodes.map Node.unnumbered) := by
  have named (label : String) : label ∈ p'.mainLabels ↔ label ∈ p.mainLabels := labels.mem_iff
  have elem (label : String) : p'.mainLabels.elem label = p.mainLabels.elem label := by
    rw [Bool.eq_iff_iff, List.elem_iff, List.elem_iff]
    exact named label
  have own : p'.postLabels = p.postLabels := by
    rw [postLabels, postLabels, post, List.removeAll, List.removeAll]
    simp only [elem]
  have view : p'.nodeOf (Graph.ofSegments p'.segments).edges = p.nodeOf (Graph.ofSegments p.segments).edges := by
    funext label
    unfold nodeOf
    simp only [entity, named, own, leaves]
  have distinct : p'.mainLabels.eraseDups.Perm p.mainLabels.eraseDups := by
    rw [List.perm_ext_iff_of_nodup (nodup_eraseDups _) (nodup_eraseDups _)]
    simp only [List.mem_eraseDups, named, implies_true]
  rw [nodes_unnumbered wellFormed, nodes_unnumbered wellFormed', view, own]
  exact (distinct.append_right _).map _

end Nodes

section Leaves

variable {edges : List Edge} {label : String}

/-- Whether an edge leaves a label does not depend on numbering. -/
theorem leaves_map {f : Edge → Edge} (kept : ∀ e, (f e).isPost = e.isPost ∧ (f e).fromLabel = e.fromLabel) :
    Leaves (edges.map f) label ↔ Leaves edges label := by
  constructor
  · rintro ⟨_, member, main, start⟩
    obtain ⟨e, inside, rfl⟩ := List.mem_map.mp member
    exact ⟨e, inside, (kept e).1 ▸ main, (kept e).2 ▸ start⟩
  · rintro ⟨e, inside, main, start⟩
    exact ⟨f e, List.mem_map_of_mem inside, (kept e).1.trans main, (kept e).2.trans start⟩

theorem leaves_append {edges' : List Edge} :
    Leaves (edges ++ edges') label ↔ Leaves edges label ∨ Leaves edges' label := by
  simp only [Leaves, List.mem_append, or_and_right, exists_or]

end Leaves

/-- Three stretches of a list, told by their lengths. -/
theorem stretches_of_map {α β : Type} {f : α → β} {xs : List α} {early group late : List β}
    (whole : xs.map f = early ++ (group ++ late)) :
    (xs.take early.length).map f = early ∧ ((xs.drop early.length).take group.length).map f = group ∧
      (xs.drop (early.length + group.length)).map f = late := by
  rw [List.map_take, List.map_take, List.map_drop, List.map_drop, whole, List.take_left, List.drop_left,
    List.take_left, ← List.drop_drop, List.drop_left, List.drop_left]
  exact ⟨rfl, rfl, rfl⟩

/-- The graphs of two orders of the same branches. -/
theorem renumbers_reordered (wellFormed : (p.withHops (early ++ .fanOut a branches :: late)).WellFormed)
    (wellFormed' : (p.withHops (early ++ .fanOut a (reordered order branches) :: late)).WellFormed)
    (perm : order.Perm (List.range branches.length)) :
    Graph.Renumbers (.ofSegments (p.withHops (early ++ .fanOut a branches :: late)).segments)
      (.ofSegments (p.withHops (early ++ .fanOut a (reordered order branches) :: late)).segments)
      ((early.flatMap Hop.segments).filterMap Segment.connection?).length
      ((Hop.fanOut a branches).segments.filterMap Segment.connection?).length (oldPosition order) := by
  have edges := edges_unnumbered wellFormed
  have edges' := edges_unnumbered wellFormed'
  have moved := @drawnBranches_reordered p early a branches order perm
  have start : ((early.flatMap Hop.segments).filterMap Segment.connection?).length =
      (drawn [] (p.segmentsBefore early)).length := by
    rw [Segment.length_drawn]
    rfl
  have count : ((Hop.fanOut a branches).segments.filterMap Segment.connection?).length =
      (p.drawnBranches early a (places branches)).length := by
    rw [← drawn_fanOut, Segment.length_drawn]
  have count' : (p.drawnBranches early a (places (reordered order branches))).length =
      (p.drawnBranches early a (places branches)).length := by
    rw [← moved.length_eq, List.length_map]
  obtain ⟨before, group, behind⟩ := stretches_of_map edges
  obtain ⟨before', group', behind'⟩ := stretches_of_map edges'
  rw [count'] at group' behind'
  have unnumbered (edges : List Edge) (label : String) :
      Leaves (edges.map Edge.unnumbered) label ↔ Leaves edges label :=
    leaves_map fun _ => ⟨rfl, rfl⟩
  have leavesGroup (label : String) : Leaves (p.drawnBranches early a (places (reordered order branches))) label ↔
      Leaves (p.drawnBranches early a (places branches)) label := by
    rw [← leaves_map (f := Edge.withStep (oldPosition order)) fun _ => ⟨rfl, rfl⟩]
    simp only [Leaves, moved.mem_iff]
  rw [start, count]
  constructor
  · refine perm_nodes wellFormed wellFormed' rfl rfl (perm_mainLabels perm) fun label => ?_
    refine (unnumbered _ label).symm.trans (Iff.trans ?_ (unnumbered _ label))
    rw [edges', edges, leaves_append, leaves_append, leaves_append, leaves_append, leavesGroup]
  · rw [before, before']
  · simp only [Edge.unnumbered_withStep]
    rw [← Function.comp_def, ← List.map_map, group, group']
    exact moved
  · rw [behind, behind']

end Pattern

/-- Whatever order the branches of a fan-out in the main chain are written in, the line is read, as the same pattern
with its branches in that order. Its graph is the same but for numbering: it has the same nodes, and the same edges
before and behind the group, and the edges of the group are the same once each branch has its old position. -/
theorem tokenize_reordered {line : String} {p : Pattern} {early late : List Hop}
    {a : Arrow} {branches : List Branch}
    (found : Pattern.read line.toList = .ok p) (hops : p.main.hops = early ++ .fanOut a branches :: late) :
    ∃ (place : Place) (later : List (List Char)) (inside : List Char),
      line.toList = ((place.inLine later).fill inside).flatten ∧
      place.Spells later inside p.main.entity early a branches late p.post ∧
      (Pieces.cut (·.kind == .ampersand) inside).parts.length = branches.length ∧
      ∀ order, order.Perm (List.range branches.length) → ∃ p' : Pattern,
        p' = p.withHops (early ++ .fanOut a (reordered order branches) :: late) ∧
        tokenize (String.ofList ((place.inLine later).fill (reorderedInside order inside)).flatten) =
          .ok p'.segments ∧
        Graph.Renumbers (.ofSegments p.segments) (.ofSegments p'.segments)
          ((early.flatMap Hop.segments).filterMap Segment.connection?).length
          ((Hop.fanOut a branches).segments.filterMap Segment.connection?).length (oldPosition order) := by
  obtain ⟨place, later, inside, whole, spells⟩ := Place.exists_spells found hops
  have itself : p = p.withHops (early ++ .fanOut a branches :: late) := by rw [Pattern.withHops, ← hops]
  refine ⟨place, later, inside, whole, spells, spells.length_parts, fun order perm => ⟨_, rfl, ?_, ?_⟩⟩
  · rw [tokenize, String.toList_ofList, (spells.reorder perm).read]
    rfl
  · have wellFormed := Pattern.wellFormed_of_read found
    have wellFormed' := Pattern.wellFormed_of_read (spells.reorder perm).read
    rw [itself] at wellFormed
    have graphs := Pattern.renumbers_reordered wellFormed wellFormed' perm
    rwa [← itself] at graphs

/-- A fan-out whose branches share an entity, with a hop behind it and a post-processing chain. -/
def Pattern.forked : Pattern where
  main := {
    entity := "A"
    hops := [
      .fanOut .forward [
        { step := ⟨"X", .push⟩, target := "B", onward := [] },
        { step := ⟨"Y", .pull⟩, target := "C", onward := [⟨.forward, ⟨"Z", .push⟩, "B"⟩] }],
      .single ⟨.forward, ⟨"W", .push⟩, "D"⟩] }
  post := [{ entity := "D", hops := [.single ⟨.forward, ⟨"V", .pull⟩, "E"⟩] }]

theorem tokenize_reordered_forked :
    Pattern.read "A -> (X PUSH -> B & Y PULL -> C -> Z PUSH -> B) -> W PUSH -> D >> D -> V PULL -> E".toList =
        .ok Pattern.forked ∧
      [1, 0].Perm (List.range 2) ∧ ∃ (place : Place) (later : List (List Char)) (inside : List Char) (p' : Pattern),
        "A -> (X PUSH -> B & Y PULL -> C -> Z PUSH -> B) -> W PUSH -> D >> D -> V PULL -> E".toList =
          ((place.inLine later).fill inside).flatten ∧
        tokenize (String.ofList ((place.inLine later).fill (reorderedInside [1, 0] inside)).flatten) =
          .ok p'.segments ∧
        Graph.Renumbers (.ofSegments Pattern.forked.segments)
            (.ofSegments p'.segments) 0 3 (oldPosition [1, 0]) := by
  have found : Pattern.read
      "A -> (X PUSH -> B & Y PULL -> C -> Z PUSH -> B) -> W PUSH -> D >> D -> V PULL -> E".toList =
        .ok Pattern.forked := by
    cbv
  have perm : [1, 0].Perm (List.range 2) := by decide
  obtain ⟨place, later, inside, whole, _, _, reorder⟩ := @tokenize_reordered _ _ [] _ _ _ found rfl
  obtain ⟨p', _, run, graphs⟩ := reorder [1, 0] perm
  exact ⟨found, perm, place, later, inside, p', whole, run, graphs⟩

end TransferFlow
