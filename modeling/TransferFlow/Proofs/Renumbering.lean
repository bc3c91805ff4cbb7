import TransferFlow.Proofs.GraphShape
import TransferFlow.Proofs.Reachability

namespace TransferFlow

/-- The node without its number. -/
def Node.unnumbered (n : Node) : Node :=
  { n with id := "", index := 0 }

/-- The edge without its number and those of its ends, which have their labels. -/
def Edge.unnumbered (e : Edge) : Edge :=
  { e with id := "", fromId := none, toId := none, index := 0 }

/-- The edge at another position in its group. -/
def Edge.withStep (f : Int → Int) (e : Edge) : Edge :=
  { e with step := e.step.map f }

theorem Edge.unnumbered_withStep (f : Int → Int) (e : Edge) :
    (e.withStep f).unnumbered = e.unnumbered.withStep f := rfl

namespace Segment

/-- The segment at another position in its group. -/
def withStep (f : Int → Int) : Segment → Segment
  | .entity e => .entity { e with step := e.step.map f }
  | .connection c => .connection { c with step := c.step.map f }

section Drawn

/-- The edges of the connections in `segs`, which stand behind `before`, without their numbering. -/
def drawn (before segs : List Segment) : List Edge :=
  (expectedEdges (fun _ _ => none) 0 before segs).map Edge.unnumbered

theorem map_unnumbered (look : Option String → Bool → Option Node) (index : Nat) (before segs : List Segment) :
    (expectedEdges look index before segs).map Edge.unnumbered = drawn before segs := by
  have numbers (look look' : Option String → Bool → Option Node) (index index' : Nat) :
      (expectedEdges look index before segs).map Edge.unnumbered =
        (expectedEdges look' index' before segs).map Edge.unnumbered := by
    induction segs generalizing before index index' with
    | nil => rfl
    | cons s segs ih =>
      cases s with
      | entity e => exact ih _ _ _
      | connection c => exact List.cons_eq_cons.mpr ⟨rfl, ih _ _ _⟩
  exact numbers look _ index 0

theorem drawn_entity (before : List Segment) (e : EntitySegment) (segs : List Segment) :
    drawn before (.entity e :: segs) = drawn (before ++ [.entity e]) segs := rfl

theorem drawn_connection (before : List Segment) (c : ConnectionSegment) (segs : List Segment) :
    drawn before (.connection c :: segs) =
      (Builder.edge 0 c (startOf before c) none none).unnumbered :: drawn (before ++ [.connection c]) segs := by
  rw [drawn, expectedEdges, List.map_cons, map_unnumbered]

theorem drawn_append (before xs ys : List Segment) :
    drawn before (xs ++ ys) = drawn before xs ++ drawn (before ++ xs) ys := by
  rw [drawn, expectedEdges_append, List.map_append, map_unnumbered, map_unnumbered]

theorem length_drawn (before segs : List Segment) :
    (drawn before segs).length = (segs.filterMap connection?).length := by
  rw [drawn, List.length_map, length_expectedEdges]

/-- No continuation stands in front of all other connections. -/
def Opens (segs : List Segment) : Prop :=
  ∀ c ∈ (segs.filterMap connection?).head?, c.branch ≠ .continuation

theorem opens_nil : Opens [] := by
  simp [Opens]

theorem Opens.append {xs ys : List Segment} (first : Opens xs) (second : Opens ys) : Opens (xs ++ ys) := by
  intro c atHead
  rw [List.filterMap_append, List.head?_append] at atHead
  cases none : (xs.filterMap connection?).head? with
  | none =>
    rw [none] at atHead
    exact second c atHead
  | some c' =>
    rw [none] at atHead
    obtain rfl : c' = c := Option.some.inj atHead
    exact first c' none

theorem opens_flatMap {α : Type} {f : α → List Segment} {xs : List α} (each : ∀ x ∈ xs, Opens (f x)) :
    Opens (xs.flatMap f) := by
  induction xs with
  | nil => exact opens_nil
  | cons x xs ih =>
    obtain ⟨atHead, atTail⟩ := List.forall_mem_cons.mp each
    rw [List.flatMap_cons]
    exact atHead.append (ih atTail)

/-- Edges follow from the entity and the connection that stand nearest before them. The position in a
group is handed on as it is. -/
theorem map_withStep_drawn (f : Int → Int) {before before' segs : List Segment}
    (entity : nearestEntity? before' = nearestEntity? before)
    (target : nearestTarget? before' = nearestTarget? before ∨ Opens segs) :
    (drawn before segs).map (Edge.withStep f) = drawn before' (segs.map (withStep f)) := by
  induction segs generalizing before before' with
  | nil => rfl
  | cons s segs ih =>
    cases s with
    | entity e =>
      rw [List.map_cons, withStep, drawn_entity, drawn_entity]
      refine ih ?_ ?_
      · rw [nearestEntity?_entity, nearestEntity?_entity, entity]
      · rw [nearestTarget?_entity, nearestTarget?_entity]
        exact target
    | connection c =>
      have start : startOf before' { c with step := c.step.map f } = startOf before c := by
        unfold startOf
        cases kind : c.branch with
        | continuation => exact target.resolve_right fun opens => opens c rfl kind
        | none | input | output => exact entity
      rw [List.map_cons, withStep, drawn_connection, drawn_connection, List.map_cons, start]
      refine List.cons_eq_cons.mpr ⟨rfl, ih ?_ (.inl ?_)⟩
      · rw [nearestEntity?_connection, nearestEntity?_connection, entity]
      · rw [nearestTarget?_connection, nearestTarget?_connection]

theorem drawn_congr {before before' segs : List Segment} (entity : nearestEntity? before' = nearestEntity? before)
    (target : nearestTarget? before' = nearestTarget? before ∨ Opens segs) :
    drawn before' segs = drawn before segs := by
  have same := map_withStep_drawn id entity target
  have edges : (drawn before segs).map (Edge.withStep id) = drawn before segs := by
    refine (List.map_congr_left fun e _ => ?_).trans (List.map_id _)
    rw [Edge.withStep, Option.map_id]
    rfl
  have segments : segs.map (withStep id) = segs := by
    refine (List.map_congr_left fun s _ => ?_).trans (List.map_id _)
    cases s <;> rw [withStep, Option.map_id] <;> rfl
  rw [edges, segments] at same
  exact same.symm

/-- Entities of fan-out branches are not in the way. -/
theorem nearestEntity?_append {segs : List Segment} (inBranches : ∀ e, .entity e ∈ segs → e.branch ≠ .none)
    (before : List Segment) : nearestEntity? (before ++ segs) = nearestEntity? before := by
  induction segs using List.reverseRecOn with
  | nil => rw [List.append_nil]
  | append_singleton segs s ih =>
    have earlier : nearestEntity? (before ++ segs) = nearestEntity? before :=
      ih fun e member => inBranches e (List.mem_append_left _ member)
    rw [← List.append_assoc, ← earlier]
    cases s with
    | entity e => exact nearestEntity?_branch _ (inBranches e (by simp))
    | connection c => exact nearestEntity?_connection _ c

end Drawn

end Segment

open Segment (drawn Opens withStep nearestEntity?)

section Opens

theorem Branch.opens_segments (a : Arrow) (b : Branch) (position : Int) : Opens (b.segments a position) := by
  rintro c ⟨⟩
  exact fun same => by cases same

theorem Hop.opens_segments (h : Hop) : Opens h.segments := by
  cases h with
  | single leg =>
    rintro c ⟨⟩
    exact fun same => by cases same
  | fanIn a steps target =>
    rw [segments, List.map_eq_flatMap]
    refine (Segment.opens_flatMap fun s _ => ?_).append (by simp [Opens, Segment.connection?])
    rintro c ⟨⟩
    exact fun same => by cases same
  | fanOut a branches => exact Segment.opens_flatMap fun p _ => p.1.opens_segments a _

theorem Segment.opens_markPost {segs : List Segment} (opens : Opens segs) (started : Bool) :
    Opens (markPost started segs) := by
  induction segs with
  | nil => exact opens
  | cons s segs ih =>
    cases s with
    | entity e => exact ih opens
    | connection c =>
      rintro _ ⟨⟩
      exact opens c rfl

theorem Chain.opens_segments (c : Chain) : Opens c.segments :=
  Segment.opens_flatMap fun h _ => h.opens_segments

end Opens

namespace Branch

/-- All entities of a branch belong to the fan-out. -/
theorem branch_of_mem_segments {a : Arrow} {b : Branch} {position : Int} {e : EntitySegment}
    (member : .entity e ∈ b.segments a position) : e.branch ≠ .none := by
  rw [segments, Segment.splice_repeated] at member
  rcases List.mem_cons.mp member with same | member
  · cases same
  rcases List.mem_cons.mp member with same | member
  · cases same
    exact fun none => by cases none
  · obtain ⟨s, _, same⟩ := List.mem_map.mp member
    cases s with
    | entity e' =>
      cases same
      exact fun none => by cases none
    | connection c => cases same

theorem map_withStep_segments (f : Int → Int) (a : Arrow) (b : Branch) (position : Int) :
    (b.segments a position).map (withStep f) = b.segments a (f position) := by
  have continuing (s : Segment) : withStep f (s.continuing position) = s.continuing (f position) := by
    cases s <;> rfl
  rw [segments, segments, Segment.splice_repeated, Segment.splice_repeated, List.map_cons,
    List.map_cons, List.map_map]
  simp only [Function.comp_def, continuing]
  rfl

/-- Each branch is drawn as if it stood alone behind the source of the group. -/
theorem drawn_segments (a : Arrow) (before : List Segment) (places : List (Branch × Nat)) :
    drawn before (places.flatMap fun (b, i) => b.segments a (i : Int)) =
      places.flatMap fun (b, i) => drawn before (b.segments a (i : Int)) := by
  induction places generalizing before with
  | nil => rfl
  | cons place places ih =>
    have behind : drawn (before ++ place.1.segments a (place.2 : Int))
        (places.flatMap fun (b, i) => b.segments a (i : Int)) =
          drawn before (places.flatMap fun (b, i) => b.segments a (i : Int)) := by
      refine Segment.drawn_congr (Segment.nearestEntity?_append (fun e => branch_of_mem_segments) before) (.inr ?_)
      exact Segment.opens_flatMap fun p _ => p.1.opens_segments a _
    rw [List.flatMap_cons, List.flatMap_cons, Segment.drawn_append, behind, ih]

end Branch

/-- Nodes of one graph with the same id are the same. -/
theorem Builder.eq_of_id {segs : List Segment} {m n : Node} (member : m ∈ (build segs).nodes)
    (member' : n ∈ (build segs).nodes) (same : m.id = n.id) : m = n := by
  have numbered := (registered_build segs).numbered
  obtain ⟨i, atPlace⟩ := List.mem_iff_getElem?.mp member
  obtain ⟨j, atPlace'⟩ := List.mem_iff_getElem?.mp member'
  rw [(numbered i m atPlace).1, (numbered j n atPlace').1] at same
  have digits : i.repr = j.repr := by
    have spelled := congrArg String.toList same
    rw [String.toList_append, String.toList_append] at spelled
    exact String.toList_inj.mp (List.append_cancel_left spelled)
  rw [Nat.repr_inj.mp digits, atPlace'] at atPlace
  exact (Option.some.inj atPlace).symm

namespace Pattern

/-- The labels of the main chain, as often as it names them. -/
def mainLabels (p : Pattern) : List String :=
  p.main.segments.filterMap Segment.entityLabel?

/-- The labels that post-processing chains alone name, in order of first appearance. -/
def postLabels (p : Pattern) : List String :=
  (((p.post.flatMap fun c => Segment.markPost false c.segments).filterMap Segment.entityLabel?).removeAll
    p.mainLabels).eraseDups

/-- A main edge leaves a node of this label. -/
def Leaves (edges : List Edge) (label : String) : Prop :=
  ∃ e ∈ edges, e.isPost = false ∧ e.fromLabel = some label

instance (edges : List Edge) (label : String) : Decidable (Leaves edges label) :=
  inferInstanceAs (Decidable (∃ e ∈ edges, e.isPost = false ∧ e.fromLabel = some label))

/-- What the graph of a pattern says of a label, if these are its edges. -/
def nodeOf (p : Pattern) (edges : List Edge) (label : String) : Node where
  id := ""
  label
  role :=
    if label = p.main.entity then .source
    else if label ∈ p.mainLabels then
      if Leaves edges label then .intermediate else .target
    else if p.postLabels.getLast? = some label then .target
    else .intermediate
  index := 0
  isPost := label ∉ p.mainLabels

theorem not_mem_mainLabels {p : Pattern} {label : String} (own : label ∈ p.postLabels) : label ∉ p.mainLabels := by
  rw [postLabels, List.mem_eraseDups, List.removeAll, List.mem_filter] at own
  simpa using own.2

variable {p : Pattern} (wellFormed : p.WellFormed) {n : Node}

include wellFormed

theorem labels_nodes :
    (Graph.ofSegments p.segments).nodes.map Node.label = p.mainLabels.eraseDups ++ p.postLabels := by
  have labels := Builder.labels_build_line_eq (isLine_segments wellFormed)
  rwa [segments, List.filterMap_append, List.eraseDups_append] at labels

/-- Main nodes are those that the main chain names. -/
theorem isPost_iff (member : n ∈ (Graph.ofSegments p.segments).nodes) :
    n.isPost = false ↔ n.label ∈ p.mainLabels := by
  have line := isLine_segments wellFormed
  obtain ⟨main, post⟩ := List.forall_mem_cons.mp wellFormed
  have isMain := Chain.isChain_segments main
  constructor
  · intro flag
    obtain ⟨e, inside, label, same⟩ := Builder.entity_of_node member
    rw [segments] at inside
    rcases List.mem_append.mp inside with inMain | inPost
    · rw [← label]
      exact List.mem_filterMap.mpr ⟨_, inMain, rfl⟩
    · obtain ⟨c, within, inChain⟩ := List.mem_flatMap.mp inPost
      have flag' := (Chain.isChain_markPost (post c within)).isPost_entity inChain
      rw [same, flag] at flag'
      cases flag'
  · intro named
    obtain ⟨s, inMain, label⟩ := List.mem_filterMap.mp named
    cases s with
    | connection c => cases label
    | entity e =>
      have inside : .entity e ∈ p.segments := List.mem_append_left _ inMain
      obtain ⟨m, member', label', _, flag⟩ := Builder.node_of_lookup (Builder.lookup_withNodes_isSome inside)
      have same : m.label = n.label := (Option.some.inj label').symm.trans (Option.some.inj label)
      obtain rfl := List.inj_on_of_nodup_map (Builder.labels_build_line line) member' member same
      exact flag (isMain.isPost_entity inMain)

theorem source_iff (member : n ∈ (Graph.ofSegments p.segments).nodes) :
    n.role = .source ↔ n.label = p.main.entity := by
  obtain ⟨first, rest, nodes, label, main⟩ := p.first_node
  have sources := Builder.sources_build nodes main
  have alone : n.role = .source ↔ n = first := by
    have inside : n ∈ (Builder.build p.segments).nodes.filter (·.role == .source) ↔ n = first := by
      rw [sources, List.mem_singleton]
    rw [List.mem_filter, beq_iff_eq] at inside
    exact ⟨fun source => inside.mp ⟨member, source⟩, fun same => (inside.mpr same).2⟩
  rw [alone, ← label]
  have atFirst : first ∈ (Graph.ofSegments p.segments).nodes := by
    rw [nodes]
    exact List.mem_cons_self
  exact ⟨congrArg Node.label,
    List.inj_on_of_nodup_map (Builder.labels_build_line (isLine_segments wellFormed)) member
    atFirst⟩

/-- An edge leaves a main node under its label. -/
theorem leaves_iff (member : n ∈ (Graph.ofSegments p.segments).nodes) :
    (∀ e ∈ (Graph.ofSegments p.segments).edges, e.isPost = false → e.fromId ≠ some n.id) ↔
      ¬ Leaves (Graph.ofSegments p.segments).edges n.label := by
  have line := isLine_segments wellFormed
  have same : ∀ e ∈ (Graph.ofSegments p.segments).edges, e.fromId = some n.id ↔ e.fromLabel = some n.label := by
    intro e inside
    obtain ⟨m, atStart, _, _, fromLabel, fromId, _⟩ := Builder.ends_of_edge line inside
    rw [fromLabel, fromId, Option.some_inj, Option.some_inj]
    constructor
    · intro id
      rw [Builder.eq_of_id atStart member id]
    · intro label
      rw [List.inj_on_of_nodup_map (Builder.labels_build_line line) atStart member label]
  constructor
  · rintro none ⟨e, inside, main, fromLabel⟩
    exact none e inside main ((same e inside).mpr fromLabel)
  · intro none e inside main fromId
    exact none ⟨e, inside, main, (same e inside).mp fromId⟩

/-- The last node of post-processing is that of its last own label. -/
theorem isLastPost_iff_getLast? {i : Nat} (atPlace : (Graph.ofSegments p.segments).nodes[i]? = some n)
    (post : n.label ∉ p.mainLabels) :
    Builder.isLastPost (Graph.ofSegments p.segments).nodes i n = true ↔ p.postLabels.getLast? = some n.label := by
  have labels := labels_nodes wellFormed
  have kept : ∀ m ∈ (Graph.ofSegments p.segments).nodes.drop (i + 1), m.isPost = false → m.label ∈ p.mainLabels :=
    fun m inside => (isPost_iff wellFormed (List.mem_of_mem_drop inside)).mp
  have flag : n.isPost = true := by
    rw [← Bool.not_eq_false, isPost_iff wellFormed (List.mem_of_getElem? atPlace)]
    exact post
  have whole : (Graph.ofSegments p.segments).nodes =
      (Graph.ofSegments p.segments).nodes.take i ++ n :: (Graph.ofSegments p.segments).nodes.drop (i + 1) := by
    obtain ⟨inside, rfl⟩ := List.getElem?_eq_some_iff.mp atPlace
    rw [← List.drop_eq_getElem_cons, List.take_append_drop]
  rw [Builder.isLastPost_iff]
  generalize (Graph.ofSegments p.segments).nodes.drop (i + 1) = behind at *
  rw [whole, List.map_append, List.map_cons] at labels
  -- Main labels come first, so the labels from this one on are own labels of post-processing.
  obtain ⟨own, tail⟩ : ∃ own, p.postLabels = own ++ n.label :: behind.map Node.label := by
    rcases List.append_eq_append_iff.mp labels with ⟨more, main, rest⟩ | ⟨own, _, rest⟩
    · cases more with
      | nil => exact ⟨[], rest.symm⟩
      | cons x more =>
        obtain ⟨rfl, _⟩ := List.cons_eq_cons.mp rest
        have named : n.label ∈ p.mainLabels.eraseDups := by
          rw [main]
          simp
        exact absurd (List.mem_eraseDups.mp named) post
    · exact ⟨own, rest⟩
  constructor
  · rintro ⟨_, last⟩
    have none : behind = [] := by
      rw [List.eq_nil_iff_forall_not_mem]
      intro m inside
      refine not_mem_mainLabels ?_ (kept m inside (last m inside))
      rw [tail]
      exact List.mem_append_right _ (List.mem_cons_of_mem _ (List.mem_map_of_mem inside))
    rw [tail, none, List.map_nil, List.getLast?_concat]
  · intro last
    have distinct : p.postLabels.Nodup := nodup_eraseDups _
    rw [tail] at distinct last
    have fresh := (List.nodup_cons.mp (List.nodup_append.mp distinct).2.1).1
    refine ⟨flag, ?_⟩
    cases behind with
    | nil => simp
    | cons m behind =>
      rw [List.getLast?_append_of_ne_nil _ (List.cons_ne_nil _ _), List.map_cons, List.getLast?_cons_cons] at last
      exact absurd (List.mem_of_getLast? last) fresh

theorem target_iff (member : n ∈ (Graph.ofSegments p.segments).nodes) :
    n.role = .target ↔ n.label ≠ p.main.entity ∧
      if n.label ∈ p.mainLabels then ¬ Leaves (Graph.ofSegments p.segments).edges n.label
      else p.postLabels.getLast? = some n.label := by
  obtain ⟨i, atPlace⟩ := List.mem_iff_getElem?.mp member
  have flow := isPost_iff wellFormed member
  have target : n.role = .target ↔ Builder.isLastPost (Graph.ofSegments p.segments).nodes i n = true ∨
      n.isPost = false ∧ ¬ Builder.IsFirstMain (Graph.ofSegments p.segments).nodes i n ∧
        ∀ e ∈ (Graph.ofSegments p.segments).edges, e.isPost = false → e.fromId ≠ some n.id :=
    Builder.role_build_eq_target atPlace
  have first : n.role = .source ↔ Builder.IsFirstMain (Graph.ofSegments p.segments).nodes i n :=
    Builder.role_build_eq_source atPlace
  rw [leaves_iff wellFormed member, ← first, source_iff wellFormed member] at target
  rw [target]
  by_cases named : n.label ∈ p.mainLabels
  · have main := flow.mpr named
    have notLast : ¬ Builder.isLastPost (Graph.ofSegments p.segments).nodes i n = true := by
      rw [Builder.isLastPost_iff, main]
      simp
    rw [if_pos named, or_iff_right notLast, and_iff_right main]
  · have post : ¬ n.isPost = false := fun main => named (flow.mp main)
    have other : n.label ≠ p.main.entity := by
      intro same
      exact named (same ▸ List.mem_cons_self)
    rw [if_neg named, isLastPost_iff_getLast? wellFormed atPlace named]
    constructor
    · rintro (last | ⟨main, _⟩)
      · exact ⟨other, last⟩
      · exact absurd main post
    · exact fun both => .inl both.2

/-- Numbering apart, a node follows from its label. -/
theorem nodes_unnumbered :
    (Graph.ofSegments p.segments).nodes.map Node.unnumbered =
      (p.mainLabels.eraseDups ++ p.postLabels).map (p.nodeOf (Graph.ofSegments p.segments).edges) := by
  rw [← labels_nodes wellFormed, List.map_map]
  refine List.map_congr_left fun n member => ?_
  have source := source_iff wellFormed member
  have target := target_iff wellFormed member
  have between : n.role = .intermediate ↔ n.role ≠ .source ∧ n.role ≠ .target := by
    cases n.role <;> simp
  have role : n.role = (p.nodeOf (Graph.ofSegments p.segments).edges n.label).role := by
    unfold nodeOf
    dsimp only
    split
    · rename_i same
      exact source.mpr same
    rename_i other
    split
    · rename_i named
      rw [if_pos named] at target
      split
      · rename_i leaves
        exact between.mpr ⟨fun role => other (source.mp role), fun role => (target.mp role).2 leaves⟩
      · rename_i none
        exact target.mpr ⟨other, none⟩
    · rename_i own
      rw [if_neg own] at target
      split
      · rename_i last
        exact target.mpr ⟨other, last⟩
      · rename_i further
        exact between.mpr ⟨fun role => other (source.mp role), fun role => further (target.mp role).2⟩
  have flow : n.isPost = (p.nodeOf (Graph.ofSegments p.segments).edges n.label).isPost := by
    rw [Bool.eq_iff_iff, ← not_iff_not, Bool.not_eq_true, isPost_iff wellFormed member]
    simp [nodeOf]
  rw [Node.unnumbered, role, flow]
  rfl

end Pattern

end TransferFlow
