import TransferFlow.Proofs.BuilderNodes
import TransferFlow.Proofs.SegmentGrammar

namespace TransferFlow

namespace Segment

/-- The nearest entity outside all fan-out branches, seen from the end. -/
def nearestEntity? (before : List Segment) : Option String :=
  before.reverse.findSome? fun s =>
    match s with
    | .entity e => if e.branch = .none then some e.label else none
    | .connection _ => none

/-- Where the nearest connection leads, seen from the end. -/
def nearestTarget? (before : List Segment) : Option String :=
  before.reverse.findSome? fun s =>
    match s with
    | .entity _ => none
    | .connection c => some c.target

/-- The label that a connection starts from, in view of the segments before it alone. -/
def startOf (before : List Segment) (c : ConnectionSegment) : Option String :=
  match c.branch with
  | .continuation => nearestTarget? before
  | _ => nearestEntity? before

theorem nearestEntity?_connection (before : List Segment) (c : ConnectionSegment) :
    nearestEntity? (before ++ [.connection c]) = nearestEntity? before := by
  simp [nearestEntity?]

theorem nearestEntity?_entity (before : List Segment) (e : EntitySegment) :
    nearestEntity? (before ++ [.entity e]) = if e.branch = .none then some e.label else nearestEntity? before := by
  by_cases outside : e.branch = .none <;> simp [nearestEntity?, outside]

theorem nearestEntity?_plain (before : List Segment) (label : String) (isPost : Bool) :
    nearestEntity? (before ++ [plain label isPost]) = some label :=
  nearestEntity?_entity before _

theorem nearestEntity?_branch (before : List Segment) {e : EntitySegment} (inBranch : e.branch ≠ .none) :
    nearestEntity? (before ++ [.entity e]) = nearestEntity? before := by
  rw [nearestEntity?_entity, if_neg inBranch]

theorem nearestTarget?_connection (before : List Segment) (c : ConnectionSegment) :
    nearestTarget? (before ++ [.connection c]) = some c.target := by
  simp [nearestTarget?]

theorem nearestTarget?_entity (before : List Segment) (e : EntitySegment) :
    nearestTarget? (before ++ [.entity e]) = nearestTarget? before := by
  simp [nearestTarget?]

/-- The edges of the connections in `segs`, which stand behind `before`. Nothing but the segments before
a connection decides where it starts. -/
def expectedEdges (look : Option String → Bool → Option Node) (index : Nat) (before : List Segment) :
    List Segment → List Edge
  | [] => []
  | .entity e :: rest => expectedEdges look index (before ++ [.entity e]) rest
  | .connection c :: rest =>
    Builder.edge index c (startOf before c) (look (startOf before c) c.isPost) (look (some c.target) c.isPost) ::
      expectedEdges look (index + 1) (before ++ [.connection c]) rest

theorem length_expectedEdges (look : Option String → Bool → Option Node) (index : Nat)
    (before segs : List Segment) :
    (expectedEdges look index before segs).length = (segs.filterMap connection?).length := by
  induction segs generalizing index before with
  | nil => rfl
  | cons s segs ih =>
    cases s with
    | entity e => exact ih _ _
    | connection c =>
      rw [expectedEdges, List.length_cons, ih]
      rfl

theorem length_connections_cons (index : Nat) (c : ConnectionSegment) (segs : List Segment) :
    index + ((Segment.connection c :: segs).filterMap connection?).length =
      index + 1 + (segs.filterMap connection?).length := by
  rw [List.filterMap_cons, connection?, List.length_cons]
  omega

theorem expectedEdges_append (look : Option String → Bool → Option Node) (index : Nat)
    (before xs ys : List Segment) :
    expectedEdges look index before (xs ++ ys) =
      expectedEdges look index before xs ++
        expectedEdges look (index + (xs.filterMap connection?).length) (before ++ xs) ys := by
  induction xs generalizing index before with
  | nil => simp [expectedEdges]
  | cons s xs ih =>
    cases s with
    | entity e =>
      rw [List.cons_append, expectedEdges, ih, expectedEdges, List.append_assoc]
      rfl
    | connection c =>
      rw [List.cons_append, expectedEdges, ih, expectedEdges, List.append_assoc, List.cons_append,
        length_connections_cons]
      rfl

/-- Each expected edge is that of one connection in its place. -/
theorem mem_expectedEdges {look : Option String → Bool → Option Node} {index : Nat} {before segs : List Segment}
    {e : Edge} :
    e ∈ expectedEdges look index before segs ↔ ∃ pre c post, segs = pre ++ .connection c :: post ∧
      e = Builder.edge (index + (pre.filterMap connection?).length) c (startOf (before ++ pre) c)
        (look (startOf (before ++ pre) c) c.isPost) (look (some c.target) c.isPost) := by
  constructor
  · intro member
    induction segs generalizing index before with
    | nil => cases member
    | cons s segs ih =>
      cases s with
      | entity x =>
        obtain ⟨pre, c, post, rfl, rfl⟩ := ih member
        exact ⟨.entity x :: pre, c, post, rfl, by rw [List.append_cons before (.entity x) pre]; rfl⟩
      | connection x =>
        rcases List.mem_cons.mp member with rfl | member
        · exact ⟨[], x, segs, rfl, by rw [List.append_nil]; rfl⟩
        · obtain ⟨pre, c, post, rfl, rfl⟩ := ih member
          refine ⟨.connection x :: pre, c, post, rfl, ?_⟩
          rw [List.append_cons before (.connection x) pre, length_connections_cons]
  · rintro ⟨pre, c, post, rfl, rfl⟩
    rw [expectedEdges_append, expectedEdges]
    exact List.mem_append_right _ List.mem_cons_self

end Segment

theorem Reached.get?_set (r : Reached) (step : Option Int) (label : String) :
    (r.set step label).get? step = some label := by
  simp [Reached.set, Reached.get?]

namespace Builder

open Segment (startOf expectedEdges nearestEntity? nearestTarget? IsHop IsChain)

/-- Reading `segs` behind `before` adds the expected edges, and both ends of each are found. -/
structure Follows (b : Builder) (before segs : List Segment) : Prop where
  edges : (segs.foldl visit b).edges = b.edges ++ expectedEdges b.lookup b.edges.length before segs
  resolved : ∀ e ∈ expectedEdges b.lookup b.edges.length before segs, e.isResolved = true

theorem Follows.append {b : Builder} {before xs ys : List Segment} (first : b.Follows before xs)
    (second : (xs.foldl visit b).Follows (before ++ xs) ys) : b.Follows before (xs ++ ys) := by
  have length : (xs.foldl visit b).edges.length = b.edges.length + (xs.filterMap Segment.connection?).length := by
    rw [first.edges, List.length_append, Segment.length_expectedEdges]
  have later := second.edges
  have found := second.resolved
  rw [lookup_foldl_visit, length] at later found
  constructor
  · rw [List.foldl_append, later, first.edges, Segment.expectedEdges_append, List.append_assoc]
  · rw [Segment.expectedEdges_append, List.forall_mem_append]
    exact ⟨first.resolved, found⟩

theorem follows_entity (b : Builder) (before : List Segment) (e : EntitySegment) :
    b.Follows before [.entity e] where
  edges := by
    rw [expectedEdges, expectedEdges, List.append_nil]
    exact (b.visitEntity_frame e).2.1
  resolved := by simp [expectedEdges]

theorem follows_connection {b : Builder} {before : List Segment} {c : ConnectionSegment}
    (start : (b.openGroup c).sourceLabel c = startOf before c)
    (flow : (b.openGroup c).sourceIsPost c = c.isPost)
    (fromKnown : (b.lookup (startOf before c) c.isPost).isSome)
    (toKnown : (b.lookup (some c.target) c.isPost).isSome) : b.Follows before [.connection c] where
  edges := by
    obtain ⟨nodes, edges, _⟩ := b.openGroup_frame c
    show ((b.visitConnection c).edges) = _
    rw [visitConnection, (moveOn_frame _ c).2.1, start, flow, lookup_congr nodes]
    show (b.openGroup c).edges ++ _ = _
    rw [edges]
    rfl
  resolved := by
    intro e member
    rw [expectedEdges, expectedEdges, List.mem_singleton] at member
    rw [member, Edge.isResolved, edge]
    simp [fromKnown, toKnown]

/-- Every entity of `segs` means a node in its flow. -/
def Knows (b : Builder) (segs : List Segment) : Prop :=
  ∀ e, .entity e ∈ segs → (b.lookup (some e.label) e.isPost).isSome

theorem Knows.foldl {b : Builder} {segs : List Segment} (knows : b.Knows segs) (read : List Segment) :
    (read.foldl visit b).Knows segs := by
  unfold Knows
  rw [lookup_foldl_visit]
  exact knows

theorem Knows.subset {b : Builder} {segs part : List Segment} (knows : b.Knows segs)
    (inside : part ⊆ segs) : b.Knows part :=
  fun e member => knows e (inside member)

theorem Knows.leg {b : Builder} {c : ConnectionSegment} (knows : b.Knows c.leg) :
    (b.lookup (some c.target) c.isPost).isSome :=
  knows { label := c.target, branch := c.branch, step := c.step, isPost := c.isPost }
    (by simp [ConnectionSegment.leg])

/-- Between two hops, and between the members of a group, the builder stands at the nearest entity
outside all fan-out branches. -/
structure Settled (b : Builder) (before : List Segment) (isPost : Bool) : Prop where
  label : b.lastLabel = nearestEntity? before
  known : (b.lookup (nearestEntity? before) isPost).isSome
  flow : b.lastIsPost = isPost
  group : b.groupSource = none ∨ b.groupSource = b.lastLabel

theorem Settled.groupSource {b : Builder} {before : List Segment} {isPost : Bool}
    (settled : b.Settled before isPost) : (b.groupSource <|> b.lastLabel) = b.lastLabel := by
  rcases settled.group with none | some
  · rw [none]
    rfl
  · rw [some]
    cases b.lastLabel <;> rfl

/-- Segments that leave the entity where the builder stands keep it settled. -/
theorem Settled.stay {b b' : Builder} {before before' : List Segment} {isPost : Bool}
    (settled : b.Settled before isPost) (nodes : b'.nodes = b.nodes) (label : b'.lastLabel = b.lastLabel)
    (flow : b'.lastIsPost = b.lastIsPost)
    (group : b'.groupSource = b.groupSource ∨ b'.groupSource = b.lastLabel)
    (nearest : nearestEntity? before' = nearestEntity? before) : b'.Settled before' isPost where
  label := by rw [label, nearest, settled.label]
  known := by rw [nearest, lookup_congr nodes]; exact settled.known
  flow := by rw [flow, settled.flow]
  group := by
    rw [label]
    rcases group with same | first
    · rw [same]
      exact settled.group
    · exact Or.inr first

/-- Reading `segs` adds the expected edges, and leaves the builder settled behind them. -/
def Walks (b : Builder) (before segs : List Segment) (isPost : Bool) : Prop :=
  b.Follows before segs ∧ (segs.foldl visit b).Settled (before ++ segs) isPost

theorem Follows.walks {b : Builder} {before xs ys : List Segment} {isPost : Bool}
    (first : b.Follows before xs) (second : (xs.foldl visit b).Walks (before ++ xs) ys isPost) :
    b.Walks before (xs ++ ys) isPost := by
  refine ⟨first.append second.1, ?_⟩
  rw [List.foldl_append, ← List.append_assoc]
  exact second.2

/-- Pieces that each can be read from a settled builder can be read one after another. -/
theorem walks_flatten {b : Builder} {before : List Segment} {isPost : Bool}
    {pieces : List (List Segment)} (settled : b.Settled before isPost)
    (each : ∀ piece ∈ pieces, ∀ (b' : Builder) (before' : List Segment),
      b'.nodes = b.nodes → b'.Settled before' isPost →
      b'.Walks before' piece isPost) : b.Walks before pieces.flatten isPost := by
  induction pieces generalizing b before with
  | nil => exact ⟨⟨by simp [expectedEdges], by simp [expectedEdges]⟩, by simpa using settled⟩
  | cons piece pieces ih =>
    obtain ⟨atHead, atTail⟩ := List.forall_mem_cons.mp each
    obtain ⟨first, settled'⟩ := atHead b before rfl settled
    refine first.walks (ih settled' ?_)
    intro p member b' before' nodes
    exact atTail p member b' before' (nodes.trans (b.foldl_visit_nodes piece))

theorem walks_plain {b : Builder} {label : String} {isPost : Bool} (before : List Segment)
    (known : (b.lookup (some label) isPost).isSome) :
    b.Walks before [Segment.plain label isPost] isPost := by
  refine ⟨follows_entity _ _ _, ?_⟩
  have at' := Segment.nearestEntity?_plain before label isPost
  exact ⟨at'.symm, by rw [at', lookup_foldl_visit]; exact known, rfl, Or.inl rfl⟩

theorem walks_single {b : Builder} {before : List Segment} {isPost : Bool} {c : ConnectionSegment}
    (settled : b.Settled before isPost) (tagged : c.Tagged .none none isPost) (knows : b.Knows c.leg) :
    b.Walks before c.leg isPost := by
  have start : startOf before c = nearestEntity? before := by rw [startOf, tagged.branch]
  have shape : c.leg = [.connection c] ++ [Segment.plain c.target isPost] := by
    rw [ConnectionSegment.leg, tagged.branch, tagged.step, tagged.isPost]
    rfl
  have atConnection : b.Follows before [.connection c] := by
    apply follows_connection
    · rw [start, openGroup, sourceLabel, tagged.branch]
      exact settled.label
    · rw [openGroup, sourceIsPost, tagged.branch, tagged.isPost]
      exact settled.flow
    · rw [start, tagged.isPost]
      exact settled.known
    · exact knows.leg
  have known := knows.leg
  rw [tagged.isPost, ← lookup_visit b (.connection c)] at known
  rw [shape]
  exact atConnection.walks (walks_plain _ known)

/-- Both kinds of group members start at the source of their group, which is where the builder stands. -/
theorem walks_member {b : Builder} {before : List Segment} {isPost : Bool} {c : ConnectionSegment}
    (settled : b.Settled before isPost) (member : c.branch = .input ∨ c.branch = .output)
    (flow : c.isPost = isPost) (known : (b.lookup (some c.target) c.isPost).isSome) :
    b.Walks before [.connection c] isPost := by
  have start : startOf before c = nearestEntity? before := by
    rcases member with branch | branch <;> rw [startOf, branch]
  have source : (b.openGroup c).groupSource = b.lastLabel := by
    rcases member with branch | branch
    · rw [openGroup, branch]
      exact settled.groupSource
    · rw [openGroup, branch]
      exact settled.groupSource
  have stays : (b.visit (.connection c)).lastLabel = b.lastLabel ∧
      (b.visit (.connection c)).lastIsPost = b.lastIsPost ∧
      (b.visit (.connection c)).groupSource = (b.openGroup c).groupSource := by
    rcases member with branch | branch
    · simp [visit, visitConnection, moveOn, addEdge, openGroup, branch]
    · simp [visit, visitConnection, moveOn, addEdge, openGroup, branch]
  constructor
  · apply follows_connection
    · rw [start, ← settled.label, ← source]
      rcases member with branch | branch <;> rw [sourceLabel, branch]
    · rw [flow, ← settled.flow]
      rcases member with branch | branch <;> rw [openGroup, sourceIsPost, branch]
    · rw [start, flow]
      exact settled.known
    · exact known
  · obtain ⟨label, flow', group⟩ := stays
    exact settled.stay (b.foldl_visit_nodes _) label flow' (Or.inr (group.trans source))
      (Segment.nearestEntity?_connection before c)

/-- Inside a fan-out branch the builder also knows the entity that the branch has reached. -/
structure InBranch (b : Builder) (before : List Segment) (isPost : Bool) (position : Int) : Prop where
  settled : b.Settled before isPost
  reached : b.reached.get? (some position) = nearestTarget? before
  known : (b.lookup (nearestTarget? before) isPost).isSome

theorem visit_branchEntity (b : Builder) {e : EntitySegment} {position : Int}
    (branch : e.branch = .output ∨ e.branch = .continuation) (step : e.step = some position)
    (counted : 1 ≤ position) :
    b.visit (.entity e) = { b with reached := b.reached.set (some position) e.label } := by
  have nonzero : e.step ≠ some 0 := by
    rw [step]
    intro same
    cases same
    omega
  show b.visitEntity e = _
  unfold visitEntity
  rw [if_neg nonzero, step]
  rcases branch with branch | branch <;> rw [branch] <;> rfl

/-- A leg inside a branch ends with the branch at the leg's target. -/
theorem inBranch_leg {b : Builder} {before : List Segment} {isPost : Bool} {position : Int}
    {c : ConnectionSegment} (branch : c.branch = .output ∨ c.branch = .continuation)
    (step : c.step = some position) (flow : c.isPost = isPost) (counted : 1 ≤ position)
    (atConnection : b.Walks before [.connection c] isPost)
    (known : (b.lookup (some c.target) c.isPost).isSome) :
    b.Follows before c.leg ∧ (c.leg.foldl visit b).InBranch (before ++ c.leg) isPost position := by
  refine ⟨atConnection.1.append (follows_entity _ _ _), ?_⟩
  have moved := visit_branchEntity (b.visit (.connection c))
    (e := { label := c.target, branch := c.branch, step := c.step, isPost := c.isPost }) branch step counted
  have inBranch : c.branch ≠ .none := by rcases branch with branch | branch <;> rw [branch] <;> decide
  have atTarget : nearestTarget? (before ++ c.leg) = some c.target := by
    rw [ConnectionSegment.leg, List.append_cons, Segment.nearestTarget?_entity,
      Segment.nearestTarget?_connection]
  rw [ConnectionSegment.leg, List.foldl_cons, List.foldl_cons, List.foldl_nil, moved]
  rw [ConnectionSegment.leg] at atTarget
  constructor
  · refine atConnection.2.stay rfl rfl rfl (Or.inl rfl) ?_
    rw [List.append_cons]
    exact Segment.nearestEntity?_branch _ inBranch
  · rw [atTarget]
    exact Reached.get?_set _ _ _
  · rw [atTarget, ← flow]
    rw [← lookup_visit b (.connection c)] at known
    exact known

theorem follows_opening {b : Builder} {before : List Segment} {isPost : Bool} {position : Int}
    {c : ConnectionSegment} (settled : b.Settled before isPost)
    (tagged : c.Tagged .output (some position) isPost) (counted : 1 ≤ position) (knows : b.Knows c.leg) :
    b.Follows before c.leg ∧ (c.leg.foldl visit b).InBranch (before ++ c.leg) isPost position :=
  inBranch_leg (Or.inl tagged.branch) tagged.step tagged.isPost counted
    (walks_member settled (Or.inr tagged.branch) tagged.isPost knows.leg) knows.leg

theorem follows_continuation {b : Builder} {before : List Segment} {isPost : Bool} {position : Int}
    {c : ConnectionSegment} (inBranch : b.InBranch before isPost position)
    (tagged : c.Tagged .continuation (some position) isPost) (counted : 1 ≤ position)
    (knows : b.Knows c.leg) :
    b.Follows before c.leg ∧ (c.leg.foldl visit b).InBranch (before ++ c.leg) isPost position := by
  have start : startOf before c = nearestTarget? before := by rw [startOf, tagged.branch]
  have known := inBranch.known
  have reached := inBranch.reached
  have source : (b.openGroup c).sourceLabel c = startOf before c := by
    rw [start, openGroup, sourceLabel, tagged.branch, tagged.step]
    dsimp only
    rw [reached]
    cases atTarget : nearestTarget? before with
    | none => simp [atTarget, lookup] at known
    | some t => rfl
  have atConnection : b.Follows before [.connection c] := by
    apply follows_connection source
    · rw [sourceIsPost, tagged.branch]
    · rwa [start, tagged.isPost]
    · exact knows.leg
  have stays : (b.visit (.connection c)).lastLabel = b.lastLabel ∧
      (b.visit (.connection c)).lastIsPost = b.lastIsPost ∧
      (b.visit (.connection c)).groupSource = b.groupSource := by
    simp [visit, visitConnection, moveOn, addEdge, openGroup, tagged.branch]
  obtain ⟨label, flow, group⟩ := stays
  have settled := inBranch.settled.stay (b.visit_nodes (.connection c)) label flow (Or.inl group)
    (Segment.nearestEntity?_connection before c)
  exact inBranch_leg (Or.inr tagged.branch) tagged.step tagged.isPost counted ⟨atConnection, settled⟩
    knows.leg

theorem walks_onward {b : Builder} {before : List Segment} {isPost : Bool} {position : Int}
    {cs : List ConnectionSegment} (inBranch : b.InBranch before isPost position)
    (tagged : ∀ c ∈ cs, c.Tagged .continuation (some position) isPost) (counted : 1 ≤ position)
    (knows : b.Knows (cs.flatMap ConnectionSegment.leg)) :
    b.Walks before (cs.flatMap ConnectionSegment.leg) isPost := by
  induction cs generalizing b before with
  | nil => exact @walks_flatten _ _ _ [] inBranch.settled (by simp)
  | cons c cs ih =>
    obtain ⟨atHead, atTail⟩ := List.forall_mem_cons.mp tagged
    rw [List.flatMap_cons] at knows ⊢
    obtain ⟨first, inBranch'⟩ :=
      follows_continuation inBranch atHead counted (knows.subset (List.subset_append_left _ _))
    exact first.walks (ih inBranch' atTail ((knows.subset (List.subset_append_right _ _)).foldl c.leg))

theorem walks_block {b : Builder} {before : List Segment} {isPost : Bool} {position : Int}
    {block : Block} (settled : b.Settled before isPost) (at' : block.At position isPost)
    (counted : 1 ≤ position) (knows : b.Knows block.segments) :
    b.Walks before block.segments isPost := by
  rw [Block.segments] at knows ⊢
  obtain ⟨first, inBranch⟩ :=
    follows_opening settled at'.opening counted (knows.subset (List.subset_append_left _ _))
  exact first.walks (walks_onward inBranch at'.onward counted
    ((knows.subset (List.subset_append_right _ _)).foldl block.opening.leg))

theorem one_le_of_mem_positions {n : Nat} {i : Int} (member : i ∈ positions n) : 1 ≤ i := by
  obtain ⟨k, inside, rfl⟩ := List.mem_map.mp member
  have bound := (List.mem_range'_1.mp inside).1
  exact Int.ofNat_le.mpr bound

theorem walks_hop {b : Builder} {before h : List Segment} {isPost : Bool}
    (settled : b.Settled before isPost) (hop : IsHop isPost h) (knows : b.Knows h) :
    b.Walks before h isPost := by
  cases hop with
  | single tagged => exact walks_single settled tagged knows
  | @fanIn cs a target _ tagged same =>
    have known : (b.lookup (some target) isPost).isSome :=
      knows { label := target, branch := .none, step := none, isPost } (by simp [Segment.plain])
    have inputs : b.Walks before (cs.map fun c => [Segment.connection c]).flatten isPost := by
      apply walks_flatten settled
      intro piece member b' before' nodes settled'
      obtain ⟨c, inside, rfl⟩ := List.mem_map.mp member
      obtain ⟨i, _, tags⟩ := forall₂_mem_left tagged inside
      refine walks_member settled' (Or.inl tags.branch) tags.isPost ?_
      rw [lookup_congr nodes, (same c inside).2, tags.isPost]
      exact known
    rw [← List.flatMap_def, ← List.map_eq_flatMap] at inputs
    rw [← lookup_foldl_visit b (cs.map .connection)] at known
    exact inputs.1.walks (walks_plain _ known)
  | @fanOut blocks a _ at' same distinct =>
    rw [List.flatMap_def]
    apply walks_flatten settled
    intro piece member b' before' nodes settled'
    obtain ⟨block, inside, rfl⟩ := List.mem_map.mp member
    obtain ⟨i, counted, tags⟩ := forall₂_mem_left at' inside
    refine walks_block settled' tags (one_le_of_mem_positions counted) ?_
    intro e member
    rw [lookup_congr nodes]
    exact knows e (List.mem_flatMap.mpr ⟨block, inside, member⟩)

theorem follows_chain {b : Builder} {chain : List Segment} {isPost : Bool} (before : List Segment)
    (isChain : IsChain isPost chain) (knows : b.Knows chain) : b.Follows before chain := by
  obtain ⟨entity, hops, rfl, _, each⟩ := isChain.shape
  have atEntity : b.Walks before [Segment.plain entity isPost] isPost :=
    walks_plain before (knows { label := entity, branch := .none, step := none, isPost } (by simp [Segment.plain]))
  refine atEntity.1.append (walks_flatten atEntity.2 ?_).1
  intro h member b' before' nodes settled
  refine walks_hop settled (each h member) ?_
  intro e inside
  rw [lookup_congr nodes, lookup_foldl_visit]
  exact knows e (List.mem_cons_of_mem _ (List.mem_flatten.mpr ⟨h, member, inside⟩))

theorem follows_chains {b : Builder} {chains : List (List Segment)} (before : List Segment)
    (each : ∀ chain ∈ chains, ∃ isPost, IsChain isPost chain) (knows : b.Knows chains.flatten) :
    b.Follows before chains.flatten := by
  induction chains generalizing b before with
  | nil => exact ⟨by simp [expectedEdges], by simp [expectedEdges]⟩
  | cons chain chains ih =>
    obtain ⟨⟨isPost, atHead⟩, atTail⟩ := List.forall_mem_cons.mp each
    rw [List.flatten_cons] at knows ⊢
    have first := follows_chain before atHead (knows.subset (List.subset_append_left _ _))
    exact first.append (ih _ atTail ((knows.subset (List.subset_append_right _ _)).foldl chain))

/-- On the segments of a line the graph has the expected edges, and all of their ends. -/
theorem build_line {segs : List Segment} (line : Segment.IsLine segs) :
    (build segs).edges = expectedEdges (withNodes segs).lookup 0 [] segs ∧
      ∀ e ∈ (build segs).edges, e.isResolved = true := by
  obtain ⟨main, post, rfl, isMain, isPost⟩ := line
  have chains : (withNodes (main ++ post.flatten)).Follows [] ((main :: post).flatten) := by
    apply follows_chains
    · exact List.forall_mem_cons.mpr ⟨⟨false, isMain⟩, fun chain member => ⟨true, isPost chain member⟩⟩
    · exact fun e member => lookup_withNodes_isSome member
  rw [List.flatten_cons] at chains
  have fresh : (withNodes (main ++ post.flatten)).edges = [] := by rw [withNodes_eq]; rfl
  have edges := chains.edges
  have resolved := chains.resolved
  rw [fresh, List.nil_append, List.length_nil] at edges
  rw [fresh, List.length_nil] at resolved
  have built : (build (main ++ post.flatten)).edges =
      ((main ++ post.flatten).foldl visit (withNodes (main ++ post.flatten))).edges := rfl
  rw [built, edges]
  exact ⟨rfl, resolved⟩

/-- The nodes of a line are its entities in order of first appearance. Main entities come first, so that no label
is shared between the two flows. -/
theorem labels_build_line_eq {segs : List Segment} (line : Segment.IsLine segs) :
    (build segs).nodes.map Node.label = (segs.filterMap Segment.entityLabel?).eraseDups := by
  have labels (nodes : List Node) : nodes.map Node.label = (nodes.map Node.bare).map Node.label := by
    rw [List.map_map]
    rfl
  obtain ⟨main, post, rfl, isMain, isPost⟩ := line
  have inMain : ∀ e, .entity e ∈ main → e.isPost = false := fun e member => isMain.isPost_entity member
  have inPost : ∀ e, .entity e ∈ post.flatten → e.isPost = true := by
    intro e member
    obtain ⟨chain, inside, member⟩ := List.mem_flatten.mp member
    exact (isPost chain inside).isPost_entity member
  rw [labels, build_bare, withNodes_bare, ← labels, List.foldl_append,
    labels_foldl_introduce inPost fun n member => lookup_post_isSome member,
    labels_foldl_introduce inMain (by simp [empty]), ← List.foldl_append, ← List.filterMap_append]
  exact foldl_withLabel _

/-- In the graph of a line no two nodes share a label, not even across the two flows. -/
theorem labels_build_line {segs : List Segment} (line : Segment.IsLine segs) :
    ((build segs).nodes.map Node.label).Nodup := by
  rw [labels_build_line_eq line]
  exact nodup_eraseDups _

/-- A label that means a node before roles are given out is the label of a node of the graph, under the
same id. In the main flow that node is a main one. -/
theorem node_of_lookup {segs : List Segment} {label : Option String} {isPost : Bool}
    (known : ((withNodes segs).lookup label isPost).isSome) :
    ∃ n ∈ (build segs).nodes, label = some n.label ∧
      ((withNodes segs).lookup label isPost).map (·.id) = some n.id ∧ (isPost = false → n.isPost = false) := by
  obtain ⟨n, found⟩ := Option.isSome_iff_exists.mp known
  cases label with
  | none => cases found
  | some l =>
    obtain ⟨member, rfl⟩ := mem_of_lookup found
    obtain ⟨n', member', same⟩ := mem_of_bare (build_bare segs) member
    obtain ⟨id, label, flow⟩ := Node.eq_of_bare same
    refine ⟨n', member', by rw [label], by rw [found, id]; rfl, ?_⟩
    rintro rfl
    exact flow.trans (mem_of_node? found).2.1

/-- Both ends of an edge are nodes under their labels, and those of a main edge are main ones. -/
theorem ends_of_edge {segs : List Segment} (line : Segment.IsLine segs) {e : Edge}
    (member : e ∈ (build segs).edges) :
    ∃ m ∈ (build segs).nodes, ∃ n ∈ (build segs).nodes, e.fromLabel = some m.label ∧ e.fromId = some m.id ∧
      e.toLabel = n.label ∧ e.toId = some n.id ∧ (e.isPost = false → m.isPost = false ∧ n.isPost = false) := by
  obtain ⟨edges, resolved⟩ := build_line line
  have ends := resolved e member
  rw [edges] at member
  obtain ⟨before, c, after, rfl, rfl⟩ := Segment.mem_expectedEdges.mp member
  simp only [Edge.isResolved, edge, Option.isSome_map, Bool.and_eq_true] at ends
  obtain ⟨m, atStart, fromLabel, fromId, mainStart⟩ := node_of_lookup ends.1
  obtain ⟨n, atEnd, toLabel, toId, mainEnd⟩ := node_of_lookup ends.2
  exact ⟨m, atStart, n, atEnd, fromLabel, fromId, Option.some.inj toLabel, toId,
    fun main => ⟨mainStart main, mainEnd main⟩⟩

theorem edge_of_connection {segs before after : List Segment} {c : ConnectionSegment}
    (line : Segment.IsLine segs) (place : segs = before ++ .connection c :: after) :
    ∃ e, (build segs).edges[(before.filterMap Segment.connection?).length]? = some e ∧
      e.toLabel = c.target ∧ e.fromLabel = startOf before c ∧
      (∃ m ∈ (build segs).nodes, e.fromLabel = some m.label ∧ e.fromId = some m.id) ∧
      ∃ n ∈ (build segs).nodes, e.toLabel = n.label ∧ e.toId = some n.id := by
  obtain ⟨edges, _⟩ := build_line line
  have count := Segment.length_expectedEdges (withNodes segs).lookup 0 [] before
  have split := Segment.expectedEdges_append (withNodes segs).lookup 0 [] before (.connection c :: after)
  rw [← place, ← edges, expectedEdges, List.nil_append, Nat.zero_add] at split
  have found := congrArg (fun es => es[(before.filterMap Segment.connection?).length]?) split
  rw [List.getElem?_append_right (Nat.le_of_eq count), count, Nat.sub_self, List.getElem?_cons_zero] at found
  obtain ⟨m, atStart, n, atEnd, fromLabel, fromId, toLabel, toId, _⟩ :=
    ends_of_edge line (List.mem_of_getElem? found)
  exact ⟨_, found, rfl, rfl, ⟨m, atStart, fromLabel, fromId⟩, n, atEnd, toLabel, toId⟩

theorem warnings_build_line {segs : List Segment} (line : Segment.IsLine segs) :
    (build segs).warnings = [] := by
  rw [build_warnings, List.flatMap_eq_nil_iff]
  intro e member
  have resolved := (build_line line).2 e member
  simp only [Edge.isResolved, Bool.and_eq_true, Option.isSome_iff_ne_none] at resolved
  simp [warningsOf, resolved]

end Builder

/-- Every connection of a line that can be read has its edge in the graph, in written order, and both
ends of the edge are nodes. -/
theorem edges_of_tokenize {line : String} {segs : List Segment} (run : tokenize line = .ok segs) :
    let b := Builder.build segs
    b.warnings = [] ∧ (b.nodes.map Node.label).Nodup ∧
      b.edges.length = (segs.filterMap Segment.connection?).length ∧
      ∀ before c after, segs = before ++ .connection c :: after →
        ∃ e, b.edges[(before.filterMap Segment.connection?).length]? = some e ∧
          e.toLabel = c.target ∧ e.fromLabel = Segment.startOf before c ∧
          (∃ m ∈ b.nodes, e.fromLabel = some m.label ∧ e.fromId = some m.id) ∧
          ∃ n ∈ b.nodes, e.toLabel = n.label ∧ e.toId = some n.id := by
  obtain ⟨p, found, rfl⟩ := map_eq_ok.mp run
  have line := Pattern.isLine_segments (Pattern.wellFormed_of_read found)
  refine ⟨Builder.warnings_build_line line, Builder.labels_build_line line, ?_, ?_⟩
  · rw [(Builder.build_line line).1, Segment.length_expectedEdges]
  · intro before c after place
    exact Builder.edge_of_connection line place

/-- A line with both kinds of groups, a continuation and post-processing. -/
theorem edges_of_tokenize_groups :
    ∃ segs, tokenize "A -> (X PUSH & Y PULL) -> B <- (P PUSH <- C <- Q PULL <- D) >> C -> S PUSH -> F" = .ok segs ∧
      (Builder.build segs).warnings = [] ∧ ((Builder.build segs).nodes.map Node.label).Nodup ∧
      (Builder.build segs).edges.length = (segs.filterMap Segment.connection?).length := by
  have read : (tokenize
      "A -> (X PUSH & Y PULL) -> B <- (P PUSH <- C <- Q PULL <- D) >> C -> S PUSH -> F").isOk = true := by
    cbv
  obtain ⟨segs, run⟩ := ok_of_isOk read
  obtain ⟨warnings, labels, edges, _⟩ := edges_of_tokenize run
  exact ⟨segs, run, warnings, labels, edges⟩

end TransferFlow
