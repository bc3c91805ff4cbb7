import TransferFlow.Proofs.BuilderNodes
import TransferFlow.Proofs.Reading

namespace TransferFlow

/-- The edge at position `i` says what the connection `c` says. -/
structure Edge.Copies (e : Edge) (c : ConnectionSegment) (i : Nat) : Prop where
  id : e.id = "edge_" ++ toString i
  index : e.index = i
  toLabel : e.toLabel = c.target
  protocol : e.protocol = c.protocol
  direction : e.direction = c.direction
  arrow : e.arrow = c.arrow
  flowDirection : e.flowDirection = .reverse ↔ c.arrow = .reverse
  branch : e.branch = c.branch
  step : e.step = c.step
  isPost : e.isPost = c.isPost
  startsPost : e.startsPost = c.startsPost

/-- The ends of an edge among the nodes of its graph: a given end is a node with the label of that end, and
the end it leads to is missing just when no node has its label, where an edge of the main flow looks for
main nodes alone. -/
structure Edge.EndsIn (e : Edge) (nodes : List Node) : Prop where
  fromNode : ∀ id, e.fromId = some id → ∃ n ∈ nodes, n.id = id ∧ e.fromLabel = some n.label
  toNode : ∀ id, e.toId = some id → ∃ n ∈ nodes, n.id = id ∧ e.toLabel = n.label
  toMissing : e.toId = none ↔
    (¬ ∃ n ∈ nodes, n.label = e.toLabel ∧ n.isPost = false) ∧
      (e.isPost = true → ¬ ∃ n ∈ nodes, n.label = e.toLabel ∧ n.isPost = true)

/-- What is logged about an edge: that it lacks its start, and then that it lacks its end. -/
def Edge.missingEnds (e : Edge) : List Warning :=
  let lack (missing : MissingEnd) : Warning :=
    { missing, fromLabel := e.fromLabel, toLabel := e.toLabel, protocol := e.protocol }
  match e.fromId, e.toId with
  | some _, some _ => []
  | some _, none => [lack .to]
  | none, some _ => [lack .from]
  | none, none => [lack .from, lack .to]

/-- A node is told by its label and its flow. -/
def Node.key (n : Node) : String × Bool :=
  (n.label, n.isPost)

namespace Builder

section Nodes

/-- Every node carries its position as its id and its index. -/
def Numbered (nodes : List Node) : Prop :=
  ∀ (i : Nat) (n : Node), nodes[i]? = some n → n.id = "node_" ++ toString i ∧ n.index = i

theorem Numbered.of_bare {nodes nodes' : List Node} (numbered : Numbered nodes)
    (same : nodes'.map Node.bare = nodes.map Node.bare) : Numbered nodes' := by
  intro i n' atPlace
  have place := congrArg (fun ns => ns[i]?) same
  simp only [List.getElem?_map, atPlace, Option.map_some] at place
  obtain ⟨n, inPlace, bare⟩ := Option.map_eq_some_iff.mp place.symm
  obtain ⟨id, index⟩ := numbered i n inPlace
  simp only [Node.bare, Node.mk.injEq] at bare
  exact ⟨bare.1.symm.trans id, bare.2.2.2.1.symm.trans index⟩

theorem Numbered.concat {nodes : List Node} {n : Node} (numbered : Numbered nodes)
    (id : n.id = "node_" ++ toString nodes.length) (index : n.index = nodes.length) : Numbered (nodes ++ [n]) := by
  intro i m atPlace
  rcases Nat.lt_trichotomy i nodes.length with before | rfl | behind
  · exact numbered i m (by rwa [List.getElem?_append_left before] at atPlace)
  · rw [List.getElem?_concat_length] at atPlace
    cases atPlace
    exact ⟨id, index⟩
  · rw [List.getElem?_eq_none (by rw [List.length_append, List.length_singleton]; omega)] at atPlace
    cases atPlace

/-- A new node has a key of its own: its label means nothing yet in its flow. -/
theorem key_fresh {b : Builder} {label : String} {isPost : Bool} (unknown : b.lookup (some label) isPost = none) :
    (label, isPost) ∉ b.nodes.map Node.key := by
  intro member
  obtain ⟨n, inside, same⟩ := List.mem_map.mp member
  cases same
  cases post : n.isPost with
  | true =>
    have known := lookup_post_isSome inside
    rw [post] at unknown
    rw [unknown] at known
    cases known
  | false =>
    have known := lookup_main_isSome inside post
    rw [post] at unknown
    rw [unknown] at known
    cases known

/-- What the first pass keeps of the nodes. -/
structure Registered (nodes : List Node) : Prop where
  numbered : Numbered nodes
  distinct : (nodes.map Node.key).Nodup

theorem Registered.addNode {b : Builder} (registered : Registered b.nodes) (label : String) (isPost : Bool) :
    Registered (b.addNode label isPost).nodes := by
  unfold Builder.addNode
  cases known : b.lookup (some label) isPost with
  | some n => exact registered
  | none =>
    refine ⟨registered.numbered.concat rfl rfl, ?_⟩
    show ((b.nodes ++ [_]).map Node.key).Nodup
    rw [List.map_append, List.map_singleton]
    exact registered.distinct.append (List.nodup_singleton _) (by simpa [Node.key] using key_fresh known)

theorem Registered.foldl_introduce {b : Builder} (registered : Registered b.nodes) (segs : List Segment) :
    Registered (segs.foldl introduce b).nodes := by
  induction segs generalizing b with
  | nil => exact registered
  | cons s segs ih =>
    cases s with
    | entity e => exact ih (registered.addNode e.label e.isPost)
    | connection c => exact ih registered

theorem registered_build (segs : List Segment) : Registered (build segs).nodes := by
  have fresh : Registered empty.nodes := ⟨by simp [Numbered, empty], by simp [empty]⟩
  have first := fresh.foldl_introduce segs
  have bare := (build_bare segs).trans (withNodes_bare segs)
  have keys (nodes : List Node) : nodes.map Node.key = (nodes.map Node.bare).map Node.key := by
    rw [List.map_map]
    rfl
  refine ⟨first.numbered.of_bare bare, ?_⟩
  rw [keys, bare, ← keys]
  exact first.distinct

end Nodes

section Edges

/-- The edge that a builder with the nodes of `b` may draw at position `i` for the connection `c`. Where it
starts is open; both of its ends are looked up among the nodes. -/
def Draws (b : Builder) (c : ConnectionSegment) (i : Nat) (e : Edge) : Prop :=
  ∃ fromLabel isPost, e = edge i c fromLabel (b.lookup fromLabel isPost) (b.lookup (some c.target) c.isPost)

theorem draws_congr {b b' : Builder} (same : b.nodes = b'.nodes) : b.Draws = b'.Draws := by
  unfold Draws
  rw [lookup_congr same]

theorem visit_draws (b : Builder) (c : ConnectionSegment) :
    ∃ e, (b.visit (.connection c)).edges = b.edges ++ [e] ∧ b.Draws c b.edges.length e := by
  obtain ⟨nodes, edges, _⟩ := b.openGroup_frame c
  refine ⟨edge b.edges.length c ((b.openGroup c).sourceLabel c)
    (b.lookup ((b.openGroup c).sourceLabel c) ((b.openGroup c).sourceIsPost c)) (b.lookup (some c.target) c.isPost),
    ?_, _, _, rfl⟩
  rw [visit, visitConnection, (moveOn_frame _ c).2.1, addEdge, lookup_congr nodes]
  show (b.openGroup c).edges ++ _ = _
  rw [edges]

/-- The second pass draws one edge for each connection, in order. -/
theorem foldl_visit_draws (b : Builder) (segs : List Segment) :
    ∃ new, (segs.foldl visit b).edges = b.edges ++ new ∧
      List.Forall₂ (fun place e => b.Draws place.1 place.2 e)
        ((segs.filterMap Segment.connection?).zipIdx b.edges.length) new := by
  induction segs generalizing b with
  | nil => exact ⟨[], (List.append_nil _).symm, .nil⟩
  | cons s segs ih =>
    obtain ⟨new, edges, drawn⟩ := ih (b.visit s)
    rw [draws_congr (b.visit_nodes s)] at drawn
    rw [List.foldl_cons, edges]
    cases s with
    | entity e =>
      have same : (b.visit (.entity e)).edges = b.edges := (b.visitEntity_frame e).2.1
      rw [same] at drawn ⊢
      exact ⟨new, rfl, drawn⟩
    | connection c =>
      obtain ⟨e, grown, draws⟩ := b.visit_draws c
      rw [grown, List.length_append, List.length_singleton] at drawn
      rw [grown, List.append_assoc]
      exact ⟨e :: new, rfl, .cons draws drawn⟩

theorem Draws.copies {b : Builder} {c : ConnectionSegment} {i : Nat} {e : Edge} (draws : b.Draws c i e) :
    e.Copies c i := by
  obtain ⟨fromLabel, isPost, rfl⟩ := draws
  refine ⟨rfl, rfl, rfl, rfl, rfl, rfl, ?_, rfl, rfl, rfl, rfl⟩
  show FlowDirection.ofArrow c.arrow = .reverse ↔ _
  cases c.arrow <;> simp [FlowDirection.ofArrow]

theorem node_of_id {b : Builder} {nodes : List Node} {label : Option String} {isPost : Bool} {id : String}
    (kept : ∀ n ∈ b.nodes, ∃ n' ∈ nodes, n'.bare = n.bare) (found : (b.lookup label isPost).map (·.id) = some id) :
    ∃ n ∈ nodes, n.id = id ∧ label = some n.label := by
  obtain ⟨n, atLabel, rfl⟩ := Option.map_eq_some_iff.mp found
  cases label with
  | none => cases atLabel
  | some l =>
    obtain ⟨member, rfl⟩ := mem_of_lookup atLabel
    obtain ⟨n', inside, same⟩ := kept n member
    obtain ⟨id, label, _⟩ := Node.eq_of_bare same
    exact ⟨n', inside, id, by rw [label]⟩

theorem node?_eq_none {b : Builder} {isPost : Bool} {label : String} :
    b.node? isPost label = none ↔ ¬ ∃ n ∈ b.nodes, n.label = label ∧ n.isPost = isPost := by
  unfold node?
  rw [List.find?_eq_none]
  simp only [Bool.and_eq_true, beq_iff_eq]
  grind

/-- A label means no node just when no main node has it and, in post-processing, no other node either. -/
theorem lookup_eq_none {b : Builder} {label : String} {isPost : Bool} :
    b.lookup (some label) isPost = none ↔
      (¬ ∃ n ∈ b.nodes, n.label = label ∧ n.isPost = false) ∧
        (isPost = true → ¬ ∃ n ∈ b.nodes, n.label = label ∧ n.isPost = true) := by
  cases isPost with
  | false => rw [lookup_main, node?_eq_none]; simp
  | true =>
    rw [lookup_post, Option.or_eq_none_iff, node?_eq_none, node?_eq_none, and_comm]
    simp

/-- Whether a label names a node of a flow does not depend on roles. -/
theorem exists_of_bare {nodes nodes' : List Node} (same : nodes'.map Node.bare = nodes.map Node.bare)
    {label : String} {isPost : Bool} (named : ∃ n ∈ nodes, n.label = label ∧ n.isPost = isPost) :
    ∃ n ∈ nodes', n.label = label ∧ n.isPost = isPost := by
  obtain ⟨n, member, label, flag⟩ := named
  obtain ⟨n', inside, bare⟩ := mem_of_bare same member
  obtain ⟨_, label', flag'⟩ := Node.eq_of_bare bare
  exact ⟨n', inside, label'.trans label, flag'.trans flag⟩

theorem Draws.endsIn {b : Builder} {nodes : List Node} {c : ConnectionSegment} {i : Nat} {e : Edge}
    (draws : b.Draws c i e) (same : nodes.map Node.bare = b.nodes.map Node.bare) : e.EndsIn nodes := by
  obtain ⟨fromLabel, isPost, rfl⟩ := draws
  constructor
  · intro id found
    exact node_of_id (fun n member => mem_of_bare same member) found
  · intro id found
    obtain ⟨n, member, sameId, label⟩ := node_of_id (fun n member => mem_of_bare same member) found
    exact ⟨n, member, sameId, Option.some.inj label⟩
  · have names (isPost : Bool) : (∃ n ∈ nodes, n.label = c.target ∧ n.isPost = isPost) ↔
        ∃ n ∈ b.nodes, n.label = c.target ∧ n.isPost = isPost :=
      ⟨exists_of_bare same.symm, exists_of_bare same⟩
    show (b.lookup (some c.target) c.isPost).map _ = none ↔
      (¬ ∃ n ∈ nodes, n.label = c.target ∧ n.isPost = false) ∧
        (c.isPost = true → ¬ ∃ n ∈ nodes, n.label = c.target ∧ n.isPost = true)
    rw [names, names, Option.map_eq_none_iff, lookup_eq_none]

theorem warningsOf_eq : warningsOf = Edge.missingEnds := by
  funext e
  unfold warningsOf Edge.missingEnds
  cases e.fromId <;> cases e.toId <;> rfl

end Edges

end Builder

/-- Every list of segments has a graph that is in order: numbered nodes that never share label and flow, one
edge for each connection with the ends that its labels mean, and a warning for each end that is missing. -/
theorem graph_of_segments (segs : List Segment) :
    let b := Builder.build segs
    (∀ (i : Nat) (n : Node), b.nodes[i]? = some n → n.id = "node_" ++ toString i ∧ n.index = i) ∧
      (b.nodes.map fun n => (n.label, n.isPost)).Nodup ∧
      List.Forall₂ (fun place e => e.Copies place.1 place.2) (segs.filterMap Segment.connection?).zipIdx b.edges ∧
      (∀ e ∈ b.edges, e.EndsIn b.nodes) ∧
      b.warnings = b.edges.flatMap Edge.missingEnds := by
  obtain ⟨numbered, distinct⟩ := Builder.registered_build segs
  obtain ⟨edges, built, drawn⟩ := Builder.foldl_visit_draws (Builder.withNodes segs) segs
  have fresh : (Builder.withNodes segs).edges = [] := by rw [Builder.withNodes_eq]; rfl
  have whole : (Builder.build segs).edges = edges := by
    rw [fresh, List.nil_append] at built
    exact built
  rw [fresh] at drawn
  refine ⟨numbered, distinct, ?_, ?_, ?_⟩
  · rw [whole]
    exact drawn.imp fun _ _ => Builder.Draws.copies
  · rw [whole]
    intro e member
    obtain ⟨place, _, draws⟩ := forall₂_mem_right drawn member
    exact draws.endsIn (Builder.build_bare segs)
  · rw [Builder.build_warnings, Builder.warningsOf_eq]

end TransferFlow
