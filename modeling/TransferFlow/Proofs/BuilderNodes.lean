import Mathlib.Data.List.Induction
import Mathlib.Data.List.Nodup
import TransferFlow.Graph.Builder

namespace TransferFlow

/-- The label of an entity. -/
def Segment.entityLabel? : Segment → Option String
  | .entity e => some e.label
  | .connection _ => none

/-- Labels in order of first appearance, and one more that comes behind them. -/
def withLabel (labels : List String) (label : String) : List String :=
  if label ∈ labels then labels else labels ++ [label]

theorem foldl_withLabel (labels : List String) : labels.foldl withLabel [] = labels.eraseDups := by
  induction labels using List.reverseRecOn with
  | nil => rfl
  | append_singleton labels label ih =>
    rw [List.foldl_append, ih, List.foldl_cons, List.foldl_nil, List.eraseDups_append, withLabel]
    by_cases known : label ∈ labels
    · simp [List.mem_eraseDups, List.removeAll, known]
    · simp [List.mem_eraseDups, List.removeAll, known, List.eraseDups_cons]

theorem nodup_eraseDups (labels : List String) : labels.eraseDups.Nodup := by
  rw [← foldl_withLabel]
  induction labels using List.reverseRecOn with
  | nil => exact List.nodup_nil
  | append_singleton labels label ih =>
    rw [List.foldl_append, List.foldl_cons, List.foldl_nil, withLabel]
    split
    · exact ih
    · next fresh => exact List.nodup_append.mpr ⟨ih, List.nodup_singleton _, by grind⟩

/-- The node without its role. -/
def Node.bare (n : Node) : Node :=
  { n with role := .intermediate }

theorem Node.eq_of_bare {n n' : Node} (same : n.bare = n'.bare) :
    n.id = n'.id ∧ n.label = n'.label ∧ n.isPost = n'.isPost := by
  simp only [bare, Node.mk.injEq] at same
  exact ⟨same.1, same.2.1, same.2.2.2.2⟩

namespace Builder

theorem visitEntity_frame (b : Builder) (e : EntitySegment) :
    (b.visitEntity e).nodes = b.nodes ∧ (b.visitEntity e).edges = b.edges ∧
      (b.visitEntity e).warnings = b.warnings := by
  unfold visitEntity
  split
  · split <;> exact ⟨rfl, rfl, rfl⟩
  · split <;> exact ⟨rfl, rfl, rfl⟩
  · exact ⟨rfl, rfl, rfl⟩

theorem openGroup_frame (b : Builder) (c : ConnectionSegment) :
    (b.openGroup c).nodes = b.nodes ∧ (b.openGroup c).edges = b.edges ∧
      (b.openGroup c).warnings = b.warnings := by
  unfold openGroup
  split <;> exact ⟨rfl, rfl, rfl⟩

theorem moveOn_frame (b : Builder) (c : ConnectionSegment) :
    (b.moveOn c).nodes = b.nodes ∧ (b.moveOn c).edges = b.edges ∧
      (b.moveOn c).warnings = b.warnings := by
  unfold moveOn
  split <;> exact ⟨rfl, rfl, rfl⟩

theorem visit_nodes (b : Builder) (s : Segment) : (b.visit s).nodes = b.nodes := by
  cases s with
  | entity e => exact (b.visitEntity_frame e).1
  | connection c =>
    rw [visit, visitConnection, (moveOn_frame _ c).1]
    exact (b.openGroup_frame c).1

theorem foldl_visit_nodes (b : Builder) (segs : List Segment) :
    (segs.foldl visit b).nodes = b.nodes := by
  induction segs generalizing b with
  | nil => rfl
  | cons s segs ih => rw [List.foldl_cons, ih, visit_nodes]

/-- The first pass leaves everything but the nodes as it was. -/
theorem foldl_introduce_eq (b : Builder) (segs : List Segment) :
    segs.foldl introduce b = { b with nodes := (segs.foldl introduce b).nodes } := by
  induction segs generalizing b with
  | nil => rfl
  | cons s segs ih =>
    have atHead : b.introduce s = { b with nodes := (b.introduce s).nodes } := by
      cases s with
      | entity e =>
        rw [introduce, addNode]
        split <;> rfl
      | connection c => rfl
    rw [List.foldl_cons, ih, atHead]

theorem withNodes_eq (segs : List Segment) :
    withNodes segs = { empty with nodes := (withNodes segs).nodes } := by
  unfold withNodes
  dsimp only
  split
  · rw [markSource, foldl_introduce_eq]
  · rw [← foldl_introduce_eq]

/-- Every edge is added together with its warnings. -/
theorem visit_edges (b : Builder) (s : Segment) :
    ∃ new, (b.visit s).edges = b.edges ++ new ∧ (b.visit s).warnings = b.warnings ++ new.flatMap warningsOf := by
  cases s with
  | entity e =>
    obtain ⟨_, edges, warnings⟩ := b.visitEntity_frame e
    exact ⟨[], by rw [List.append_nil]; exact edges, by rw [List.flatMap_nil, List.append_nil]; exact warnings⟩
  | connection c =>
    obtain ⟨_, edges, warnings⟩ := b.openGroup_frame c
    rw [visit, visitConnection, (moveOn_frame _ c).2.1, (moveOn_frame _ c).2.2, addEdge, edges, warnings]
    exact ⟨[_], rfl, by rw [List.flatMap_singleton]⟩

/-- The warnings are those of the edges, in the order of the edges. -/
theorem build_warnings (segs : List Segment) :
    (build segs).warnings = (build segs).edges.flatMap warningsOf := by
  have kept (b : Builder) (told : b.warnings = b.edges.flatMap warningsOf) :
      (segs.foldl visit b).warnings = (segs.foldl visit b).edges.flatMap warningsOf := by
    induction segs generalizing b with
    | nil => exact told
    | cons s segs ih =>
      obtain ⟨new, edges, warnings⟩ := b.visit_edges s
      exact ih _ (by rw [edges, warnings, told, List.flatMap_append])
  have fresh : (withNodes segs).warnings = (withNodes segs).edges.flatMap warningsOf := by
    rw [withNodes_eq]
    rfl
  exact kept _ fresh

/-- What a label means depends on the nodes alone. -/
theorem lookup_congr {b b' : Builder} (same : b.nodes = b'.nodes) : b.lookup = b'.lookup := by
  funext label isPost
  unfold lookup node?
  rw [same]

theorem lookup_visit (b : Builder) (s : Segment) : (b.visit s).lookup = b.lookup :=
  lookup_congr (b.visit_nodes s)

theorem lookup_foldl_visit (b : Builder) (segs : List Segment) :
    (segs.foldl visit b).lookup = b.lookup :=
  lookup_congr (b.foldl_visit_nodes segs)

theorem lookup_main (b : Builder) (label : String) : b.lookup (some label) false = b.node? false label := rfl

theorem lookup_post (b : Builder) (label : String) :
    b.lookup (some label) true = (b.node? true label).or (b.node? false label) := by
  show (b.node? true label <|> b.node? false label) = _
  cases b.node? true label <;> rfl

theorem mem_of_node? {b : Builder} {isPost : Bool} {label : String} {n : Node}
    (found : b.node? isPost label = some n) : n ∈ b.nodes ∧ n.isPost = isPost ∧ n.label = label := by
  have named := List.find?_some found
  simp only [Bool.and_eq_true, beq_iff_eq] at named
  exact ⟨List.mem_of_find?_eq_some found, named⟩

theorem mem_of_lookup {b : Builder} {label : String} {isPost : Bool} {n : Node}
    (found : b.lookup (some label) isPost = some n) : n ∈ b.nodes ∧ n.label = label := by
  cases isPost with
  | false =>
    obtain ⟨member, _, named⟩ := mem_of_node? found
    exact ⟨member, named⟩
  | true =>
    rw [lookup_post] at found
    rcases Option.or_eq_some_iff.mp found with inPost | ⟨_, inMain⟩
    · obtain ⟨member, _, named⟩ := mem_of_node? inPost
      exact ⟨member, named⟩
    · obtain ⟨member, _, named⟩ := mem_of_node? inMain
      exact ⟨member, named⟩

/-- A label means something in post-processing as soon as any node has it. -/
theorem lookup_post_isSome {b : Builder} {n : Node} (member : n ∈ b.nodes) :
    (b.lookup (some n.label) true).isSome := by
  rw [lookup_post, Option.isSome_or, Bool.or_eq_true]
  unfold node?
  rw [List.find?_isSome, List.find?_isSome]
  cases post : n.isPost with
  | true => exact Or.inl ⟨n, member, by simp [post]⟩
  | false => exact Or.inr ⟨n, member, by simp [post]⟩

theorem lookup_main_isSome {b : Builder} {n : Node} (member : n ∈ b.nodes) (main : n.isPost = false) :
    (b.lookup (some n.label) false).isSome := by
  rw [lookup_main]
  unfold node?
  rw [List.find?_isSome]
  exact ⟨n, member, by simp [main]⟩

/-- More nodes, and other roles, never take a label's meaning away. -/
theorem lookup_isSome_mono {b b' : Builder} {label : String} {isPost : Bool}
    (known : (b.lookup (some label) isPost).isSome)
    (grown : ∀ n ∈ b.nodes, ∃ n' ∈ b'.nodes, n'.bare = n.bare) :
    (b'.lookup (some label) isPost).isSome := by
  obtain ⟨n, found⟩ := Option.isSome_iff_exists.mp known
  cases isPost with
  | true =>
    obtain ⟨member, rfl⟩ := mem_of_lookup found
    obtain ⟨n', member', same⟩ := grown n member
    rw [← (Node.eq_of_bare same).2.1]
    exact lookup_post_isSome member'
  | false =>
    obtain ⟨member, main, rfl⟩ := mem_of_node? found
    obtain ⟨n', member', same⟩ := grown n member
    obtain ⟨_, label, flag⟩ := Node.eq_of_bare same
    rw [← label]
    exact lookup_main_isSome member' (flag.trans main)

/-- A node is added for a label without meaning, and for no other. -/
theorem addNode_cases (b : Builder) (label : String) (isPost : Bool) :
    (b.lookup (some label) isPost).isSome ∧ b.addNode label isPost = b ∨
      b.lookup (some label) isPost = none ∧
        ∃ n, (b.addNode label isPost).nodes = b.nodes ++ [n] ∧ n.label = label ∧ n.isPost = isPost := by
  unfold addNode
  cases known : b.lookup (some label) isPost with
  | some n => exact Or.inl ⟨rfl, rfl⟩
  | none => exact Or.inr ⟨rfl, _, rfl, rfl, rfl⟩

theorem addNode_prefix (b : Builder) (label : String) (isPost : Bool) :
    b.nodes <+: (b.addNode label isPost).nodes := by
  rcases b.addNode_cases label isPost with ⟨_, same⟩ | ⟨_, n, grown, _⟩
  · exact ⟨[], by rw [same, List.append_nil]⟩
  · exact ⟨[n], grown.symm⟩

theorem lookup_addNode_isSome (b : Builder) (label : String) (isPost : Bool) :
    ((b.addNode label isPost).lookup (some label) isPost).isSome := by
  rcases b.addNode_cases label isPost with ⟨known, same⟩ | ⟨_, n, grown, rfl, rfl⟩
  · rwa [same]
  · have member : n ∈ (b.addNode n.label n.isPost).nodes := by rw [grown]; simp
    cases post : n.isPost with
    | true =>
      rw [post] at member
      exact lookup_post_isSome member
    | false =>
      rw [post] at member
      exact lookup_main_isSome member post

theorem foldl_introduce_prefix (b : Builder) (segs : List Segment) :
    b.nodes <+: (segs.foldl introduce b).nodes := by
  induction segs generalizing b with
  | nil => exact List.prefix_rfl
  | cons s segs ih =>
    rw [List.foldl_cons]
    cases s with
    | entity e => exact (b.addNode_prefix e.label e.isPost).trans (ih _)
    | connection c => exact ih b

theorem lookup_foldl_introduce_isSome {b : Builder} {segs : List Segment} {e : EntitySegment}
    (member : .entity e ∈ segs) :
    ((segs.foldl introduce b).lookup (some e.label) e.isPost).isSome := by
  induction segs generalizing b with
  | nil => cases member
  | cons s segs ih =>
    rw [List.foldl_cons]
    rcases List.mem_cons.mp member with rfl | member
    · have kept := foldl_introduce_prefix (b.addNode e.label e.isPost) segs
      exact lookup_isSome_mono (b.lookup_addNode_isSome e.label e.isPost)
        fun n inside => ⟨n, kept.subset inside, rfl⟩
    · exact ih member

theorem labels_addNode {b : Builder} {isPost : Bool} (label : String)
    (known : ∀ n ∈ b.nodes, (b.lookup (some n.label) isPost).isSome) :
    (b.addNode label isPost).nodes.map Node.label = withLabel (b.nodes.map Node.label) label := by
  rw [withLabel]
  rcases b.addNode_cases label isPost with ⟨found, same⟩ | ⟨unknown, n, grown, named, _⟩
  · obtain ⟨n, found⟩ := Option.isSome_iff_exists.mp found
    obtain ⟨member, rfl⟩ := mem_of_lookup found
    rw [same, if_pos (List.mem_map_of_mem member)]
  · have fresh : label ∉ b.nodes.map Node.label := by
      intro member
      obtain ⟨m, inside, rfl⟩ := List.mem_map.mp member
      have meaning := known m inside
      rw [unknown] at meaning
      cases meaning
    rw [grown, if_neg fresh, List.map_append, List.map_singleton, named]

/-- In a flow where every label already means something, adding a node for each entity lists the labels in order
of first appearance. -/
theorem labels_foldl_introduce {b : Builder} {segs : List Segment} {isPost : Bool}
    (flags : ∀ e, .entity e ∈ segs → e.isPost = isPost)
    (known : ∀ n ∈ b.nodes, (b.lookup (some n.label) isPost).isSome) :
    (segs.foldl introduce b).nodes.map Node.label =
      (segs.filterMap Segment.entityLabel?).foldl withLabel (b.nodes.map Node.label) := by
  induction segs generalizing b with
  | nil => rfl
  | cons s segs ih =>
    have later : ∀ e, .entity e ∈ segs → e.isPost = isPost :=
      fun e member => flags e (List.mem_cons_of_mem _ member)
    cases s with
    | connection c => exact ih later known
    | entity e =>
      have known' : ∀ n ∈ (b.addNode e.label isPost).nodes,
          ((b.addNode e.label isPost).lookup (some n.label) isPost).isSome := by
        intro n member
        rcases b.addNode_cases e.label isPost with ⟨_, same⟩ | ⟨_, new, grown, named, _⟩
        · rw [same] at member ⊢
          exact known n member
        · rw [grown] at member
          rcases List.mem_append.mp member with old | atEnd
          · exact lookup_isSome_mono (known n old) fun m inside => ⟨m, (b.addNode_prefix _ _).subset inside, rfl⟩
          · rw [List.mem_singleton.mp atEnd, named]
            exact b.lookup_addNode_isSome e.label isPost
      rw [List.foldl_cons, introduce, flags e List.mem_cons_self, ih later known', labels_addNode e.label known]
      rfl

theorem markSource_bare (b : Builder) (position : Nat) :
    (b.markSource position).nodes.map Node.bare = b.nodes.map Node.bare := by
  apply List.ext_getElem?
  intro i
  simp only [markSource, List.getElem?_map, List.getElem?_modify]
  cases b.nodes[i]? with
  | none => rfl
  | some n =>
    by_cases here : position = i
    · simp [here, Node.bare]
    · simp [here]

theorem withNodes_bare (segs : List Segment) :
    (withNodes segs).nodes.map Node.bare = (segs.foldl introduce empty).nodes.map Node.bare := by
  unfold withNodes
  dsimp only
  split
  · exact markSource_bare _ _
  · rfl

theorem targetLastPost_bare (nodes : List Node) :
    (targetLastPost nodes).map Node.bare = nodes.map Node.bare := by
  fun_induction targetLastPost nodes with
  | case1 => rfl
  | case2 n rest last => rfl
  | case3 n rest more ih => rw [List.map_cons, ih, List.map_cons]

theorem assignRoles_bare (b : Builder) : b.assignRoles.nodes.map Node.bare = b.nodes.map Node.bare := by
  rw [assignRoles, targetLastPost_bare, List.map_map]
  rfl

/-- Role apart, the nodes of a graph are those that the first pass finds. -/
theorem build_bare (segs : List Segment) :
    (build segs).nodes.map Node.bare = (withNodes segs).nodes.map Node.bare := by
  rw [build, assignRoles_bare, foldl_visit_nodes]

theorem mem_of_bare {nodes nodes' : List Node} (same : nodes'.map Node.bare = nodes.map Node.bare)
    {n : Node} (member : n ∈ nodes) : ∃ n' ∈ nodes', n'.bare = n.bare := by
  have inside : n.bare ∈ nodes'.map Node.bare := by
    rw [same]
    exact List.mem_map_of_mem member
  exact List.mem_map.mp inside

/-- After the first pass every entity means a node. -/
theorem lookup_withNodes_isSome {segs : List Segment} {e : EntitySegment} (member : .entity e ∈ segs) :
    ((withNodes segs).lookup (some e.label) e.isPost).isSome :=
  lookup_isSome_mono (lookup_foldl_introduce_isSome (b := empty) member)
    fun _ inside => mem_of_bare (withNodes_bare segs) inside

end Builder

end TransferFlow
