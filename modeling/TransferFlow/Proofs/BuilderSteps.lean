import TransferFlow.Graph.Tables
import TransferFlow.Proofs.GraphShape

namespace TransferFlow

theorem LabelTable.get?_set (t : LabelTable) (label label' : String) (place : Nat) :
    (t.set label place).get? label' = if label' = label then some place else t.get? label' := by
  unfold LabelTable.set LabelTable.get?
  rw [List.lookup_cons]
  by_cases same : label' = label
  · simp [same]
  · rw [beq_eq_false_iff_ne.mpr same, if_neg same]
    dsimp only
    induction t.entries with
    | nil => rfl
    | cons entry entries ih =>
      obtain ⟨key, old⟩ := entry
      by_cases other : key = label
      · simp [other, List.lookup_cons, beq_eq_false_iff_ne.mpr same, ih]
      · simp [other, List.lookup_cons, ih]

theorem getElem?_concat_eq_some {α : Type} {xs : List α} {x y : α} {i : Nat} :
    (xs ++ [x])[i]? = some y ↔ xs[i]? = some y ∨ i = xs.length ∧ x = y := by
  rcases Nat.lt_trichotomy i xs.length with before | rfl | behind
  · rw [List.getElem?_append_left before]
    simp [Nat.ne_of_lt before]
  · simp
  · rw [List.getElem?_eq_none (by simp; omega), List.getElem?_eq_none (Nat.le_of_lt behind)]
    simp [Nat.ne_of_gt behind]

/-- The edge at position `i` has the id of its position, and an end that has a node is labelled like it. -/
structure Edge.Anchored (e : Edge) (i : Nat) (nodes : List Node) : Prop where
  id : e.id = "edge_" ++ toString i
  index : e.index = i
  fromNode : ∀ id, e.fromId = some id → ∃ n ∈ nodes, n.id = id ∧ e.fromLabel = some n.label
  toNode : ∀ id, e.toId = some id → ∃ n ∈ nodes, n.id = id ∧ e.toLabel = n.label

theorem Edge.Anchored.mono {e : Edge} {i : Nat} {nodes nodes' : List Node} (anchored : e.Anchored i nodes)
    (kept : ∀ n ∈ nodes, ∃ n' ∈ nodes', n'.bare = n.bare) : e.Anchored i nodes' where
  id := anchored.id
  index := anchored.index
  fromNode := by
    intro id found
    obtain ⟨n, member, rfl, label⟩ := anchored.fromNode id found
    obtain ⟨n', inside, same⟩ := kept n member
    obtain ⟨sameId, sameLabel, _⟩ := Node.eq_of_bare same
    exact ⟨n', inside, sameId, by rw [label, sameLabel]⟩
  toNode := by
    intro id found
    obtain ⟨n, member, rfl, label⟩ := anchored.toNode id found
    obtain ⟨n', inside, same⟩ := kept n member
    obtain ⟨sameId, sameLabel, _⟩ := Node.eq_of_bare same
    exact ⟨n', inside, sameId, by rw [label, sameLabel]⟩

namespace BuilderStep

def isVisit : BuilderStep → Bool
  | .visit _ => true
  | _ => false

def addsNode : BuilderStep → Bool
  | .addNode _ _ => true
  | _ => false

end BuilderStep

namespace Builder

theorem Draws.anchored {b : Builder} {c : ConnectionSegment} {i : Nat} {e : Edge} (draws : b.Draws c i e) :
    e.Anchored i b.nodes := by
  have ends := @Draws.endsIn b b.nodes c i e draws rfl
  exact ⟨draws.copies.id, draws.copies.index, ends.fromNode, ends.toNode⟩

/-- What a step keeps: nodes change no more than their roles and edges do not change at all. Only a visit
draws edges, and only adding a node adds nodes. -/
structure Keeps (b : Builder) (s : BuilderStep) (b' : Builder) : Prop where
  nodes : ∀ (i : Nat) (n : Node), b.nodes[i]? = some n → ∃ role, b'.nodes[i]? = some { n with role }
  edges : b.edges <+: b'.edges
  visit : s.isVisit = true → b'.nodes = b.nodes
  other : s.isVisit = false → b'.edges = b.edges
  length : s.addsNode = false → b'.nodes.length = b.nodes.length

theorem getElem?_of_bare {nodes nodes' : List Node} (kept : nodes.map Node.bare <+: nodes'.map Node.bare) {i : Nat}
    {n : Node} (atPlace : nodes[i]? = some n) : ∃ role, nodes'[i]? = some { n with role } := by
  have inPlace : (nodes'.map Node.bare)[i]? = some n.bare := by
    obtain ⟨more, whole⟩ := kept
    obtain ⟨inside, _⟩ := List.getElem?_eq_some_iff.mp atPlace
    rw [← whole, List.getElem?_append_left (by simpa using inside), List.getElem?_map, atPlace, Option.map_some]
  rw [List.getElem?_map] at inPlace
  obtain ⟨n', found, same⟩ := Option.map_eq_some_iff.mp inPlace
  refine ⟨n'.role, ?_⟩
  simp only [Node.bare, Node.mk.injEq] at same
  obtain ⟨id, label, _, index, flag⟩ := same
  rw [found, ← id, ← label, ← index, ← flag]

theorem take_bare (b : Builder) (s : BuilderStep) :
    b.nodes.map Node.bare <+: (b.take s).nodes.map Node.bare ∧
      (s.addsNode = false → (b.take s).nodes.map Node.bare = b.nodes.map Node.bare) := by
  cases s with
  | addNode label isPost => exact ⟨(b.addNode_prefix label isPost).map _, by intro never; cases never⟩
  | lookup | resetGroup => exact ⟨List.prefix_rfl, fun _ => rfl⟩
  | markSource place =>
    have same := b.markSource_bare place
    exact ⟨same ▸ List.prefix_rfl, fun _ => same⟩
  | assignRoles =>
    have same := b.assignRoles_bare
    exact ⟨same ▸ List.prefix_rfl, fun _ => same⟩
  | visit s =>
    have same := b.visit_nodes s
    rw [take, same]
    exact ⟨List.prefix_rfl, fun _ => rfl⟩

theorem keeps_take (b : Builder) (s : BuilderStep) : b.Keeps s (b.take s) where
  nodes := fun _ _ => getElem?_of_bare (b.take_bare s).1
  edges := by
    cases s with
    | visit s =>
      obtain ⟨new, edges, _⟩ := b.visit_edges s
      exact ⟨new, edges.symm⟩
    | addNode label isPost =>
      rw [take, addNode]
      split <;> exact List.prefix_rfl
    | lookup | resetGroup | markSource | assignRoles => exact List.prefix_rfl
  visit := by
    cases s with
    | visit s => exact fun _ => b.visit_nodes s
    | addNode | lookup | resetGroup | markSource | assignRoles => intro never; cases never
  other := by
    cases s with
    | visit s => intro never; cases never
    | addNode label isPost =>
      intro _
      rw [take, addNode]
      split <;> rfl
    | lookup | resetGroup | markSource | assignRoles => exact fun _ => rfl
  length := by
    intro adds
    simpa using congrArg List.length ((b.take_bare s).2 adds)

end Builder

namespace TabledBuilder

/-- The labels and flows of all nodes, by which the tables find them. -/
def keys (t : TabledBuilder) : List (String × Bool) :=
  t.builder.nodes.map Node.key

/-- The tables hold all nodes and no more. Where the two flows share a label, post-processing has had it first. -/
structure InOrder (t : TabledBuilder) : Prop where
  registered : Builder.Registered t.builder.nodes
  tables : ∀ isPost label (i : Nat), (t.table isPost).get? label = some i ↔ t.keys[i]? = some (label, isPost)
  postFirst : ∀ label (i j : Nat), t.keys[i]? = some (label, true) → t.keys[j]? = some (label, false) → i < j
  edges : ∀ (i : Nat) (e : Edge), t.builder.edges[i]? = some e → e.Anchored i t.builder.nodes

theorem inOrder_empty : empty.InOrder where
  registered := ⟨by simp [Builder.Numbered, empty, Builder.empty], by simp [empty, Builder.empty]⟩
  tables := by
    intro isPost label i
    cases isPost <;> simp [table, keys, empty, LabelTable.empty, LabelTable.get?, Builder.empty]
  postFirst := by simp [keys, empty, Builder.empty]
  edges := by simp [empty, Builder.empty]

variable {t : TabledBuilder}

theorem keys_of_bare {t' : TabledBuilder}
    (same : t'.builder.nodes.map Node.bare = t.builder.nodes.map Node.bare) : t'.keys = t.keys := by
  have keys (nodes : List Node) : nodes.map Node.key = (nodes.map Node.bare).map Node.key := by
    rw [List.map_map]
    rfl
  rw [TabledBuilder.keys, keys, same, ← keys, TabledBuilder.keys]

/-- A step that adds no node keeps the order, if the new edges are in order. -/
theorem InOrder.of_bare {t' : TabledBuilder} (inOrder : t.InOrder)
    (same : t'.builder.nodes.map Node.bare = t.builder.nodes.map Node.bare) (tables : t'.table = t.table)
    (edges : ∀ (i : Nat) (e : Edge), t'.builder.edges[i]? = some e → e.Anchored i t.builder.nodes) :
    t'.InOrder where
  registered := by
    refine ⟨inOrder.registered.numbered.of_bare same, ?_⟩
    show t'.keys.Nodup
    rw [keys_of_bare same]
    exact inOrder.registered.distinct
  tables := by
    rw [tables, keys_of_bare same]
    exact inOrder.tables
  postFirst := by
    rw [keys_of_bare same]
    exact inOrder.postFirst
  edges := fun i e drawn => (edges i e drawn).mono fun _ member => Builder.mem_of_bare same member

theorem getElem?_keys {i : Nat} {key : String × Bool} :
    t.keys[i]? = some key ↔ ∃ n, t.builder.nodes[i]? = some n ∧ n.key = key := by
  rw [keys, List.getElem?_map, Option.map_eq_some_iff]

/-- A table finds the node that a search through all nodes finds. -/
theorem InOrder.node? (inOrder : t.InOrder) (isPost : Bool) (label : String) :
    (((t.table isPost).get? label).bind fun place => t.builder.nodes[place]?) = t.builder.node? isPost label := by
  cases found : (t.table isPost).get? label with
  | none =>
    refine (Builder.node?_eq_none.mpr ?_).symm
    rintro ⟨n, member, rfl, rfl⟩
    obtain ⟨i, atPlace⟩ := List.mem_iff_getElem?.mp member
    have noted := (inOrder.tables n.isPost n.label i).mpr (getElem?_keys.mpr ⟨n, atPlace, rfl⟩)
    rw [noted] at found
    cases found
  | some i =>
    obtain ⟨n, atPlace, key⟩ := getElem?_keys.mp ((inOrder.tables isPost label i).mp found)
    cases key
    cases search : t.builder.node? n.isPost n.label with
    | none => exact absurd ⟨n, List.mem_of_getElem? atPlace, rfl, rfl⟩ (Builder.node?_eq_none.mp search)
    | some m =>
      obtain ⟨member, flag, label⟩ := Builder.mem_of_node? search
      have same : m = n :=
        List.inj_on_of_nodup_map inOrder.registered.distinct member (List.mem_of_getElem? atPlace)
        (by rw [Node.key, Node.key, flag, label])
      rw [same]
      exact atPlace

theorem InOrder.lookup (inOrder : t.InOrder) : t.lookup = t.builder.lookup := by
  funext label isPost
  cases label with
  | none => rfl
  | some l =>
    have main := inOrder.node? false l
    have post := inOrder.node? true l
    simp only [table, if_true, if_neg Bool.false_ne_true] at main post
    cases isPost with
    | false => exact main
    | true =>
      rw [Builder.lookup_post, ← post, ← main]
      show ((t.postTable.get? l <|> t.mainTable.get? l).bind fun place => t.builder.nodes[place]?) = _
      cases found : t.postTable.get? l with
      | none => rfl
      | some i =>
        obtain ⟨n, atPlace, _⟩ := getElem?_keys.mp ((inOrder.tables true l i).mp found)
        show t.builder.nodes[i]? = Option.or (t.builder.nodes[i]?) _
        rw [atPlace]
        rfl

/-- A step does to the builder in it what it does to a builder without tables. -/
theorem InOrder.builder_take (inOrder : t.InOrder) (s : BuilderStep) : (t.take s).builder = t.builder.take s := by
  cases s with
  | addNode label isPost =>
    rw [take, addNode, inOrder.lookup, Builder.take, Builder.addNode]
    split <;> rfl
  | lookup | resetGroup | markSource | assignRoles => rfl
  | visit s =>
    cases s with
    | entity e => rfl
    | connection c =>
      have same : t.lookup = (t.builder.openGroup c).lookup := by
        rw [inOrder.lookup]
        exact Builder.lookup_congr (t.builder.openGroup_frame c).1.symm
      rw [take, visitConnection, same]
      rfl

theorem table_note (label : String) (isPost : Bool) (place : Nat) (flag : Bool) :
    (t.note label isPost place).table flag =
      if flag = isPost then (t.table flag).set label place else t.table flag := by
  cases isPost <;> cases flag <;> rfl

/-- A new node comes last, and its label meant nothing before. -/
theorem InOrder.addNode (inOrder : t.InOrder) (label : String) (isPost : Bool) :
    (t.addNode label isPost).InOrder := by
  by_cases known : (t.lookup (some label) isPost).isSome = true
  · rwa [TabledBuilder.addNode, if_pos known]
  have unknown : t.builder.lookup (some label) isPost = none := by
    rw [← inOrder.lookup]
    simpa using known
  have fresh : (label, isPost) ∉ t.keys := Builder.key_fresh unknown
  have tables (flag : Bool) : (t.addNode label isPost).table flag =
      if flag = isPost then (t.table flag).set label t.builder.nodes.length else t.table flag := by
    rw [TabledBuilder.addNode, if_neg known, ← table_note]
    rfl
  have keys : (t.addNode label isPost).keys = t.keys ++ [(label, isPost)] := by
    rw [TabledBuilder.addNode, if_neg known]
    exact List.map_append
  have length : t.keys.length = t.builder.nodes.length := List.length_map _
  have builder := inOrder.builder_take (.addNode label isPost)
  refine ⟨?_, ?_, ?_, ?_⟩
  · rw [← TabledBuilder.take.eq_1, builder]
    exact inOrder.registered.addNode label isPost
  · intro flag label' i
    rw [tables, keys, getElem?_concat_eq_some, ← inOrder.tables, length, Prod.mk.injEq]
    by_cases here : flag = isPost
    · subst here
      rw [if_pos rfl, LabelTable.get?_set]
      by_cases same : label' = label
      · subst same
        have new : (t.table flag).get? label' ≠ some i :=
          fun old => fresh (List.mem_of_getElem? ((inOrder.tables flag label' i).mp old))
        simp [new, eq_comm]
      · simp [same, Ne.symm same]
    · simp [here, Ne.symm here]
  · intro label' i j post main
    rw [keys, getElem?_concat_eq_some] at post main
    rcases post with post | ⟨rfl, new⟩
    · rcases main with main | ⟨rfl, _⟩
      · exact inOrder.postFirst label' i j post main
      · exact (List.getElem?_eq_some_iff.mp post).1
    · cases new
      rcases main with main | ⟨_, new⟩
      -- Post-processing asks the main flow as well, so a label that is new to it is on no main node.
      · obtain ⟨n, atPlace, key⟩ := getElem?_keys.mp main
        rw [Node.key, Prod.mk.injEq] at key
        exact absurd ⟨n, List.mem_of_getElem? atPlace, key⟩ (Builder.lookup_eq_none.mp unknown).1
      · cases new
  · intro i e drawn
    have nodes := t.builder.addNode_prefix label isPost
    rw [← TabledBuilder.take.eq_1, builder] at drawn ⊢
    rw [(t.builder.keeps_take (.addNode label isPost)).other rfl] at drawn
    exact (inOrder.edges i e drawn).mono fun n member => ⟨n, nodes.subset member, rfl⟩

theorem InOrder.visitConnection (inOrder : t.InOrder) (c : ConnectionSegment) : (t.visitConnection c).InOrder := by
  have builder : (t.visitConnection c).builder = t.builder.visit (.connection c) :=
    inOrder.builder_take (.visit (.connection c))
  obtain ⟨e, edges, draws⟩ := t.builder.visit_draws c
  refine inOrder.of_bare (by rw [builder, Builder.visit_nodes]) rfl ?_
  intro i e' drawn
  rw [builder, edges, getElem?_concat_eq_some] at drawn
  rcases drawn with old | ⟨rfl, rfl⟩
  · exact inOrder.edges i e' old
  · exact draws.anchored

theorem InOrder.take (inOrder : t.InOrder) (s : BuilderStep) : (t.take s).InOrder := by
  cases s with
  | addNode label isPost => exact inOrder.addNode label isPost
  | lookup => exact inOrder
  | resetGroup => exact inOrder.of_bare rfl rfl inOrder.edges
  | markSource place => exact inOrder.of_bare (t.builder.markSource_bare place) rfl inOrder.edges
  | assignRoles => exact inOrder.of_bare t.builder.assignRoles_bare rfl inOrder.edges
  | visit s =>
    cases s with
    | connection c => exact inOrder.visitConnection c
    | entity e =>
      obtain ⟨nodes, edges, _⟩ := t.builder.visitEntity_frame e
      refine inOrder.of_bare (congrArg _ nodes) rfl ?_
      intro i e' drawn
      exact inOrder.edges i e' (by rw [← edges]; exact drawn)

/-- Tables or not, the same steps lead to the same builder. -/
theorem inOrder_run (steps : List BuilderStep) :
    (run steps).InOrder ∧ (run steps).builder = steps.foldl Builder.take Builder.empty := by
  have each (t : TabledBuilder) (inOrder : t.InOrder) : (steps.foldl take t).InOrder ∧
      (steps.foldl take t).builder = steps.foldl Builder.take t.builder := by
    induction steps generalizing t with
    | nil => exact ⟨inOrder, rfl⟩
    | cons s steps ih =>
      rw [List.foldl_cons, List.foldl_cons, ← inOrder.builder_take]
      exact ih (t.take s) (inOrder.take s)
  exact each empty inOrder_empty

/-- Every node is found under its own label, in the table of its own flow, and nowhere else. -/
theorem InOrder.existsUnique_key (inOrder : t.InOrder) {i : Nat} (inside : i < t.builder.nodes.length) :
    ∃! key : String × Bool, (t.table key.2).get? key.1 = some i := by
  have atPlace : t.keys[i]? = some t.builder.nodes[i].key :=
    getElem?_keys.mpr ⟨_, List.getElem?_eq_getElem inside, rfl⟩
  refine ⟨t.builder.nodes[i].key, (inOrder.tables _ _ i).mpr atPlace, ?_⟩
  intro key found
  have same := (inOrder.tables key.2 key.1 i).mp found
  rw [atPlace] at same
  exact (Option.some.inj same).symm

/-- A table leads from a label to the only node that has it in its flow. -/
theorem InOrder.get?_iff (inOrder : t.InOrder) (isPost : Bool) (label : String) (i : Nat) :
    (t.table isPost).get? label = some i ↔
      ∃ n, t.builder.nodes[i]? = some n ∧ n.label = label ∧ n.isPost = isPost ∧
        ∀ (j : Nat) (m : Node), t.builder.nodes[j]? = some m → m.label = label → m.isPost = isPost → j = i := by
  constructor
  · intro found
    obtain ⟨n, atPlace, key⟩ := getElem?_keys.mp ((inOrder.tables isPost label i).mp found)
    cases key
    refine ⟨n, atPlace, rfl, rfl, ?_⟩
    intro j m inPlace label flag
    have other := (inOrder.tables n.isPost n.label j).mpr
      (getElem?_keys.mpr ⟨m, inPlace, by rw [Node.key, label, flag]⟩)
    rw [found] at other
    exact (Option.some.inj other).symm
  · rintro ⟨n, atPlace, rfl, rfl, _⟩
    exact (inOrder.tables n.isPost n.label i).mpr (getElem?_keys.mpr ⟨n, atPlace, rfl⟩)

end TabledBuilder

/-- Wherever steps have led, the list of nodes and the two tables agree, a label that both flows use was in
post-processing first, edges end at nodes with their labels, and a further step leaves alone what is there, roles
apart. -/
theorem tables_of_steps (steps : List BuilderStep) :
    let t := TabledBuilder.run steps
    let b := t.builder
    b = steps.foldl Builder.take Builder.empty ∧
      (∀ (i : Nat) (n : Node), b.nodes[i]? = some n → n.id = "node_" ++ toString i ∧ n.index = i) ∧
      (∀ (isPost : Bool) (label : String) (i : Nat), (t.table isPost).get? label = some i ↔
        ∃ n, b.nodes[i]? = some n ∧ n.label = label ∧ n.isPost = isPost ∧
          ∀ (j : Nat) (m : Node), b.nodes[j]? = some m → m.label = label → m.isPost = isPost → j = i) ∧
      (∀ i < b.nodes.length, ∃! key : String × Bool, (t.table key.2).get? key.1 = some i) ∧
      (∀ (i j : Nat) (m n : Node), b.nodes[i]? = some m → b.nodes[j]? = some n → m.label = n.label →
        m.isPost = true → n.isPost = false → i < j) ∧
      (∀ (i : Nat) (e : Edge), b.edges[i]? = some e → e.Anchored i b.nodes) ∧
      ∀ s : BuilderStep, b.Keeps s (t.take s).builder := by
  obtain ⟨inOrder, builder⟩ := TabledBuilder.inOrder_run steps
  refine ⟨builder, inOrder.registered.numbered, inOrder.get?_iff, fun i => inOrder.existsUnique_key, ?_,
    inOrder.edges, ?_⟩
  · intro i j m n atPost atMain label post main
    refine inOrder.postFirst n.label i j (TabledBuilder.getElem?_keys.mpr ⟨m, atPost, ?_⟩)
      (TabledBuilder.getElem?_keys.mpr ⟨n, atMain, ?_⟩)
    · rw [Node.key, label, post]
    · rw [Node.key, main]
  · intro s
    rw [inOrder.builder_take]
    exact Builder.keeps_take _ s

end TransferFlow
