import TransferFlow.Document
import TransferFlow.Proofs.EdgeEnds
import TransferFlow.Proofs.Roles

namespace TransferFlow

open Segment (IsHop IsChain IsLine plain startOf nearestEntity? nearestTarget?)

namespace Graph

/-- An edge of one of the two flows joins these ids. -/
def Links (g : Graph) (isPost : Bool) (x y : String) : Prop :=
  ∃ e ∈ g.edges, e.isPost = isPost ∧ e.fromId = some x ∧ e.toId = some y

/-- Edges of one of the two flows lead from the first id to the second. -/
def Reaches (g : Graph) (isPost : Bool) : String → String → Prop :=
  Relation.ReflTransGen (g.Links isPost)

/-- Edges of one of the two flows lead between nodes of these labels. -/
def Leads (g : Graph) (isPost : Bool) (x y : String) : Prop :=
  ∃ m ∈ g.nodes, ∃ n ∈ g.nodes, m.label = x ∧ n.label = y ∧ g.Reaches isPost m.id n.id

variable {g : Graph} {isPost : Bool} {x y z : String}

theorem Leads.trans (distinct : (g.nodes.map Node.label).Nodup) (first : g.Leads isPost x y)
    (second : g.Leads isPost y z) : g.Leads isPost x z := by
  obtain ⟨m, atStart, n, atMiddle, start, middle, reach⟩ := first
  obtain ⟨n', atMiddle', k, atEnd, middle', finish, onward⟩ := second
  obtain rfl := List.inj_on_of_nodup_map distinct atMiddle atMiddle' (middle.trans middle'.symm)
  exact ⟨m, atStart, k, atEnd, start, finish, reach.trans onward⟩

theorem Leads.reaches (distinct : (g.nodes.map Node.label).Nodup) {m n : Node}
    (leads : g.Leads isPost m.label n.label)
    (atStart : m ∈ g.nodes) (atEnd : n ∈ g.nodes) : g.Reaches isPost m.id n.id := by
  obtain ⟨m', atStart', n', atEnd', start, finish, reach⟩ := leads
  obtain rfl := List.inj_on_of_nodup_map distinct atStart' atStart start
  obtain rfl := List.inj_on_of_nodup_map distinct atEnd' atEnd finish
  exact reach

end Graph

namespace Segment

/-- The entity that a segment names. -/
def name : Segment → String
  | .entity e => e.label
  | .connection c => c.target

/-- The connection before an entity leads to it, and a continuation has a connection before it; `last` is where the
connection before `segs` leads, if there is one. -/
def Introduced (last : Option String) : List Segment → Prop
  | [] => True
  | .entity e :: rest => last = some e.label ∧ Introduced last rest
  | .connection c :: rest => (c.branch = .continuation → last ≠ none) ∧ Introduced (some c.target) rest

theorem Introduced.append {last : Option String} {xs ys : List Segment} (first : Introduced last xs)
    (second : ∀ last, Introduced last ys) : Introduced last (xs ++ ys) := by
  induction xs generalizing last with
  | nil => exact second last
  | cons s xs ih => cases s <;> exact ⟨first.1, ih first.2⟩

theorem introduced_flatten {pieces : List (List Segment)} (each : ∀ piece ∈ pieces, ∀ last, Introduced last piece)
    (last : Option String) : Introduced last pieces.flatten := by
  induction pieces generalizing last with
  | nil => trivial
  | cons piece pieces ih =>
    obtain ⟨atHead, atTail⟩ := List.forall_mem_cons.mp each
    exact (atHead last).append (ih atTail)

theorem introduced_fanIn {cs : List ConnectionSegment} {target : String} {isPost : Bool} {last : Option String}
    (inputs : ∀ c ∈ cs, c.branch ≠ .continuation ∧ c.target = target) (atEnd : cs = [] → last = some target) :
    Introduced last (cs.map .connection ++ [plain target isPost]) := by
  induction cs generalizing last with
  | nil => exact ⟨atEnd rfl, trivial⟩
  | cons c cs ih =>
    obtain ⟨⟨opens, same⟩, atTail⟩ := List.forall_mem_cons.mp inputs
    exact ⟨fun continues => absurd continues opens, ih atTail fun _ => congrArg some same⟩

theorem introduced_onward (cs : List ConnectionSegment) (target : String) :
    Introduced (some target) (cs.flatMap ConnectionSegment.leg) := by
  induction cs generalizing target with
  | nil => trivial
  | cons c cs ih => exact ⟨fun _ => Option.some_ne_none _, rfl, ih c.target⟩

theorem IsHop.introduced {isPost : Bool} {h : List Segment} (hop : IsHop isPost h) (last : Option String) :
    Introduced last h := by
  have opens {c : ConnectionSegment} {branch : BranchKind} {step : Option Int}
    (tagged : c.Tagged branch step isPost)
      (other : branch ≠ .continuation) : c.branch ≠ .continuation := by rwa [tagged.branch]
  cases hop with
  | single tagged => exact ⟨fun continues => absurd continues (opens tagged (by decide)), rfl, trivial⟩
  | fanIn nonempty tagged same =>
    refine introduced_fanIn (fun c member => ⟨?_, (same c member).2⟩) fun none => absurd none nonempty
    obtain ⟨i, _, tags⟩ := forall₂_mem_left tagged member
    exact opens tags (by decide)
  | fanOut _ at' =>
    rw [List.flatMap_def]
    apply introduced_flatten
    intro piece member last
    obtain ⟨block, inside, rfl⟩ := List.mem_map.mp member
    obtain ⟨i, _, tags⟩ := forall₂_mem_left at' inside
    exact ⟨fun continues => absurd continues (opens tags.opening (by decide)), rfl,
      introduced_onward block.onward _⟩

end Segment

namespace Builder

section Nodes

/-- The nodes that a first pass adds are entities of the segments. -/
theorem mem_foldl_introduce {b : Builder} {segs : List Segment} {n : Node}
    (member : n ∈ (segs.foldl introduce b).nodes) :
    n ∈ b.nodes ∨ ∃ e, .entity e ∈ segs ∧ e.label = n.label ∧ e.isPost = n.isPost := by
  induction segs generalizing b with
  | nil => exact Or.inl member
  | cons s segs ih =>
    rcases ih member with known | ⟨e, inside, named⟩
    · cases s with
      | connection c => exact Or.inl known
      | entity e =>
        rcases b.addNode_cases e.label e.isPost with ⟨_, same⟩ | ⟨_, new, grown, label, flow⟩
        · rw [introduce, same] at known
          exact Or.inl known
        · rw [introduce, grown] at known
          rcases List.mem_append.mp known with old | atEnd
          · exact Or.inl old
          · rw [List.mem_singleton.mp atEnd]
            exact Or.inr ⟨e, List.mem_cons_self, label.symm, flow.symm⟩
    · exact Or.inr ⟨e, List.mem_cons_of_mem _ inside, named⟩

theorem entity_of_node {segs : List Segment} {n : Node} (member : n ∈ (build segs).nodes) :
    ∃ e, .entity e ∈ segs ∧ e.label = n.label ∧ e.isPost = n.isPost := by
  obtain ⟨n', member', same⟩ := mem_of_bare ((build_bare segs).trans (withNodes_bare segs)).symm member
  obtain ⟨_, label, flow⟩ := Node.eq_of_bare same
  rcases mem_foldl_introduce member' with none | ⟨e, inside, named, flag⟩
  · cases none
  · exact ⟨e, inside, named.trans label, flag.trans flow⟩

theorem node_of_entity {segs : List Segment} {e : EntitySegment} (member : .entity e ∈ segs) :
    ∃ n ∈ (build segs).nodes, n.label = e.label := by
  obtain ⟨n, inside, label, _⟩ := node_of_lookup (lookup_withNodes_isSome member)
  exact ⟨n, inside, (Option.some.inj label).symm⟩

/-- The entity that segments begin with is the first node. -/
theorem nodes_build_cons (entity : String) (segs : List Segment) :
    ∃ first rest, (build (plain entity false :: segs)).nodes = first :: rest ∧ first.label = entity ∧
      first.isPost = false := by
  obtain ⟨later, grown⟩ := foldl_introduce_prefix (empty.introduce (plain entity false)) segs
  have bare := (build_bare (plain entity false :: segs)).trans (withNodes_bare (plain entity false :: segs))
  rw [List.foldl_cons, ← grown] at bare
  cases nodes : (build (plain entity false :: segs)).nodes with
  | nil =>
    rw [nodes] at bare
    cases bare
  | cons first rest =>
    rw [nodes] at bare
    obtain ⟨_, label, flow⟩ := Node.eq_of_bare (List.cons.inj bare).1
    exact ⟨first, rest, rfl, label, flow⟩

/-- A main node in front is the only source. -/
theorem sources_build {segs : List Segment} {first : Node} {rest : List Node}
    (nodes : (build segs).nodes = first :: rest) (main : first.isPost = false) :
    (build segs).nodes.filter (·.role == .source) = [first] := by
  have role {i : Nat} {n : Node} (atPlace : (first :: rest)[i]? = some n) :
      n.role = .source ↔ IsFirstMain (first :: rest) i n := by
    rw [← nodes] at atPlace ⊢
    exact role_build_eq_source atPlace
  have source : first.role = .source := (@role 0 first rfl).mpr ⟨main, by simp⟩
  have others : rest.filter (·.role == .source) = [] := by
    rw [List.filter_eq_nil_iff]
    intro n member isSource
    obtain ⟨i, atPlace⟩ := List.mem_iff_getElem?.mp member
    have alone := (@role (i + 1) n atPlace).mp (beq_iff_eq.mp isSource)
    have post := alone.2 first List.mem_cons_self
    rw [main] at post
    cases post
  rw [nodes, List.filter_cons_of_pos (by rw [source]; rfl), others]

end Nodes

section Line

variable {segs : List Segment} (line : IsLine segs)

include line in
theorem leads_connection {before after : List Segment} {c : ConnectionSegment} {entity : String}
    (place : segs = before ++ .connection c :: after)
    (start : ∀ x, startOf before c = some x → (Graph.ofSegments segs).Leads c.isPost entity x) :
    (Graph.ofSegments segs).Leads c.isPost entity c.target := by
  have member := (@Segment.mem_expectedEdges (withNodes segs).lookup 0 [] segs _).mpr ⟨before, c, after, place, rfl⟩
  rw [← (build_line line).1] at member
  obtain ⟨m, atStart, n, atEnd, startLabel, fromId, endLabel, toId, _⟩ := ends_of_edge line member
  have link : (Graph.ofSegments segs).Links c.isPost m.id n.id := ⟨_, member, rfl, fromId, toId⟩
  have step : (Graph.ofSegments segs).Leads c.isPost m.label c.target :=
    ⟨m, atStart, n, atEnd, rfl, endLabel.symm, .single link⟩
  exact (start m.label startLabel).trans (labels_build_line line) step

/-- The edges lead from `entity` to wherever a connection behind `before` may start; `last` is where the connection
before it leads, if the chain has one by then. -/
structure Stands (segs : List Segment) (isPost : Bool) (entity : String) (before : List Segment)
    (last : Option String) : Prop where
  nearest : ∀ x, nearestEntity? before = some x → (Graph.ofSegments segs).Leads isPost entity x
  target : ∀ x, last = some x → nearestTarget? before = some x ∧ (Graph.ofSegments segs).Leads isPost entity x

variable {isPost : Bool} {entity : String} {before : List Segment} {last : Option String}

theorem Stands.start (stands : Stands segs isPost entity before last) {c : ConnectionSegment}
    (begun : c.branch = .continuation → last ≠ none) :
    ∀ x, startOf before c = some x → (Graph.ofSegments segs).Leads isPost entity x := by
  intro x atStart
  unfold startOf at atStart
  split at atStart
  · rename_i continues
    obtain ⟨t, same⟩ := Option.ne_none_iff_exists'.mp (begun continues)
    obtain ⟨nearest, leads⟩ := stands.target t same
    rw [nearest] at atStart
    rwa [← Option.some.inj atStart]
  · exact stands.nearest x atStart

theorem Stands.behind_entity (stands : Stands segs isPost entity before last) {e : EntitySegment}
    (introduced : last = some e.label) : Stands segs isPost entity (before ++ [.entity e]) last where
  nearest := by
    rw [Segment.nearestEntity?_entity]
    split
    · exact fun x same => (stands.target x (introduced.trans same)).2
    · exact stands.nearest
  target := by
    rw [Segment.nearestTarget?_entity]
    exact stands.target

theorem Stands.behind_connection (stands : Stands segs isPost entity before last) {c : ConnectionSegment}
    (leads : (Graph.ofSegments segs).Leads isPost entity c.target) :
    Stands segs isPost entity (before ++ [.connection c]) (some c.target) where
  nearest := by
    rw [Segment.nearestEntity?_connection]
    exact stands.nearest
  target := by
    rw [Segment.nearestTarget?_connection]
    rintro x ⟨⟩
    exact ⟨rfl, leads⟩

include line in
/-- Segment by segment the edges lead on to every entity that is named. -/
theorem leads_run {run after : List Segment} (place : segs = before ++ run ++ after)
    (stands : Stands segs isPost entity before last) (flow : ∀ c, .connection c ∈ run → c.isPost = isPost)
    (introduced : Segment.Introduced last run) :
    ∀ s ∈ run, (Graph.ofSegments segs).Leads isPost entity s.name := by
  induction run generalizing before last with
  | nil => simp
  | cons s run ih =>
    have onward : segs = before ++ [s] ++ run ++ after := by simp [place]
    have later : ∀ c, .connection c ∈ run → c.isPost = isPost :=
      fun c member => flow c (List.mem_cons_of_mem _ member)
    rw [List.forall_mem_cons]
    cases s with
    | entity e =>
      have stands' := stands.behind_entity introduced.1
      exact ⟨(stands.target _ introduced.1).2, ih onward stands' later introduced.2⟩
    | connection c =>
      obtain rfl := flow c List.mem_cons_self
      have here : segs = before ++ .connection c :: (run ++ after) := by simp [place]
      have leads := leads_connection line here (stands.start introduced.1)
      exact ⟨leads, ih onward (stands.behind_connection leads) later introduced.2⟩

include line in
/-- From the entity that a chain begins with, the edges of its flow lead to every entity of the chain. -/
theorem leads_chain {rest after : List Segment} (place : segs = before ++ (plain entity isPost :: rest) ++ after)
    (isChain : IsChain isPost (plain entity isPost :: rest)) :
    ∀ s ∈ plain entity isPost :: rest, (Graph.ofSegments segs).Leads isPost entity s.name := by
  obtain ⟨_, hops, same, _, each⟩ := isChain.shape
  obtain ⟨_, rfl⟩ := List.cons.inj same
  have atEntity : .entity { label := entity, branch := .none, step := none, isPost } ∈ segs := by
    rw [place]
    exact List.mem_append_left _ (List.mem_append_right _ List.mem_cons_self)
  obtain ⟨n, member, label⟩ := node_of_entity atEntity
  have itself : (Graph.ofSegments segs).Leads isPost entity entity := ⟨n, member, n, member, label, label, .refl⟩
  -- Whatever connections stand before the chain, none of its own does yet.
  have stands : Stands segs isPost entity (before ++ [plain entity isPost]) none := by
    refine ⟨?_, nofun⟩
    rw [Segment.nearestEntity?_plain]
    rintro x ⟨⟩
    exact itself
  have flow (c : ConnectionSegment) (inside : .connection c ∈ hops.flatten) : c.isPost = isPost := by
    obtain ⟨h, inHops, inHop⟩ := List.mem_flatten.mp inside
    exact (each h inHops).isPost_connection inHop
  have introduced := Segment.introduced_flatten (fun h inside => (each h inside).introduced) none
  have behind : segs = before ++ [plain entity isPost] ++ hops.flatten ++ after := by simp [place]
  exact List.forall_mem_cons.mpr ⟨itself, leads_run line behind stands flow introduced⟩

end Line

end Builder

namespace Pattern

/-- The entity of the main chain is the first node. -/
theorem first_node (p : Pattern) :
    ∃ first rest, (Graph.ofSegments p.segments).nodes = first :: rest ∧ first.label = p.main.entity ∧
      first.isPost = false :=
  Builder.nodes_build_cons _ _

variable {p : Pattern} (wellFormed : p.WellFormed)

include wellFormed

theorem leads_main : ∀ s ∈ p.main.segments, (Graph.ofSegments p.segments).Leads false p.main.entity s.name := by
  have place : p.segments =
      [] ++ p.main.segments ++ p.post.flatMap fun c => Segment.markPost false c.segments := rfl
  have isChain := Chain.isChain_segments (List.forall_mem_cons.mp wellFormed).1
  exact Builder.leads_chain (isLine_segments wellFormed) place isChain

theorem leads_post {c : Chain} (inside : c ∈ p.post) :
    ∀ s ∈ Segment.markPost false c.segments, (Graph.ofSegments p.segments).Leads true c.entity s.name := by
  obtain ⟨earlier, later, split⟩ := List.append_of_mem inside
  have place : p.segments = (p.main.segments ++ earlier.flatMap fun c => Segment.markPost false c.segments) ++
      Segment.markPost false c.segments ++ later.flatMap fun c => Segment.markPost false c.segments := by
    rw [segments, split, List.flatMap_append, List.flatMap_cons, ← List.append_assoc, ← List.append_assoc]
  have isChain := Chain.isChain_markPost ((List.forall_mem_cons.mp wellFormed).2 c inside)
  exact Builder.leads_chain (isLine_segments wellFormed) place isChain

/-- A main node is named by the main chain, any other node by a post-processing chain. -/
theorem main_or_post {n : Node} (member : n ∈ (Graph.ofSegments p.segments).nodes) :
    (n.isPost = false ∧ (Graph.ofSegments p.segments).Leads false p.main.entity n.label) ∨
      n.isPost = true ∧ ∃ c ∈ p.post, (Graph.ofSegments p.segments).Leads true c.entity n.label := by
  obtain ⟨e, inside, label, flow⟩ := Builder.entity_of_node member
  rw [← label, ← flow]
  obtain ⟨main, post⟩ := List.forall_mem_cons.mp wellFormed
  rcases List.mem_append.mp inside with inMain | inPost
  · exact Or.inl ⟨(Chain.isChain_segments main).isPost_entity inMain, leads_main wellFormed _ inMain⟩
  · obtain ⟨c, inside, inChain⟩ := List.mem_flatMap.mp inPost
    have leads := leads_post wellFormed inside _ inChain
    exact Or.inr ⟨(Chain.isChain_markPost (post c inside)).isPost_entity inChain, c, inside, leads⟩

theorem reaches_main {first n : Node} (atFirst : first ∈ (Graph.ofSegments p.segments).nodes)
    (label : first.label = p.main.entity) (member : n ∈ (Graph.ofSegments p.segments).nodes)
    (main : n.isPost = false) : (Graph.ofSegments p.segments).Reaches false first.id n.id := by
  rcases main_or_post wellFormed member with ⟨_, leads⟩ | ⟨post, _⟩
  · rw [← label] at leads
    exact leads.reaches (Builder.labels_build_line (isLine_segments wellFormed)) atFirst member
  · rw [main] at post
    cases post

theorem reaches_post {n : Node} (member : n ∈ (Graph.ofSegments p.segments).nodes) (post : n.isPost = true) :
    ∃ c ∈ p.post, ∃ m ∈ (Graph.ofSegments p.segments).nodes, m.label = c.entity ∧
      (Graph.ofSegments p.segments).Reaches true m.id n.id := by
  rcases main_or_post wellFormed member with ⟨main, _⟩ | ⟨_, c, inside, leads⟩
  · rw [post] at main
    cases main
  · obtain ⟨m, atStart, n', atEnd, start, same, reach⟩ := leads
    obtain rfl :=
      List.inj_on_of_nodup_map (Builder.labels_build_line (isLine_segments wellFormed)) atEnd member same
    exact ⟨c, inside, m, atStart, start, reach⟩

end Pattern

/-- In the flow of a line no two nodes share a label. The nodes are the line's entities in order of
first appearance, and the first one is the only source. Main edges join main nodes and lead from the
source to all of them, and every other node can be reached along post-processing edges from the entity
that some post-processing chain begins with. -/
theorem reaches_of_parseLine {text : String} {k : Int} {flow : Flow} (run : parseLine text k = .ok (some flow)) :
    ∃ p, Pattern.read (Text.trim text.toList) = .ok p ∧
      (flow.nodes.map Node.label).Nodup ∧
      flow.nodes.map Node.label = (p.segments.filterMap Segment.entityLabel?).eraseDups ∧
      (∃ first rest, flow.nodes = first :: rest ∧ first.label = p.main.entity ∧
        flow.nodes.filter (·.role == .source) = [first] ∧
        ∀ n ∈ flow.nodes, n.isPost = false → flow.Reaches false first.id n.id) ∧
      (∀ e ∈ flow.edges, e.isPost = false →
        (∃ m ∈ flow.nodes, m.isPost = false ∧ e.fromId = some m.id) ∧
          ∃ n ∈ flow.nodes, n.isPost = false ∧ e.toId = some n.id) ∧
      ∀ n ∈ flow.nodes, n.isPost = true →
        ∃ c ∈ p.post, ∃ m ∈ flow.nodes, m.label = c.entity ∧ flow.Reaches true m.id n.id := by
  rw [parseLine] at run
  split at run
  · cases run
  obtain ⟨_, read, ⟨⟩⟩ := map_eq_ok.mp run
  obtain ⟨p, found, rfl⟩ := map_eq_ok.mp read
  have wellFormed := Pattern.wellFormed_of_read found
  have line := Pattern.isLine_segments wellFormed
  obtain ⟨first, rest, nodes, label, main⟩ := p.first_node
  have atFirst : first ∈ (Graph.ofSegments p.segments).nodes := by
    rw [nodes]
    exact List.mem_cons_self
  refine ⟨p, found, Builder.labels_build_line line, Builder.labels_build_line_eq line,
    ⟨first, rest, nodes, label, Builder.sources_build nodes main, ?_⟩, ?_, ?_⟩
  · exact fun n member main => Pattern.reaches_main wellFormed atFirst label member main
  · intro e member main
    obtain ⟨m, atStart, n, atEnd, _, fromId, _, toId, mainEnds⟩ := Builder.ends_of_edge line member
    exact ⟨⟨m, atStart, (mainEnds main).1, fromId⟩, n, atEnd, (mainEnds main).2, toId⟩
  · exact fun n member post => Pattern.reaches_post wellFormed member post

/-- A line with both kinds of groups, whose fan-out loops back to the source, and with post-processing
that joins the main flow. -/
theorem reaches_of_parseLine_groups :
    ∃ flow, parseLine "A -> (X PUSH & Y PULL) -> B -> (P PUSH -> C -> Q PULL -> A) >> C -> S PUSH -> F" 1 =
        .ok (some flow) ∧ (flow.nodes.map Node.label).Nodup ∧
      ∃ first rest, flow.nodes = first :: rest ∧ flow.nodes.filter (·.role == .source) = [first] ∧
        ∀ n ∈ flow.nodes, n.isPost = false → flow.Reaches false first.id n.id := by
  have solid : Text.isBlankText
      "A -> (X PUSH & Y PULL) -> B -> (P PUSH -> C -> Q PULL -> A) >> C -> S PUSH -> F".toList = false := by
    cbv
  have read : (Pattern.read (Text.trim
      "A -> (X PUSH & Y PULL) -> B -> (P PUSH -> C -> Q PULL -> A) >> C -> S PUSH -> F".toList)).isOk = true := by
    cbv
  obtain ⟨p, found⟩ := ok_of_isOk read
  obtain ⟨flow, run⟩ : ∃ flow, parseLine
      "A -> (X PUSH & Y PULL) -> B -> (P PUSH -> C -> Q PULL -> A) >> C -> S PUSH -> F" 1 = .ok (some flow) := by
    rw [parseLine, solid, if_neg Bool.false_ne_true, Flow.ofLine, found]
    exact ⟨_, rfl⟩
  obtain ⟨_, _, distinct, _, ⟨first, rest, nodes, _, source, reaches⟩, _⟩ := reaches_of_parseLine run
  exact ⟨flow, run, distinct, first, rest, nodes, source, reaches⟩

end TransferFlow
