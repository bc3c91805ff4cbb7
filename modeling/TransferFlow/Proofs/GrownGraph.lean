import TransferFlow.Document
import TransferFlow.Proofs.AppendedHops
import TransferFlow.Proofs.EdgeEnds
import TransferFlow.Proofs.GraphShape
import TransferFlow.Proofs.Roles

namespace TransferFlow

namespace Builder

open Segment (expectedEdges nearestEntity? startOf)

section Lookups

theorem node?_bare (b : Builder) (isPost : Bool) (label : String) :
    (b.node? isPost label).map Node.bare =
      (b.nodes.map Node.bare).find? fun n => n.isPost == isPost && n.label == label := by
  rw [List.find?_map]
  rfl

variable {b b' : Builder} {new : List Node}

theorem node?_grown (nodes : b'.nodes.map Node.bare = b.nodes.map Node.bare ++ new) {isPost : Bool} {label : String}
    (known : (b.node? isPost label).isSome ∨ ∀ n ∈ new, ¬ (n.isPost = isPost ∧ n.label = label)) :
    (b'.node? isPost label).map Node.bare = (b.node? isPost label).map Node.bare := by
  rw [node?_bare, nodes, List.find?_append, ← node?_bare]
  rcases known with known | fresh
  · obtain ⟨n, found⟩ := Option.isSome_iff_exists.mp known
    rw [found]
    rfl
  · have none : new.find? (fun n => n.isPost == isPost && n.label == label) = none := by
      rw [List.find?_eq_none]
      simpa using fresh
    rw [none, Option.or_none]

/-- A label keeps its meaning when nodes are added for labels that have none. -/
theorem lookup_grown (nodes : b'.nodes.map Node.bare = b.nodes.map Node.bare ++ new)
    (fresh : ∀ n ∈ new, b.lookup (some n.label) n.isPost = none) {label : Option String} {isPost : Bool}
    (known : (b.lookup label isPost).isSome) :
    (b'.lookup label isPost).map Node.bare = (b.lookup label isPost).map Node.bare := by
  cases label with
  | none => cases known
  | some l =>
    cases isPost with
    | false => exact node?_grown nodes (Or.inl known)
    | true =>
      have unknown : ∀ n ∈ new, ¬ (n.isPost = true ∧ n.label = l) := by
        rintro n member ⟨post, rfl⟩
        have none := fresh n member
        rw [post] at none
        rw [none] at known
        cases known
      have post : (b'.node? true l).map Node.bare = (b.node? true l).map Node.bare :=
        node?_grown nodes (Or.inr unknown)
      rw [lookup_post, lookup_post, Option.map_or, Option.map_or, post]
      cases inPost : b.node? true l with
      | some n => rfl
      | none =>
        rw [lookup_post, inPost, Option.none_or] at known
        exact node?_grown nodes (Or.inl known)

theorem lookup_eq_none_of_bare (same : b'.nodes.map Node.bare = b.nodes.map Node.bare) {label : String}
    {isPost : Bool} (unknown : b.lookup (some label) isPost = none) : b'.lookup (some label) isPost = none := by
  rw [lookup_eq_none] at *
  exact ⟨fun named => unknown.1 (exists_of_bare same.symm named),
    fun post named => unknown.2 post (exists_of_bare same.symm named)⟩

theorem map_id_of_bare {x y : Option Node} (same : x.map Node.bare = y.map Node.bare) :
    x.map (·.id) = y.map (·.id) := by
  have ids := congrArg (Option.map (·.id)) same
  rwa [Option.map_map, Option.map_map] at ids

end Lookups

end Builder

namespace Segment

/-- Edges that have both ends keep them when no label loses its meaning. -/
theorem expectedEdges_congr {look look' : Option String → Bool → Option Node} {index : Nat}
    {before segs : List Segment}
    (agree : ∀ label isPost, (look label isPost).isSome →
      (look' label isPost).map (·.id) = (look label isPost).map (·.id))
    (resolved : ∀ e ∈ expectedEdges look index before segs, e.isResolved = true) :
    expectedEdges look' index before segs = expectedEdges look index before segs := by
  induction segs generalizing index before with
  | nil => rfl
  | cons s segs ih =>
    cases s with
    | entity e => exact ih resolved
    | connection c =>
      obtain ⟨atHead, atTail⟩ := List.forall_mem_cons.mp resolved
      rw [expectedEdges, expectedEdges, ih atTail]
      simp only [Edge.isResolved, Builder.edge, Option.isSome_map, Bool.and_eq_true] at atHead
      rw [Builder.edge, Builder.edge, agree _ _ atHead.1, agree _ _ atHead.2]

end Segment

namespace Builder

open Segment (expectedEdges nearestEntity? startOf IsLine)

section Behind

variable {segs : List Segment} {l : Leg} {isPost : Bool}

/-- At most one node is added, for a label without meaning. -/
theorem bare_behind (segs : List Segment) (l : Leg) (isPost : Bool) :
    ∃ new, (build (segs ++ l.behind isPost)).nodes.map Node.bare = (build segs).nodes.map Node.bare ++ new ∧
      new.length ≤ 1 ∧ ∀ n ∈ new, n.label = l.target ∧ n.isPost = isPost ∧
        (withNodes segs).lookup (some n.label) n.isPost = none := by
  have grown : (segs ++ l.behind isPost).foldl introduce empty =
      (segs.foldl introduce empty).addNode l.target isPost := by
    rw [List.foldl_append]
    rfl
  rw [build_bare, withNodes_bare, grown, build_bare, withNodes_bare]
  rcases (segs.foldl introduce empty).addNode_cases l.target isPost with ⟨_, same⟩ | ⟨unknown, n, more, label, flag⟩
  · exact ⟨[], by rw [same, List.append_nil], Nat.zero_le _, by simp⟩
  · refine ⟨[n.bare], by rw [more, List.map_append]; rfl, Nat.le_refl _,
      List.forall_mem_singleton.mpr ⟨label, flag, ?_⟩⟩
    show lookup _ (some n.label) n.isPost = none
    rw [label, flag]
    exact lookup_eq_none_of_bare (withNodes_bare segs) unknown

/-- All edges stay, and one is added behind them. -/
theorem edges_behind (line : IsLine segs) (line' : IsLine (segs ++ l.behind isPost)) :
    ∃ e, (build (segs ++ l.behind isPost)).edges = (build segs).edges ++ [e] ∧ e.branch = .none ∧
      e.fromLabel = nearestEntity? segs ∧ e.toLabel = l.target ∧ e.arrow = l.arrow ∧
      e.protocol = l.step.protocol ∧ e.direction = l.step.direction := by
  obtain ⟨new, nodes, _, fresh⟩ := bare_behind segs l isPost
  rw [build_bare, build_bare] at nodes
  have agree (label : Option String) (flag : Bool) (known : ((withNodes segs).lookup label flag).isSome) :
      ((withNodes (segs ++ l.behind isPost)).lookup label flag).map (·.id) =
        ((withNodes segs).lookup label flag).map (·.id) := by
    exact map_id_of_bare (lookup_grown nodes (fun n member => (fresh n member).2.2) known)
  obtain ⟨edges, resolved⟩ := build_line line
  rw [edges] at resolved
  rw [(build_line line').1, Segment.expectedEdges_append, Segment.expectedEdges_congr agree resolved, ← edges]
  exact ⟨_, rfl, rfl, rfl, rfl, rfl, rfl, rfl⟩

section Roles

variable {segs' : List Segment} {kept new : List Node} {i : Nat} {old now : Node}

theorem isFirstMain_grown (nodes : (build segs').nodes = kept ++ new)
    (same : kept.map Node.bare = (build segs).nodes.map Node.bare) (inside : i < kept.length)
    (flag : now.isPost = old.isPost) :
    IsFirstMain (build segs').nodes i now ↔ IsFirstMain (build segs).nodes i old := by
  have before : ((build segs').nodes.take i).map Node.bare = ((build segs).nodes.take i).map Node.bare := by
    rw [nodes, List.take_append_of_le_length inside.le, List.map_take, same, List.map_take]
  rw [IsFirstMain, IsFirstMain, flag, forall_isPost_congr before]

theorem isLastPost_grown (nodes : (build segs').nodes = kept ++ new)
    (same : kept.map Node.bare = (build segs).nodes.map Node.bare) (inside : i < kept.length)
    (flag : now.isPost = old.isPost) :
    isLastPost (build segs').nodes i now = true ↔
      isLastPost (build segs).nodes i old = true ∧ ∀ n ∈ new, n.isPost = false := by
  have behind : (kept.drop (i + 1)).map Node.bare = ((build segs).nodes.drop (i + 1)).map Node.bare := by
    rw [List.map_drop, same, List.map_drop]
  rw [isLastPost_iff, isLastPost_iff, nodes, List.drop_append_of_le_length inside, List.forall_mem_append, flag,
    forall_isPost_congr behind, and_assoc]

theorem getLast?_of_isLastPost {nodes : List Node} {n : Node} (atPlace : nodes[i]? = some n)
    (last : isLastPost nodes i n = true) : (nodes.filter (·.isPost)).getLast? = some n := by
  obtain ⟨post, behind⟩ := isLastPost_iff.mp last
  obtain ⟨inside, here⟩ := List.getElem?_eq_some_iff.mp atPlace
  have none : (nodes.drop (i + 1)).filter (·.isPost) = [] := by
    rw [List.filter_eq_nil_iff]
    exact fun m member => by rw [behind m member]; exact Bool.false_ne_true
  have whole : nodes.filter (·.isPost) = (nodes.take i).filter (·.isPost) ++ [n] := by
    have split := congrArg (List.filter (·.isPost)) (List.take_append_drop i nodes)
    rw [List.drop_eq_getElem_cons inside, here, List.filter_append, List.filter_cons_of_pos (by simpa using post),
      none] at split
    exact split.symm
  rw [whole, List.getLast?_concat]

/-- What an older node becomes: it keeps its role, or it is a target no more, because the new edge
leaves it or because it was the last post-processing node. -/
theorem role_grown {e : Edge} (nodes : (build segs').nodes = kept ++ new)
    (same : kept.map Node.bare = (build segs).nodes.map Node.bare)
    (edges : (build segs').edges = (build segs).edges ++ [e]) (atOld : (build segs).nodes[i]? = some old)
    (atNow : kept[i]? = some now) :
    now = old ∨ old.role = .target ∧ now = { old with role := .intermediate } ∧
      (e.fromId = some old.id ∨
        (∃ n ∈ new, n.isPost = true) ∧ ((build segs).nodes.filter (·.isPost)).getLast? = some old) := by
  obtain ⟨inside, _⟩ := List.getElem?_eq_some_iff.mp atNow
  have bare : now.bare = old.bare := by
    have place := congrArg (fun ns => ns[i]?) same
    simpa [atNow, atOld] using place
  have shape : now = { old with role := now.role } := by
    simp only [Node.bare, Node.mk.injEq] at bare
    rw [← bare.1, ← bare.2.1, ← bare.2.2.2.1, ← bare.2.2.2.2]
  obtain ⟨id, _, flag⟩ := Node.eq_of_bare bare
  have atNow' : (build segs').nodes[i]? = some now := by rw [nodes, List.getElem?_append_left inside, atNow]
  have source : now.role = .source ↔ old.role = .source := by
    rw [role_build_eq_source atNow', role_build_eq_source atOld, isFirstMain_grown nodes same inside flag]
  have target := role_build_eq_target atOld
  have target' := role_build_eq_target atNow'
  rw [isFirstMain_grown nodes same inside flag, isLastPost_grown nodes same inside flag,
    edges, List.forall_mem_append,
    List.forall_mem_singleton, flag, id] at target'
  cases wasRole : old.role with
  | source => exact Or.inl (by rw [shape, source.mpr wasRole, ← wasRole])
  | intermediate =>
    have isRole : now.role = .intermediate := by
      cases isRole : now.role with
      | source => exact absurd (source.mp isRole) (by simp [wasRole])
      | intermediate => rfl
      | target =>
        have wasTarget : old.role = .target := by
          refine target.mpr ?_
          rcases target'.mp isRole with ⟨last, _⟩ | ⟨main, notFirst, noEdge, _⟩
          · exact Or.inl last
          · exact Or.inr ⟨main, notFirst, noEdge⟩
        exact absurd wasTarget (by simp [wasRole])
    exact Or.inl (by rw [shape, isRole, ← wasRole])
  | target =>
    cases isRole : now.role with
    | source => exact absurd (source.mp isRole) (by simp [wasRole])
    | target => exact Or.inl (by rw [shape, isRole, ← wasRole])
    | intermediate =>
      rw [isRole] at shape target'
      refine Or.inr ⟨rfl, shape, ?_⟩
      rcases target.mp wasRole with last | ⟨main, notFirst, noEdge⟩
      · refine Or.inr ⟨?_, getLast?_of_isLastPost atOld last⟩
        by_contra noPost
        refine absurd (target'.mpr (Or.inl ⟨last, fun n member => ?_⟩)) (by simp)
        exact Bool.eq_false_iff.mpr fun post => noPost ⟨n, member, post⟩
      · refine Or.inl ?_
        by_contra other
        exact absurd (target'.mpr (Or.inr ⟨main, notFirst, noEdge, fun _ => other⟩)) (by simp)

end Roles

end Behind

end Builder

section Lines

theorem Leg.solid_write (l : Leg) : Text.isBlankText l.write = false := by
  rw [Text.isBlankText, List.all_eq_false]
  refine ⟨'-', ?_, by decide⟩
  cases arrow : l.arrow <;> simp [Leg.write, arrow, Arrow.chars]

theorem forall₂_of_getElem? {α β : Type} {R : α → β → Prop} {xs : List α} {ys : List β}
    (length : xs.length = ys.length) (each : ∀ (i : Nat) x y, xs[i]? = some x → ys[i]? = some y → R x y) :
    List.Forall₂ R xs ys :=
  List.forall₂_iff_get.mpr ⟨length, fun i inside inside' =>
    each i _ _ (List.getElem?_eq_getElem inside) (List.getElem?_eq_getElem inside')⟩

/-- A leg behind a line that can be read leaves its edges as they are and adds one, from the nearest
entity outside all fan-out branches to the target of the leg. The nodes stay in place and at most the
target is added to them. No role changes, but for a target that the new edge leaves and for the last
post-processing node, if the new node is one. -/
theorem parseLine_append_leg {text : String} {k : Int} {flow : Flow} (run : parseLine text k = .ok (some flow))
    {l : Leg} (plain : l.IsPlain) :
    ∃ p flow' e kept new, Pattern.read (Text.trim text.toList) = .ok p ∧
      parseLine (text ++ String.ofList l.write) k = .ok (some flow') ∧
      flow'.edges = flow.edges ++ [e] ∧
      (e.branch = .none ∧ e.fromLabel = Segment.nearestEntity? p.segments ∧ e.toLabel = l.target ∧
        e.arrow = l.arrow ∧ e.protocol = l.step.protocol ∧ e.direction = l.step.direction) ∧
      flow'.nodes = kept ++ new ∧ (new.length ≤ 1 ∧ ∀ n ∈ new, n.label = l.target) ∧
      List.Forall₂ (fun old now => now = old ∨ old.role = .target ∧ now = { old with role := .intermediate } ∧
        (e.fromId = some old.id ∨
          (∃ n ∈ new, n.isPost = true) ∧ (flow.nodes.filter (·.isPost)).getLast? = some old)) flow.nodes kept := by
  rw [parseLine] at run
  split at run
  · cases run
  obtain ⟨_, read, ⟨⟩⟩ := map_eq_ok.mp run
  obtain ⟨p, found, rfl⟩ := map_eq_ok.mp read
  have wellFormed := Pattern.wellFormed_of_read found
  have found' := Pattern.read_append found plain
  have line' := Pattern.isLine_segments (Pattern.wellFormed_of_read found')
  rw [Pattern.segments_extend wellFormed] at line'
  obtain ⟨e, edges, ends⟩ := Builder.edges_behind (Pattern.isLine_segments wellFormed) line'
  obtain ⟨added, nodes, atMost, label⟩ := Builder.bare_behind p.segments l (!p.post.isEmpty)
  obtain ⟨kept, new, shape, same, bare⟩ := List.map_eq_append_iff.mp nodes
  have accepted : parseLine (text ++ String.ofList l.write) k = .ok (some
      { toGraph := .ofSegments (p.segments ++ l.behind (!p.post.isEmpty)), lineNumber := k
        originalText := String.ofList (Text.trim (text.toList ++ l.write)) }) := by
    rw [parseLine, String.toList_append, String.toList_ofList, Text.isBlankText_append,
      l.solid_write, Bool.and_false,
      if_neg Bool.false_ne_true, Flow.ofLine, found', ← Pattern.segments_extend wellFormed]
    rfl
  refine ⟨p, _, e, kept, new, found, accepted, edges, ends, shape, ⟨?_, fun n member => ?_⟩, ?_⟩
  · rw [← List.length_map (f := Node.bare), bare]
    exact atMost
  · have inside : n.bare ∈ added := by
      rw [← bare]
      exact List.mem_map_of_mem member
    exact (label _ inside).1
  · refine forall₂_of_getElem? ?_ fun i old now atOld atNow => Builder.role_grown shape same edges atOld atNow
    have length := congrArg List.length same
    rw [List.length_map, List.length_map] at length
    exact length.symm

/-- The leg comes behind a fan-out, which it does not continue, and behind the last post-processing node. -/
theorem parseLine_append_leg_fanOut :
    ∃ flow flow' e, parseLine "A -> X PUSH -> B >> B -> (Y PUSH -> C & Z PULL -> D)" 1 = .ok (some flow) ∧
      Leg.IsPlain { arrow := .reverse, step := { protocol := "FTP", direction := .push }, target := "E" } ∧
      parseLine "A -> X PUSH -> B >> B -> (Y PUSH -> C & Z PULL -> D) <- FTP PUSH <- E" 1 = .ok (some flow') ∧
      flow'.edges = flow.edges ++ [e] ∧ e.toLabel = "E" := by
  let p : Pattern := {
    main := { entity := "A", hops := [.single { arrow := .forward, step := ⟨"X", .push⟩, target := "B" }] }
    post := [{ entity := "B", hops := [.fanOut .forward [
      { step := ⟨"Y", .push⟩, target := "C", onward := [] },
      { step := ⟨"Z", .pull⟩, target := "D", onward := [] }]] }] }
  have line : p.write = Text.trim "A -> X PUSH -> B >> B -> (Y PUSH -> C & Z PULL -> D)".toList := by decide
  have found := Pattern.read_write (p := p) (Pattern.legible_of_plain (by decide) (by decide))
  rw [line] at found
  have solid : Text.isBlankText "A -> X PUSH -> B >> B -> (Y PUSH -> C & Z PULL -> D)".toList = false := by decide
  obtain ⟨flow, run⟩ : ∃ flow, parseLine "A -> X PUSH -> B >> B -> (Y PUSH -> C & Z PULL -> D)" 1 =
      .ok (some flow) := by
    rw [parseLine, solid, if_neg Bool.false_ne_true, Flow.ofLine, found]
    exact ⟨_, rfl⟩
  have plain : Leg.IsPlain { arrow := .reverse, step := ⟨"FTP", .push⟩, target := "E" } :=
    ⟨by decide, by decide⟩
  obtain ⟨_, flow', e, _, _, _, run', edges, ⟨_, _, target, _⟩, _⟩ := parseLine_append_leg run plain
  exact ⟨flow, flow', e, run, plain, run', edges, target⟩

end Lines

end TransferFlow
