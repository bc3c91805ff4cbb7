import Mathlib.Data.List.Forall2
import TransferFlow.Summary
import TransferFlow.Proofs.DocumentLines
import TransferFlow.Proofs.Reachability

namespace TransferFlow

section SortedTexts

variable {x y : String} {xs : List String}

theorem mem_insertSorted : y ∈ insertSorted x xs ↔ y = x ∨ y ∈ xs := by
  fun_induction insertSorted x xs with
  | case1 => simp
  | case2 z rest before => simp
  | case3 rest before => simp
  | case4 z rest before other ih =>
    rw [List.mem_cons, ih, List.mem_cons]
    exact or_left_comm

theorem mem_sortedSet : x ∈ sortedSet xs ↔ x ∈ xs := by
  induction xs with
  | nil => rfl
  | cons y xs ih => rw [sortedSet, List.foldr_cons, mem_insertSorted, ← sortedSet, ih, List.mem_cons]

theorem ascending_insertSorted (ascending : xs.Pairwise (· < ·)) : (insertSorted x xs).Pairwise (· < ·) := by
  fun_induction insertSorted x xs with
  | case1 => exact List.pairwise_singleton _ x
  | case2 z rest before =>
    refine List.pairwise_cons.mpr ⟨?_, ascending⟩
    intro y member
    rcases List.mem_cons.mp member with rfl | later
    · exact before
    · exact String.lt_trans before ((List.pairwise_cons.mp ascending).1 y later)
  | case3 rest before => exact ascending
  | case4 z rest before other ih =>
    obtain ⟨first, later⟩ := List.pairwise_cons.mp ascending
    have behind : z < x := by
      by_contra notBehind
      exact other (String.le_antisymm (String.not_lt.mp notBehind) (String.not_lt.mp before))
    refine List.pairwise_cons.mpr ⟨?_, ih later⟩
    intro y member
    rcases mem_insertSorted.mp member with rfl | member
    · exact behind
    · exact first y member

/-- Texts in ascending order stand in the order of their code points. -/
theorem ascending_sortedSet (xs : List String) : (sortedSet xs).Pairwise (· < ·) := by
  induction xs with
  | nil => exact .nil
  | cons x xs ih => exact ascending_insertSorted ih

end SortedTexts

section Tallies

variable {x : String} {xs : List String}

theorem bump_of_new {counts : List (String × Nat)} (new : x ∉ counts.map Prod.fst) :
    bump x counts = counts ++ [(x, 1)] := by
  induction counts with
  | nil => rfl
  | cons first rest ih =>
    obtain ⟨other, later⟩ := not_or.mp (mt List.mem_cons.mpr new)
    rw [bump, if_neg other, ih later, List.cons_append]

/-- Counting one more occurrence changes the count of that text alone. -/
theorem bump_of_known {keys : List String} (distinct : keys.Nodup) (known : x ∈ keys) (count : String → Nat) :
    bump x (keys.map fun y => (y, count y)) = keys.map fun y => (y, if x = y then count y + 1 else count y) := by
  induction keys with
  | nil => cases known
  | cons y keys ih =>
    obtain ⟨fresh, later⟩ := List.nodup_cons.mp distinct
    rw [List.map_cons, bump, List.map_cons]
    by_cases here : x = y
    · subst here
      rw [if_pos rfl, if_pos rfl, List.cons_inj_right]
      refine List.map_congr_left fun z member => ?_
      rw [if_neg]
      rintro rfl
      exact fresh member
    · rw [if_neg here, if_neg here, ih later ((List.mem_cons.mp known).resolve_left here)]

/-- A tally lists every text once, in order of first occurrence, with the number of its occurrences. -/
theorem tally_eq (xs : List String) : tally xs = xs.eraseDups.map fun x => (x, xs.count x) := by
  induction xs using List.reverseRecOn with
  | nil => rfl
  | append_singleton xs x ih =>
    have next (y : String) : (xs ++ [x]).count y = if x = y then xs.count y + 1 else xs.count y := by
      rw [List.count_append, List.count_singleton]
      by_cases here : x = y <;> simp [here]
    rw [tally, List.foldl_append, ← tally, ih, List.foldl_cons, List.foldl_nil, ← foldl_withLabel (xs ++ [x]),
      List.foldl_append, foldl_withLabel, List.foldl_cons, List.foldl_nil, withLabel]
    simp only [next]
    by_cases known : x ∈ xs.eraseDups
    · rw [if_pos known, bump_of_known (nodup_eraseDups xs) known]
    · have others : ∀ y ∈ xs.eraseDups, x ≠ y := by
        rintro y member rfl
        exact known member
      have none : xs.count x = 0 := List.count_eq_zero_of_not_mem (mt List.mem_eraseDups.mpr known)
      rw [if_neg known, bump_of_new (by simpa using known), List.map_append, List.map_singleton, if_pos rfl, none]
      congr 1
      exact List.map_congr_left fun y member => by rw [if_neg (others y member)]

theorem keys_tally (xs : List String) : (tally xs).map Prod.fst = xs.eraseDups := by
  rw [tally_eq, List.map_map]
  exact List.map_id _

theorem mem_tally {n : Nat} : (x, n) ∈ tally xs ↔ n = xs.count x ∧ 0 < n := by
  rw [tally_eq, List.mem_map]
  constructor
  · rintro ⟨y, member, ⟨⟩⟩
    exact ⟨rfl, List.count_pos_iff.mpr (List.mem_eraseDups.mp member)⟩
  · rintro ⟨rfl, more⟩
    exact ⟨x, List.mem_eraseDups.mpr (List.count_pos_iff.mp more), rfl⟩

theorem sum_bump (x : String) (counts : List (String × Nat)) :
    ((bump x counts).map Prod.snd).sum = (counts.map Prod.snd).sum + 1 := by
  fun_induction bump x counts with
  | case1 => rfl
  | case2 n rest => simp only [List.map_cons, List.sum_cons]; omega
  | case3 y n rest other ih => simp only [List.map_cons, List.sum_cons, ih]; omega

/-- Every occurrence is counted once. -/
theorem sum_tally (xs : List String) : ((tally xs).map Prod.snd).sum = xs.length := by
  induction xs using List.reverseRecOn with
  | nil => rfl
  | append_singleton xs x ih =>
    rw [tally, List.foldl_append, ← tally, List.foldl_cons, List.foldl_nil, sum_bump, ih, List.length_append]
    rfl

end Tallies

section Capabilities

/-- The text of a capability tells its protocol and its direction. -/
theorem Step.capability_inj {s s' : Step} (same : s.capability = s'.capability) : s = s' := by
  obtain ⟨protocol, direction⟩ := s
  obtain ⟨protocol', direction'⟩ := s'
  have length (d : Direction) : d.text.toList.length = 4 := by cases d <;> rfl
  have texts := congrArg String.toList same
  simp only [capability, String.toList_append] at texts
  obtain ⟨front, word⟩ := List.append_inj' texts ((length direction).trans (length direction').symm)
  obtain rfl := String.toList_inj.mp (List.append_cancel_right front)
  cases direction <;> cases direction'
  · rfl
  · exact absurd word (by decide)
  · exact absurd word (by decide)
  · rfl

theorem Edge.capability_eq (e : Edge) : e.capability = e.protocol ++ " " ++ e.direction.text := rfl

theorem Edge.capability_eq_iff {e : Edge} {protocol : String} {direction : Direction} :
    e.capability = protocol ++ " " ++ direction.text ↔ e.protocol = protocol ∧ e.direction = direction := by
  constructor
  · intro same
    have steps : (⟨e.protocol, e.direction⟩ : Step) = ⟨protocol, direction⟩ := Step.capability_inj same
    cases steps
    exact ⟨rfl, rfl⟩
  · rintro ⟨rfl, rfl⟩
    rfl

end Capabilities

namespace Graph

/-- Every node has one of three roles. -/
theorem length_nodes (g : Graph) : g.nodes.length =
    (g.nodes.filter (·.role == .source)).length + g.intermediates.length + g.targets.length := by
  rw [intermediates, targets]
  induction g.nodes with
  | nil => rfl
  | cons n nodes ih =>
    rw [List.filter_cons, List.filter_cons, List.filter_cons, List.length_cons, ih]
    cases n.role <;> simp only [beq_self_eq_true, reduceCtorEq, beq_iff_eq, if_true, if_false,
      List.length_cons] <;> omega

end Graph

section Flows

/-- A summary lists the edge with its labels, its step and its flow direction. -/
structure Edge.ListedAs (e : Edge) (c : ConnectionSummary) : Prop where
  fromLabel : c.fromLabel = e.fromLabel
  toLabel : c.toLabel = e.toLabel
  protocol : c.protocol = e.protocol
  direction : c.direction = e.direction
  flowDirection : c.flowDirection = e.flowDirection

/-- The summary counts the nodes and the edges of the flow, and lists what its edges are capable of in the order of
code points. -/
structure FlowSummary.Counts (s : FlowSummary) (f : Flow) : Prop where
  nodes : s.nodeCount = f.nodes.length
  edges : s.edgeCount = f.edges.length
  capabilities : ∀ k, k ∈ s.capabilities ↔ ∃ e ∈ f.edges, k = e.protocol ++ " " ++ e.direction.text
  ascending : s.capabilities.Pairwise fun k k' => k.toList < k'.toList

/-- The summary tells one source, the place of every other node, and both ends of every edge. -/
structure FlowSummary.Complete (s : FlowSummary) (f : Flow) : Prop where
  nodes : s.nodeCount = 1 + s.intermediates.length + s.targets.length
  source : s.source ≠ none
  resolved : s.unresolvedEdges = []
  connections : List.Forall₂ Edge.ListedAs f.edges s.connections

theorem Flow.counts_summary (f : Flow) : f.summary.Counts f where
  nodes := rfl
  edges := rfl
  capabilities := by
    intro k
    rw [summary, mem_sortedSet, Graph.capabilities, List.mem_map]
    simp only [eq_comm, Edge.capability_eq]
  ascending := (ascending_sortedSet _).imp String.lt_iff_toList_lt.mp

theorem Flow.connections_summary (f : Flow) : List.Forall₂ Edge.ListedAs f.edges f.summary.connections := by
  rw [summary, List.forall₂_map_right_iff]
  exact List.forall₂_same.mpr fun e _ => ⟨rfl, rfl, rfl, rfl, rfl⟩

/-- A flow that is read from a line has the one source with which the line begins, and its edges lack no end. -/
theorem Flow.complete_summary {n : Int} {line : List Char} {f : Flow} (read : ofLine n line = .ok f) :
    f.summary.Complete f := by
  obtain ⟨p, found, rfl⟩ := map_eq_ok.mp read
  obtain ⟨first, rest, nodes, _, main⟩ := p.first_node
  have sources := Builder.sources_build nodes main
  have isLine := Pattern.isLine_segments (Pattern.wellFormed_of_read found)
  refine ⟨?_, ?_, ?_, connections_summary _⟩
  · have byRole := (Graph.ofSegments p.segments).length_nodes
    simpa only [summary, List.length_map, ofPattern, Graph.ofSegments, Builder.graph, sources,
      List.length_singleton] using byRole
  · have source : (Graph.ofSegments p.segments).source = some first := by
      rw [Graph.source, ← List.head?_filter]
      exact congrArg List.head? sources
    simp only [summary, ofPattern, source, Option.map_some, ne_eq, reduceCtorEq, not_false_eq_true]
  · rw [summary, List.map_eq_nil_iff, List.filter_eq_nil_iff]
    intro e member
    obtain ⟨_, _, _, _, _, fromId, _, toId, _⟩ := Builder.ends_of_edge isLine member
    simp [Edge.isResolved, fromId, toId]

end Flows

namespace ParseResult

theorem Answers.read {start : Nat} {lines : List (List Char)} {r : ParseResult} (answers : Answers start lines r) :
    ∀ f ∈ r.flows, ∃ n line, Flow.ofLine n line = .ok f := by
  induction answers with
  | nil => simp
  | flow read _ ih => exact List.forall_mem_cons.mpr ⟨⟨_, _, read⟩, ih⟩
  | error _ _ ih => exact ih

variable (r : ParseResult)

theorem capabilities_summary :
    r.summary.capabilities = tally ((r.flows.flatMap fun f => f.edges).map Edge.capability) :=
  congrArg tally List.map_flatMap.symm

/-- Under each capability the document's edges of this protocol and this direction are counted. -/
theorem mem_capabilities {k : String} {n : Nat} : (k, n) ∈ r.summary.capabilities ↔
    ∃ protocol direction, k = protocol ++ " " ++ direction.text ∧
      n = (r.flows.flatMap fun f => f.edges).countP (fun e => e.protocol = protocol ∧ e.direction = direction) ∧
      0 < n := by
  have count (protocol : String) (direction : Direction) (es : List Edge) :
      (es.map Edge.capability).count (protocol ++ " " ++ direction.text) =
        es.countP fun e => e.protocol = protocol ∧ e.direction = direction := by
    rw [List.count_eq_countP, List.countP_map]
    refine List.countP_congr fun e _ => ?_
    rw [Function.comp_apply, beq_iff_eq, decide_eq_true_iff, Edge.capability_eq_iff]
  rw [capabilities_summary, mem_tally]
  constructor
  · rintro ⟨rfl, more⟩
    obtain ⟨e, _, rfl⟩ := List.mem_map.mp (List.count_pos_iff.mp more)
    exact ⟨e.protocol, e.direction, rfl, count _ _ _, more⟩
  · rintro ⟨protocol, direction, rfl, counted, more⟩
    exact ⟨counted.trans (count _ _ _).symm, more⟩

theorem mem_keys {k : String} :
    k ∈ r.summary.capabilities.map Prod.fst ↔ ∃ s ∈ r.summary.flows, k ∈ s.capabilities := by
  rw [capabilities_summary, keys_tally, List.mem_eraseDups, List.mem_map]
  constructor
  · rintro ⟨e, member, rfl⟩
    obtain ⟨f, inside, member⟩ := List.mem_flatMap.mp member
    exact ⟨f.summary, List.mem_map_of_mem inside, (f.counts_summary.capabilities _).mpr ⟨e, member, rfl⟩⟩
  · rintro ⟨s, inside, listed⟩
    obtain ⟨f, within, rfl⟩ := List.mem_map.mp inside
    obtain ⟨e, member, rfl⟩ := (f.counts_summary.capabilities k).mp listed
    exact ⟨e, List.mem_flatMap.mpr ⟨f, within, member⟩, rfl⟩

end ParseResult

/-- A document's summary counts what its flows hold: every capability once, with the number of edges of
its protocol and its direction, and as many nodes and edges as the flows' own summaries together. The
summary of a flow that was read from a text tells one source beside the intermediate nodes and the
targets, leaves no edge unresolved, and lists the edges as they come. -/
theorem counts_of_summary (r : ParseResult) (text : String) :
    let s := r.summary
    let edges := r.flows.flatMap fun f => f.edges
    ((s.capabilities.map Prod.fst).Nodup ∧
      (∀ k, k ∈ s.capabilities.map Prod.fst ↔ ∃ f ∈ s.flows, k ∈ f.capabilities) ∧
      (∀ k n, (k, n) ∈ s.capabilities ↔ ∃ protocol direction, k = protocol ++ " " ++ direction.text ∧
        n = edges.countP (fun e => e.protocol = protocol ∧ e.direction = direction) ∧ 0 < n) ∧
      (s.capabilities.map Prod.snd).sum = s.edgeCount ∧
      s.nodeCount = (s.flows.map (·.nodeCount)).sum ∧ s.edgeCount = (s.flows.map (·.edgeCount)).sum ∧
      List.Forall₂ FlowSummary.Counts s.flows r.flows) ∧
    List.Forall₂ FlowSummary.Complete (parseDocument text).summary.flows (parseDocument text).flows := by
  intro s edges
  refine ⟨⟨?_, fun k => r.mem_keys, fun k n => r.mem_capabilities, ?_, ?_, ?_, ?_⟩, ?_⟩
  · rw [r.capabilities_summary, keys_tally]
    exact nodup_eraseDups _
  · rw [r.capabilities_summary, sum_tally, List.length_map]
    rfl
  · simp only [s, ParseResult.summary, List.length_flatMap, List.map_map]
    rfl
  · simp only [s, ParseResult.summary, List.length_flatMap, List.map_map]
    rfl
  · exact List.forall₂_map_left_iff.mpr (List.forall₂_same.mpr fun f _ => f.counts_summary)
  · refine List.forall₂_map_left_iff.mpr (List.forall₂_same.mpr fun f member => ?_)
    obtain ⟨_, _, read⟩ := (ParseResult.answers_parseLines 1 (documentLines text.toList)).read f member
    exact Flow.complete_summary read

end TransferFlow
