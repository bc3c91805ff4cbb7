import TransferFlow.Proofs.SegmentGrammar

namespace TransferFlow

/-- The connection of a leg, tagged. -/
def Leg.connection (l : Leg) (branch : BranchKind) (step : Option Int) (isPost starts : Bool) : Segment :=
  .connection {
    arrow := l.arrow, protocol := l.step.protocol, direction := l.step.direction, target := l.target, branch, step
    isPost, startsPost := starts }

/-- A leg outside fan-ins: its connection, and its target as an entity of the same kind. -/
def Leg.listing (l : Leg) (branch : BranchKind) (step : Option Int) (isPost starts : Bool) : List Segment :=
  [l.connection branch step isPost starts, .entity { label := l.target, branch, step, isPost }]

namespace Hop

/-- The segments of a hop; `starts` tells that the first of its connections starts post-processing. -/
def listing (isPost starts : Bool) : Hop → List Segment
  | .single leg => leg.listing .none none isPost starts
  | .fanIn a steps target =>
    ((steps.zipIdx 1).map fun (s, i) =>
      Leg.connection ⟨a, s, target⟩ .input (some (i : Int)) isPost (starts && i == 1)) ++
        [.entity { label := target, branch := .none, step := none, isPost }]
  | .fanOut a branches =>
    (branches.zipIdx 1).flatMap fun (b, i) =>
      Leg.listing ⟨a, b.step, b.target⟩ .output (some (i : Int)) isPost (starts && i == 1) ++
        b.onward.flatMap fun l => l.listing .continuation (some (i : Int)) isPost false

end Hop

/-- The segments of a chain. Only a post-processing chain has a connection that starts it, its first. -/
def Chain.listing (isPost : Bool) (c : Chain) : List Segment :=
  .entity { label := c.entity, branch := .none, step := none, isPost } ::
    (c.hops.zipIdx.flatMap fun (h, i) => h.listing isPost (isPost && i == 0))

/-- The segments of a line. -/
def Pattern.listing (p : Pattern) : List Segment :=
  p.main.listing false ++ p.post.flatMap (Chain.listing true)

namespace Segment

/-- Segments of the main line, in a chain that is post-processing or is not. -/
def inChain (isPost : Bool) (segs : List Segment) : List Segment :=
  if isPost then segs.map asPost else segs

/-- The first connection starts post-processing. -/
def started (starts : Bool) : List Segment → List Segment
  | .connection c :: rest => .connection { c with startsPost := starts } :: rest
  | segs => segs

theorem inChain_append (isPost : Bool) (xs ys : List Segment) :
    inChain isPost (xs ++ ys) = inChain isPost xs ++ inChain isPost ys := by
  cases isPost with
  | false => rfl
  | true => exact List.map_append

theorem inChain_flatMap {α : Type} (isPost : Bool) (f : α → List Segment) (xs : List α) :
    inChain isPost (xs.flatMap f) = xs.flatMap fun x => inChain isPost (f x) := by
  cases isPost with
  | false => rfl
  | true => exact List.map_flatMap

end Segment

open Segment (inChain started)

theorem Leg.listing_none (isPost starts : Bool) (l : Leg) :
    l.listing .none none isPost starts = inChain isPost (started starts l.segments) := by
  cases isPost <;> rfl

theorem Branch.listing_eq (a : Arrow) (isPost starts : Bool) (b : Branch) (i : Int) :
    (Leg.listing ⟨a, b.step, b.target⟩ .output (some i) isPost starts ++
        b.onward.flatMap fun l => l.listing .continuation (some i) isPost false) =
      inChain isPost (started starts (b.segments a i)) := by
  have onward : inChain isPost ((b.onward.flatMap Leg.segments).map (Segment.continuing i)) =
      b.onward.flatMap fun l => l.listing .continuation (some i) isPost false := by
    rw [List.map_flatMap, Segment.inChain_flatMap]
    cases isPost <;> rfl
  rw [Branch.segments, Segment.splice_repeated, ← onward]
  cases isPost <;> rfl

/-- Only the first position is one. -/
theorem map_zipIdx_later {α β : Type} (f : α → Nat → Bool → β) (starts : Bool) (xs : List α) :
    ((xs.zipIdx 2).map fun (x, i) => f x i (starts && i == 1)) = (xs.zipIdx 2).map fun (x, i) => f x i false := by
  refine List.map_congr_left ?_
  rintro ⟨x, i⟩ member
  have later : (i == 1) = false := by
    have := List.le_snd_of_mem_zipIdx member
    rw [beq_eq_false_iff_ne]
    omega
  simp only [later, Bool.and_false]

theorem Hop.listing_eq {h : Hop} (wellFormed : h.WellFormed) (isPost starts : Bool) :
    h.listing isPost starts = inChain isPost (started starts h.segments) := by
  have one : (starts && (1 : Nat) == 1) = starts := by simp
  cases h with
  | single leg => exact leg.listing_none isPost starts
  | fanIn a steps target =>
    cases steps with
    | nil => exact absurd rfl wellFormed
    | cons s steps =>
      let connection (s : Step) (i : Nat) (starts : Bool) : Segment :=
        Leg.connection ⟨a, s, target⟩ .input (some (i : Int)) isPost starts
      have later := map_zipIdx_later connection starts steps
      have listed : listing isPost starts (.fanIn a (s :: steps) target) =
          connection s 1 (starts && (1 : Nat) == 1) ::
            (((steps.zipIdx 2).map fun (s, i) => connection s i (starts && i == 1)) ++
              [.entity { label := target, branch := .none, step := none, isPost }]) := rfl
      rw [listed, later, one]
      cases isPost with
      | false => rfl
      | true =>
        have behind : ((steps.zipIdx 2).map fun (s, i) =>
            Segment.connection (s.connection a target .input (some (i : Int)))).map Segment.asPost =
              (steps.zipIdx 2).map fun (s, i) => connection s i false := List.map_map
        rw [← behind]
        exact congrArg (connection s 1 starts :: ·)
          (@List.map_append _ _ Segment.asPost _ [.entity (.plain target)]).symm
  | fanOut a branches =>
    cases branches with
    | nil => exact absurd rfl wellFormed.1
    | cons b branches =>
      let block (b : Branch) (i : Nat) (starts : Bool) : List Segment :=
        Leg.listing ⟨a, b.step, b.target⟩ .output (some (i : Int)) isPost starts ++
          b.onward.flatMap fun l => l.listing .continuation (some (i : Int)) isPost false
      have later := congrArg List.flatten (map_zipIdx_later block starts branches)
      have listed : listing isPost starts (.fanOut a (b :: branches)) =
          block b 1 (starts && (1 : Nat) == 1) ++
            (branches.zipIdx 2).flatMap fun (b, i) => block b i (starts && i == 1) := rfl
      have behind : (branches.zipIdx 2).flatMap (fun (b, i) => block b i false) =
          inChain isPost ((branches.zipIdx 2).flatMap fun (b, i) => b.segments a (i : Int)) := by
        rw [Segment.inChain_flatMap]
        refine List.flatMap_congr ?_
        rintro ⟨b, i⟩ _
        exact b.listing_eq a isPost false i
      rw [← List.flatMap_def, ← List.flatMap_def] at later
      have first : block b 1 starts = inChain isPost (started starts (b.segments a 1)) :=
        b.listing_eq a isPost starts 1
      rw [listed, later, one, behind, first, ← Segment.inChain_append]
      rfl

/-- The first hop of a post-processing chain starts it, and the others do not. -/
theorem Segment.markPost_hop {h : Hop} (wellFormed : h.WellFormed) (rest : List Segment) :
    Segment.markPost false (h.segments ++ rest) = (started true h.segments ++ rest).map Segment.asPost := by
  obtain ⟨first, more, begins, _⟩ := (Hop.isHop_segments wellFormed).head
  rw [begins, started, List.cons_append, List.cons_append, Segment.markPost, Segment.markPost_true, List.map_cons]
  simp [Segment.asPost, ConnectionSegment.asPost]

theorem Segment.started_false {h : Hop} (wellFormed : h.WellFormed) : started false h.segments = h.segments := by
  obtain ⟨first, more, begins, _⟩ := (Hop.isHop_segments wellFormed).head
  have unmarked := @Hop.startsPost_segments h first (by rw [begins]; exact List.mem_cons_self)
  rw [begins, started, ← unmarked]

theorem Hop.listing_later {hops : List Hop} (wellFormed : ∀ h ∈ hops, h.WellFormed) (isPost : Bool) {n : Nat}
    (later : 0 < n ∨ isPost = false) :
    ((hops.zipIdx n).flatMap fun (h, i) => h.listing isPost (isPost && i == 0)) =
      inChain isPost (hops.flatMap Hop.segments) := by
  induction hops generalizing n with
  | nil => cases isPost <;> rfl
  | cons h hops ih =>
    obtain ⟨atHead, atTail⟩ := List.forall_mem_cons.mp wellFormed
    have starts : (isPost && n == 0) = false := by
      rcases later with later | rfl
      · rw [beq_eq_false_iff_ne.mpr (by omega), Bool.and_false]
      · rfl
    rw [List.zipIdx_cons, List.flatMap_cons, List.flatMap_cons, ih atTail (Or.inl n.succ_pos),
      Segment.inChain_append]
    dsimp only
    rw [starts, Hop.listing_eq atHead, Segment.started_false atHead]

theorem Chain.listing_main {c : Chain} (wellFormed : c.WellFormed) : c.listing false = c.segments := by
  rw [listing, Hop.listing_later wellFormed.2 false (Or.inr rfl)]
  rfl

theorem Chain.listing_post {c : Chain} (wellFormed : c.WellFormed) :
    c.listing true = Segment.markPost false c.segments := by
  obtain ⟨nonempty, each⟩ := wellFormed
  obtain ⟨entity, hops⟩ := c
  cases hops with
  | nil => exact absurd rfl nonempty
  | cons h hops =>
    obtain ⟨atHead, atTail⟩ := List.forall_mem_cons.mp each
    rw [listing, List.zipIdx_cons, List.flatMap_cons,
      Hop.listing_later atTail true (Or.inl Nat.zero_lt_one), segments,
      List.flatMap_cons, Segment.markPost, Segment.markPost_hop atHead, List.map_append]
    dsimp only
    rw [Hop.listing_eq atHead]
    rfl

/-- The segments of a pattern are those that its structure tells. -/
theorem Pattern.listing_eq {p : Pattern} (wellFormed : p.WellFormed) : p.listing = p.segments := by
  obtain ⟨main, post⟩ := List.forall_mem_cons.mp wellFormed
  rw [listing, segments, Chain.listing_main main]
  refine congrArg _ (List.flatMap_congr fun c member => ?_)
  exact Chain.listing_post (post c member)

end TransferFlow
