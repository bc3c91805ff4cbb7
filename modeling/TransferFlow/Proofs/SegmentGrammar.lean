import Mathlib
import TransferFlow.Proofs.Reading

namespace TransferFlow

namespace ConnectionSegment

/-- The three tags that a connection shares with the entity it leads to. -/
structure Tagged (c : ConnectionSegment) (branch : BranchKind) (step : Option Int) (isPost : Bool) :
    Prop where
  branch : c.branch = branch
  step : c.step = step
  isPost : c.isPost = isPost

/-- A connection and the entity that it leads to, under the same tags. -/
def leg (c : ConnectionSegment) : List Segment :=
  [.connection c, .entity { label := c.target, branch := c.branch, step := c.step, isPost := c.isPost }]

theorem eq_of_mem_leg {c c' : ConnectionSegment} (member : .connection c ∈ c'.leg) : c = c' := by
  simpa [leg] using member

end ConnectionSegment

/-- A branch of a fan-out as segments: the connection that opens it, and those that continue it. -/
structure Block where
  opening : ConnectionSegment
  onward : List ConnectionSegment

namespace Block

def segments (b : Block) : List Segment :=
  b.opening.leg ++ b.onward.flatMap ConnectionSegment.leg

/-- All connections of the block belong to the branch at `position`. -/
structure At (b : Block) (position : Int) (isPost : Bool) : Prop where
  opening : b.opening.Tagged .output (some position) isPost
  onward : ∀ c ∈ b.onward, c.Tagged .continuation (some position) isPost

end Block

/-- The positions in a group of `n`, counted from one. -/
def positions (n : Nat) : List Int :=
  (List.range' 1 n).map Int.ofNat

namespace Segment

/-- An entity outside all fan-out branches. -/
def plain (label : String) (isPost : Bool) : Segment :=
  .entity { label, branch := .none, step := none, isPost }

/-- The segments of one hop. -/
inductive IsHop (isPost : Bool) : List Segment → Prop
  | single {c : ConnectionSegment} : c.Tagged .none none isPost → IsHop isPost c.leg
  | fanIn {cs : List ConnectionSegment} {a : Arrow} {target : String} :
      cs ≠ [] →
      List.Forall₂ (fun c i => c.Tagged .input (some i) isPost) cs (positions cs.length) →
      (∀ c ∈ cs, c.arrow = a ∧ c.target = target) →
      IsHop isPost (cs.map .connection ++ [plain target isPost])
  | fanOut {blocks : List Block} {a : Arrow} :
      blocks ≠ [] →
      List.Forall₂ (fun b i => b.At i isPost) blocks (positions blocks.length) →
      (∀ b ∈ blocks, b.opening.arrow = a) →
      (blocks.map (·.opening.target)).Nodup →
      IsHop isPost (blocks.flatMap Block.segments)

/-- An entity and at least one hop. The first connection starts the chain's post-processing, if the
chain is one, and no other connection does. -/
structure IsChain (isPost : Bool) (segs : List Segment) : Prop where
  shape : ∃ entity hops, segs = plain entity isPost :: List.flatten hops ∧ hops ≠ [] ∧
    ∀ h ∈ hops, IsHop isPost h
  starts : ∃ later, (segs.filterMap connection?).map ConnectionSegment.startsPost = isPost :: later ∧
    ∀ flag ∈ later, flag = false

/-- A main chain, and any number of post-processing chains behind it. -/
def IsLine (segs : List Segment) : Prop :=
  ∃ main post, segs = main ++ List.flatten post ∧ IsChain false main ∧ ∀ chain ∈ post, IsChain true chain

end Segment

open Segment (IsHop IsChain IsLine)

/-- A continuation that starts at the target of its branch does not name it again. -/
theorem Segment.splice_repeated (target : String) (step : Int) (rest : List Segment) :
    Segment.splice target step (.entity (.plain target) :: rest) = rest.map (Segment.continuing step) :=
  if_pos rfl

namespace Branch

/-- The branch of a fan-out along `a` as a block. -/
def block (a : Arrow) (b : Branch) (position : Int) : Block where
  opening := b.step.connection a b.target .output (some position)
  onward := b.onward.map fun l => l.step.connection l.arrow l.target .continuation (some position)

theorem segments_eq_block (a : Arrow) (b : Branch) (position : Int) :
    b.segments a position = (b.block a position).segments := by
  have onward (legs : List Leg) : (legs.flatMap Leg.segments).map (Segment.continuing position) =
      (legs.map fun l => l.step.connection l.arrow l.target .continuation (some position)).flatMap
        ConnectionSegment.leg := by
    induction legs with
    | nil => rfl
    | cons l legs ih =>
      rw [List.flatMap_cons, List.map_append, ih, List.map_cons, List.flatMap_cons]
      rfl
  rw [segments, Segment.splice_repeated, onward]
  rfl

theorem block_at (a : Arrow) (b : Branch) (position : Int) : (b.block a position).At position false where
  opening := ⟨rfl, rfl, rfl⟩
  onward := by
    intro c member
    obtain ⟨l, _, rfl⟩ := List.mem_map.mp member
    exact ⟨rfl, rfl, rfl⟩

end Branch

namespace Hop

/-- Members of a group are numbered on from `n` as they are written. -/
theorem forall₂_zipIdx {α β : Type} {R : β → Int → Prop} (xs : List α) (n : Nat) (f : α × Nat → β)
    (each : ∀ x i, R (f (x, i)) (i : Int)) :
    List.Forall₂ R ((xs.zipIdx n).map f) ((List.range' n xs.length).map Int.ofNat) := by
  induction xs generalizing n with
  | nil => exact .nil
  | cons x xs ih => exact .cons (each x n) (ih (n + 1))

theorem isHop_segments {h : Hop} (wellFormed : h.WellFormed) : IsHop false h.segments := by
  cases h with
  | single leg => exact IsHop.single (c := leg.step.connection leg.arrow leg.target .none none) ⟨rfl, rfl, rfl⟩
  | fanIn a steps target =>
    have shape : (Hop.fanIn a steps target).segments =
        ((steps.zipIdx 1).map fun p => p.1.connection a target .input (some (p.2 : Int))).map
          .connection ++ [Segment.plain target false] := by
      rw [List.map_map]
      rfl
    rw [shape]
    refine @IsHop.fanIn false _ a target ?_ ?_ ?_
    · simpa [WellFormed] using wellFormed
    · rw [List.length_map, List.length_zipIdx]
      exact forall₂_zipIdx steps 1 _ fun _ _ => ⟨rfl, rfl, rfl⟩
    · intro c member
      obtain ⟨s, _, rfl⟩ := List.mem_map.mp member
      exact ⟨rfl, rfl⟩
  | fanOut a branches =>
    have shape : (Hop.fanOut a branches).segments =
        ((branches.zipIdx 1).map fun p => p.1.block a (p.2 : Int)).flatMap Block.segments := by
      rw [List.flatMap_map]
      simp only [segments, Branch.segments_eq_block]
    rw [shape]
    refine IsHop.fanOut (a := a) ?_ ?_ ?_ ?_
    · simpa using wellFormed.1
    · rw [List.length_map, List.length_zipIdx]
      exact forall₂_zipIdx branches 1 _ fun b i => b.block_at a i
    · intro block member
      obtain ⟨b, _, rfl⟩ := List.mem_map.mp member
      rfl
    · have targets : ((branches.zipIdx 1).map fun p => p.1.block a (p.2 : Int)).map (·.opening.target) =
          branches.map Branch.target := by
        conv_rhs => rw [← List.zipIdx_map_fst 1 branches]
        rw [List.map_map, List.map_map]
        rfl
      rw [targets]
      exact wellFormed.2

theorem startsPost_segments {h : Hop} {c : ConnectionSegment} (member : .connection c ∈ h.segments) :
    c.startsPost = false := by
  cases h with
  | single leg =>
    rw [@ConnectionSegment.eq_of_mem_leg _ (leg.step.connection leg.arrow leg.target .none none) member]
    rfl
  | fanIn a steps target =>
    simp only [segments, List.mem_append, List.mem_map, List.mem_singleton, Segment.connection.injEq,
      reduceCtorEq, or_false] at member
    obtain ⟨s, _, rfl⟩ := member
    rfl
  | fanOut a branches =>
    obtain ⟨⟨b, i⟩, _, member⟩ := List.mem_flatMap.mp member
    dsimp only at member
    rw [Branch.segments_eq_block] at member
    rcases List.mem_append.mp member with atOpening | atOnward
    · rw [ConnectionSegment.eq_of_mem_leg atOpening]
      rfl
    · obtain ⟨c', inside, atLeg⟩ := List.mem_flatMap.mp atOnward
      obtain ⟨l, _, rfl⟩ := List.mem_map.mp inside
      rw [ConnectionSegment.eq_of_mem_leg atLeg]
      rfl

end Hop

/-- The same connection in a post-processing chain. -/
def ConnectionSegment.asPost (c : ConnectionSegment) : ConnectionSegment :=
  { c with isPost := true }

theorem ConnectionSegment.Tagged.asPost {c : ConnectionSegment} {branch : BranchKind}
    {step : Option Int} {isPost : Bool} (tagged : c.Tagged branch step isPost) :
    c.asPost.Tagged branch step true :=
  ⟨tagged.branch, tagged.step, rfl⟩

namespace Block

def asPost (b : Block) : Block where
  opening := b.opening.asPost
  onward := b.onward.map ConnectionSegment.asPost

theorem At.asPost {b : Block} {position : Int} {isPost : Bool} (at' : b.At position isPost) :
    b.asPost.At position true where
  opening := at'.opening.asPost
  onward := by
    intro c member
    obtain ⟨c', inside, rfl⟩ := List.mem_map.mp member
    exact (at'.onward c' inside).asPost

end Block

namespace Segment

/-- The same segment in a post-processing chain. -/
def asPost : Segment → Segment
  | .entity e => .entity { e with isPost := true }
  | .connection c => .connection c.asPost

/-- Only the first connection of a chain is marked as its start. -/
theorem markPost_true (segs : List Segment) : markPost true segs = segs.map asPost := by
  induction segs with
  | nil => rfl
  | cons s segs ih =>
    cases s with
    | entity e => rw [markPost, ih, List.map_cons, asPost]
    | connection c =>
      rw [markPost, ih, List.map_cons, asPost, ConnectionSegment.asPost, Bool.not_true, Bool.or_false]

theorem markPost_chain (e : EntitySegment) (c : ConnectionSegment) (rest : List Segment) :
    markPost false (.entity e :: .connection c :: rest) =
      (.entity e :: .connection { c with startsPost := true } :: rest).map asPost := by
  simp only [markPost, markPost_true, List.map_cons, asPost, ConnectionSegment.asPost, Bool.not_false,
    Bool.or_true]

theorem map_asPost_segments (b : Block) : b.segments.map asPost = b.asPost.segments := by
  have onward (cs : List ConnectionSegment) : (cs.flatMap ConnectionSegment.leg).map asPost =
      (cs.map ConnectionSegment.asPost).flatMap ConnectionSegment.leg := by
    rw [List.map_flatMap, List.flatMap_map]
    rfl
  rw [Block.segments, List.map_append, onward]
  rfl

theorem IsHop.asPost {isPost : Bool} {h : List Segment} (hop : IsHop isPost h) :
    IsHop true (h.map asPost) := by
  cases hop with
  | @single c tagged => exact IsHop.single (c := c.asPost) tagged.asPost
  | @fanIn cs a target nonempty tagged same =>
    have shape : (cs.map connection ++ [plain target isPost]).map Segment.asPost =
        (cs.map ConnectionSegment.asPost).map connection ++ [plain target true] := by
      rw [List.map_append, List.map_map, List.map_map]
      rfl
    rw [shape]
    refine @IsHop.fanIn true _ a target (by simpa using nonempty) ?_ ?_
    · rw [List.length_map, List.forall₂_map_left_iff]
      exact tagged.imp fun _ _ => ConnectionSegment.Tagged.asPost
    · intro c member
      obtain ⟨c', inside, rfl⟩ := List.mem_map.mp member
      exact same c' inside
  | @fanOut blocks a nonempty at' same distinct =>
    have shape : (blocks.flatMap Block.segments).map Segment.asPost =
        (blocks.map Block.asPost).flatMap Block.segments := by
      rw [List.map_flatMap, List.flatMap_map]
      simp only [map_asPost_segments]
    rw [shape]
    refine IsHop.fanOut (a := a) (by simpa using nonempty) ?_ ?_ ?_
    · rw [List.length_map, List.forall₂_map_left_iff]
      exact at'.imp fun _ _ => Block.At.asPost
    · intro b member
      obtain ⟨b', inside, rfl⟩ := List.mem_map.mp member
      exact same b' inside
    · rw [List.map_map]
      exact distinct

theorem IsHop.isPost_entity {isPost : Bool} {h : List Segment} (hop : IsHop isPost h)
    {e : EntitySegment} (member : .entity e ∈ h) : e.isPost = isPost := by
  have inLeg {c : ConnectionSegment} (member : .entity e ∈ c.leg) : e.isPost = c.isPost := by
    simp only [ConnectionSegment.leg, List.mem_cons, reduceCtorEq, Segment.entity.injEq, List.not_mem_nil,
      or_false, false_or] at member
    rw [member]
  cases hop with
  | single tagged => rw [inLeg member, tagged.isPost]
  | fanIn =>
    simp only [plain, List.mem_append, List.mem_map, reduceCtorEq, and_false, exists_false, List.mem_singleton,
      Segment.entity.injEq, false_or] at member
    rw [member]
  | fanOut nonempty at' =>
    obtain ⟨b, inside, member⟩ := List.mem_flatMap.mp member
    obtain ⟨i, _, tags⟩ := forall₂_mem_left at' inside
    rcases List.mem_append.mp member with atOpening | atOnward
    · rw [inLeg atOpening, tags.opening.isPost]
    · obtain ⟨c, within, atLeg⟩ := List.mem_flatMap.mp atOnward
      rw [inLeg atLeg, (tags.onward c within).isPost]

theorem IsHop.isPost_connection {isPost : Bool} {h : List Segment} (hop : IsHop isPost h)
    {c : ConnectionSegment} (member : .connection c ∈ h) : c.isPost = isPost := by
  cases hop with
  | single tagged => rw [ConnectionSegment.eq_of_mem_leg member, tagged.isPost]
  | fanIn _ tagged =>
    simp only [plain, List.mem_append, List.mem_map, Segment.connection.injEq, exists_eq_right, List.mem_singleton,
      reduceCtorEq, or_false] at member
    obtain ⟨i, _, tags⟩ := forall₂_mem_left tagged member
    exact tags.isPost
  | fanOut _ at' =>
    obtain ⟨b, inside, member⟩ := List.mem_flatMap.mp member
    obtain ⟨i, _, tags⟩ := forall₂_mem_left at' inside
    rcases List.mem_append.mp member with atOpening | atOnward
    · rw [ConnectionSegment.eq_of_mem_leg atOpening, tags.opening.isPost]
    · obtain ⟨c', within, atLeg⟩ := List.mem_flatMap.mp atOnward
      rw [ConnectionSegment.eq_of_mem_leg atLeg, (tags.onward c' within).isPost]

theorem IsChain.isPost_entity {isPost : Bool} {chain : List Segment} (isChain : IsChain isPost chain)
    {e : EntitySegment} (member : .entity e ∈ chain) : e.isPost = isPost := by
  obtain ⟨entity, hops, rfl, _, each⟩ := isChain.shape
  rcases List.mem_cons.mp member with same | member
  · cases same
    rfl
  · obtain ⟨h, inside, member⟩ := List.mem_flatten.mp member
    exact (each h inside).isPost_entity member

theorem IsChain.isPost_connection {isPost : Bool} {chain : List Segment} (isChain : IsChain isPost chain)
    {c : ConnectionSegment} (member : .connection c ∈ chain) : c.isPost = isPost := by
  obtain ⟨entity, hops, rfl, _, each⟩ := isChain.shape
  rcases List.mem_cons.mp member with same | member
  · cases same
  · obtain ⟨h, inside, member⟩ := List.mem_flatten.mp member
    exact (each h inside).isPost_connection member

/-- Every hop begins with a connection, and whether that one starts a chain is free. -/
theorem IsHop.head {isPost : Bool} {h : List Segment} (hop : IsHop isPost h) :
    ∃ c rest, h = .connection c :: rest ∧
      ∀ flag, IsHop isPost (.connection { c with startsPost := flag } :: rest) := by
  cases hop with
  | @single c tagged =>
    refine ⟨c, _, rfl, ?_⟩
    intro flag
    exact IsHop.single (c := { c with startsPost := flag }) ⟨tagged.branch, tagged.step, tagged.isPost⟩
  | @fanIn cs a target nonempty tagged same =>
    cases cs with
    | nil => exact absurd rfl nonempty
    | cons c cs =>
      obtain ⟨i, is, atHead, atTail, numbered⟩ := List.forall₂_cons_left_iff.mp tagged
      refine ⟨c, cs.map connection ++ [plain target isPost], rfl, ?_⟩
      intro flag
      refine @IsHop.fanIn isPost ({ c with startsPost := flag } :: cs) a target
        (List.cons_ne_nil _ _) ?_ (List.forall_mem_cons.mpr (List.forall_mem_cons.mp same))
      rw [List.length_cons] at numbered ⊢
      rw [numbered]
      exact .cons ⟨atHead.branch, atHead.step, atHead.isPost⟩ atTail
  | @fanOut blocks a nonempty at' same distinct =>
    cases blocks with
    | nil => exact absurd rfl nonempty
    | cons b blocks =>
      obtain ⟨i, is, atHead, atTail, numbered⟩ := List.forall₂_cons_left_iff.mp at'
      refine ⟨b.opening, _, rfl, ?_⟩
      intro flag
      refine @IsHop.fanOut isPost ({ b with opening := { b.opening with startsPost := flag } } :: blocks) a
        (List.cons_ne_nil _ _) ?_ (List.forall_mem_cons.mpr (List.forall_mem_cons.mp same)) distinct
      rw [List.length_cons] at numbered ⊢
      rw [numbered]
      have opening := atHead.opening
      exact .cons ⟨⟨opening.branch, opening.step, opening.isPost⟩, atHead.onward⟩ atTail

theorem IsChain.of_hops {isPost : Bool} {entity : String} {first : ConnectionSegment}
    {rest : List Segment} {hops : List (List Segment)} (atHead : IsHop isPost (.connection first :: rest))
    (atTail : ∀ h ∈ hops, IsHop isPost h) (starts : first.startsPost = isPost)
    (later : ∀ c, .connection c ∈ rest ++ hops.flatten → c.startsPost = false) :
    IsChain isPost (plain entity isPost :: .connection first :: (rest ++ hops.flatten)) where
  shape := ⟨entity, (.connection first :: rest) :: hops, rfl, List.cons_ne_nil _ _,
    List.forall_mem_cons.mpr ⟨atHead, atTail⟩⟩
  starts := by
    refine ⟨((rest ++ hops.flatten).filterMap connection?).map ConnectionSegment.startsPost, ?_, ?_⟩
    · rw [← starts]
      rfl
    · intro flag member
      obtain ⟨c, inside, rfl⟩ := List.mem_map.mp member
      obtain ⟨s, within, found⟩ := List.mem_filterMap.mp inside
      cases s with
      | entity e => cases found
      | connection c' =>
        cases found
        exact later c within

end Segment

namespace Chain

theorem startsPost_segments {c : Chain} {x : ConnectionSegment} (member : .connection x ∈ c.segments) :
    x.startsPost = false := by
  rcases List.mem_cons.mp member with same | member
  · cases same
  · obtain ⟨h, _, inside⟩ := List.mem_flatMap.mp member
    exact Hop.startsPost_segments inside

theorem segments_cons {c : Chain} (wellFormed : c.WellFormed) :
    ∃ first rest hops,
      c.segments = Segment.plain c.entity false :: .connection first :: (rest ++ List.flatten hops) ∧
      (∀ flag, IsHop false (.connection { first with startsPost := flag } :: rest)) ∧
      ∀ h ∈ hops, IsHop false h := by
  obtain ⟨nonempty, each⟩ := wellFormed
  cases named : c.hops with
  | nil => exact absurd named nonempty
  | cons h hops =>
    rw [named] at each
    obtain ⟨atHead, atTail⟩ := List.forall_mem_cons.mp each
    obtain ⟨first, rest, begins, free⟩ := (Hop.isHop_segments atHead).head
    refine ⟨first, rest, hops.map Hop.segments, ?_, free, ?_⟩
    · rw [segments, named, List.flatMap_cons, begins, List.flatMap_def]
      rfl
    · exact List.forall_mem_map.mpr fun h member => Hop.isHop_segments (atTail h member)

theorem isChain_segments {c : Chain} (wellFormed : c.WellFormed) : IsChain false c.segments := by
  obtain ⟨first, rest, hops, shape, atHead, atTail⟩ := segments_cons wellFormed
  have unmarked : ∀ x, .connection x ∈ c.segments → x.startsPost = false := fun _ => startsPost_segments
  rw [shape] at unmarked ⊢
  refine IsChain.of_hops (atHead first.startsPost) atTail (unmarked first (by simp)) ?_
  intro x member
  exact unmarked x (List.mem_cons_of_mem _ (List.mem_cons_of_mem _ member))

/-- Marking a chain as post-processing changes no more than its flags. -/
theorem isChain_markPost {c : Chain} (wellFormed : c.WellFormed) :
    IsChain true (Segment.markPost false c.segments) := by
  obtain ⟨first, rest, hops, shape, atHead, atTail⟩ := segments_cons wellFormed
  have unmarked : ∀ x, .connection x ∈ c.segments → x.startsPost = false := fun _ => startsPost_segments
  rw [shape] at unmarked ⊢
  rw [Segment.plain, Segment.markPost_chain, List.map_cons, List.map_cons, List.map_append, List.map_flatten]
  refine IsChain.of_hops (atHead true).asPost ?_ rfl ?_
  · exact List.forall_mem_map.mpr fun h member => (atTail h member).asPost
  · rw [← List.map_flatten, ← List.map_append]
    intro x member
    obtain ⟨s, inside, same⟩ := List.mem_map.mp member
    cases s with
    | entity e => cases same
    | connection x' =>
      cases same
      exact unmarked x' (List.mem_cons_of_mem _ (List.mem_cons_of_mem _ inside))

end Chain

theorem Pattern.isLine_segments {p : Pattern} (wellFormed : p.WellFormed) : IsLine p.segments := by
  obtain ⟨main, post⟩ := List.forall_mem_cons.mp wellFormed
  refine ⟨p.main.segments, p.post.map fun c => Segment.markPost false c.segments, ?_, ?_, ?_⟩
  · rw [segments, List.flatMap_def]
  · exact Chain.isChain_segments main
  · exact List.forall_mem_map.mpr fun c member => Chain.isChain_markPost (post c member)

/-- Every line that can be read is written out as a main chain and post-processing chains. -/
theorem isLine_of_tokenize {line : String} {segs : List Segment} (run : tokenize line = .ok segs) :
    IsLine segs := by
  obtain ⟨p, found, rfl⟩ := map_eq_ok.mp run
  exact Pattern.isLine_segments (Pattern.wellFormed_of_read found)

/-- A line with both kinds of groups, a continuation and post-processing. -/
theorem isLine_of_tokenize_groups :
    ∃ segs, tokenize "A -> (X PUSH & Y PULL) -> B <- (P PUSH <- C <- Q PULL <- D) >> C -> S PUSH -> F" = .ok segs ∧
      IsLine segs := by
  have read : (tokenize
      "A -> (X PUSH & Y PULL) -> B <- (P PUSH <- C <- Q PULL <- D) >> C -> S PUSH -> F").isOk = true := by
    cbv
  obtain ⟨segs, run⟩ := ok_of_isOk read
  exact ⟨segs, run, isLine_of_tokenize run⟩

end TransferFlow
