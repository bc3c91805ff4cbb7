import TransferFlow.Proofs.SegmentGrammar
import TransferFlow.Segment.Writer

namespace TransferFlow

namespace Segment

section Posted

theorem continuesFanIn_asPost (segs rest : List Segment) :
    continuesFanIn (segs.map asPost ++ rest) = continuesFanIn (segs ++ rest) := by
  cases segs with
  | nil => rfl
  | cons s segs => cases s <;> rfl

theorem continuesFanOut_asPost (segs rest : List Segment) :
    continuesFanOut (segs.map asPost ++ rest) = continuesFanOut (segs ++ rest) := by
  cases segs with
  | nil => rfl
  | cons s segs => cases s <;> rfl

theorem startsPost_asPost (segs rest : List Segment) :
    startsPost (segs.map asPost ++ rest) = startsPost (segs ++ rest) := by
  cases segs with
  | nil => rfl
  | cons s segs => cases s <;> rfl

/-- Segments are written alike in every chain. -/
theorem writeBehind_asPost (inFanIn : Bool) (segs rest : List Segment) :
    writeBehind inFanIn (segs.map asPost ++ rest) = writeBehind inFanIn (segs ++ rest) := by
  induction segs generalizing inFanIn with
  | nil => rfl
  | cons s segs ih =>
    cases s with
    | entity e =>
      simp only [List.map_cons, List.cons_append, asPost, writeBehind,
        continuesFanOut_asPost, startsPost_asPost, ih]
    | connection c =>
      simp only [List.map_cons, List.cons_append, asPost, ConnectionSegment.asPost, ConnectionSegment.asLeg,
        writeBehind, continuesFanOut_asPost, continuesFanIn_asPost, ih]

end Posted

/-- The segments behind a whole hop: they go on with no group of it, and it is the hop's target that stands in
front of them. -/
structure EndsHop (rest : List Segment) : Prop where
  continues : continuesFanOut rest = false
  starts : startsPost rest = false

variable {rest : List Segment}

theorem writeBehind_plain (target : String) (starts : startsPost rest = false) (inFanIn : Bool) :
    writeBehind inFanIn (.entity (.plain target) :: rest) = writeBehind false rest := by
  rw [writeBehind, EntitySegment.plain]
  dsimp only
  rw [starts]
  rfl

theorem writeBehind_leg (l : Leg) (starts : startsPost rest = false) (inFanIn : Bool) :
    writeBehind inFanIn (l.segments ++ rest) = l.write ++ writeBehind false rest := by
  have connection : writeBehind inFanIn (l.segments ++ rest) =
      l.write ++ writeBehind false (.entity (.plain l.target) :: rest) := rfl
  rw [connection, writeBehind_plain _ starts]

/-- What closes a fan-out before `rest`. -/
def closeFanOut (rest : List Segment) : List Char :=
  if continuesFanOut rest then [] else [')']

/-- The steps of a fan-in, from the `n`th on. -/
def inputs (a : Arrow) (target : String) (steps : List Step) (n : Nat) : List Segment :=
  (steps.zipIdx n).map fun (s, i) => .connection (s.connection a target .input (some (i : Int)))

/-- The steps of a fan-in, by induction on those that are left. -/
theorem writeBehind_inputs (a : Arrow) (target : String) (starts : startsPost rest = false) (s : Step)
    (steps : List Step) (n : Nat) (inFanIn : Bool) :
    writeBehind inFanIn (inputs a target (s :: steps) n ++ .entity (.plain target) :: rest) =
      (if inFanIn then [' ', '&', ' '] else [' '] ++ a.chars ++ [' ', '(']) ++
        writeBranches ((s :: steps).map Step.write) ++ [')', ' '] ++ a.chars ++ [' '] ++ target.toList ++
          writeBehind false rest := by
  induction steps generalizing s n inFanIn with
  | nil =>
    have last : writeBehind inFanIn (inputs a target [s] n ++ .entity (.plain target) :: rest) =
        (if inFanIn then [' ', '&', ' '] else [' '] ++ a.chars ++ [' ', '(']) ++ s.write ++
          ([')', ' '] ++ a.chars ++ [' '] ++ target.toList) ++
            writeBehind true (.entity (.plain target) :: rest) := rfl
    rw [last, writeBehind_plain _ starts]
    simp [writeBranches]
  | cons s' steps ih =>
    have next : writeBehind inFanIn (inputs a target (s :: s' :: steps) n ++ .entity (.plain target) :: rest) =
        (if inFanIn then [' ', '&', ' '] else [' '] ++ a.chars ++ [' ', '(']) ++ s.write ++ [] ++
          writeBehind true (inputs a target (s' :: steps) (n + 1) ++ .entity (.plain target) :: rest) := rfl
    rw [next, ih]
    simp [writeBranches]

/-- The legs behind the target of a branch, by induction on those that are left. -/
theorem writeBehind_onward {e : EntitySegment} (branch : e.branch = .output ∨ e.branch = .continuation) (i : Int)
    (legs : List Leg) (inFanIn : Bool) :
    writeBehind inFanIn (.entity e :: ((legs.flatMap Leg.segments).map (continuing i) ++ rest)) =
      legs.flatMap Leg.write ++ (closeFanOut rest ++ writeBehind false rest) := by
  induction legs generalizing e inFanIn with
  | nil => rcases branch with branch | branch <;> simp [writeBehind, branch, closeFanOut]
  | cons l legs ih =>
    have later :=
      @ih { EntitySegment.plain l.target with branch := .continuation, step := some i } (Or.inr rfl) false
    have leg : writeBehind inFanIn
        (.entity e :: (((l :: legs).flatMap Leg.segments).map (continuing i) ++ rest)) =
          [] ++ (l.write ++ [] ++ writeBehind false
            (.entity { EntitySegment.plain l.target with branch := .continuation, step := some i } ::
              ((legs.flatMap Leg.segments).map (continuing i) ++ rest))) := by
      rcases branch with branch | branch <;> · rw [writeBehind, branch]; rfl
    rw [leg, later]
    simp

theorem writeBehind_branch (a : Arrow) (b : Branch) (i : Int) (inFanIn : Bool) :
    writeBehind inFanIn (b.segments a i ++ rest) =
      (if some i = some 1 then [' '] ++ a.chars ++ [' ', '('] else [' ', '&', ' ']) ++ b.write a ++
        (closeFanOut rest ++ writeBehind false rest) := by
  have onward := @writeBehind_onward rest { label := b.target, branch := .output, step := some i, isPost := false }
    (Or.inl rfl) i b.onward false
  have opening : writeBehind inFanIn (b.segments a i ++ rest) =
      (if some i = some 1 then [' '] ++ a.chars ++ [' ', '('] else [' ', '&', ' ']) ++ b.step.write ++
        [' '] ++ a.chars ++ [' '] ++ b.target.toList ++ [] ++ writeBehind false
          (.entity { label := b.target, branch := .output, step := some i, isPost := false } ::
            ((b.onward.flatMap Leg.segments).map (continuing i) ++ rest)) := by
    rw [Branch.segments, splice_repeated]
    rfl
  rw [opening, onward]
  simp [Branch.write]

/-- The branches of a fan-out, from the `n`th on. -/
def outputs (a : Arrow) (branches : List Branch) (n : Nat) : List Segment :=
  (branches.zipIdx n).flatMap fun (b, i) => b.segments a (i : Int)

theorem outputs_cons (a : Arrow) (b : Branch) (branches : List Branch) (n : Nat) :
    outputs a (b :: branches) n = b.segments a (n : Int) ++ outputs a branches (n + 1) := rfl

/-- The branches of a fan-out, by induction on those that are left. -/
theorem writeBehind_outputs (a : Arrow) (continues : continuesFanOut rest = false)
    (b : Branch) (branches : List Branch)
    {n : Nat} (positive : 1 ≤ n) (inFanIn : Bool) :
    writeBehind inFanIn (outputs a (b :: branches) n ++ rest) =
      (if n = 1 then [' '] ++ a.chars ++ [' ', '('] else [' ', '&', ' ']) ++
        writeBranches ((b :: branches).map (Branch.write a)) ++ [')'] ++ writeBehind false rest := by
  have first : (some (n : Int) = some 1) = (n = 1) := by simp
  induction branches generalizing b n inFanIn with
  | nil =>
    rw [outputs_cons, outputs, List.zipIdx_nil, List.flatMap_nil, List.append_nil, writeBehind_branch, closeFanOut,
      continues]
    simp [writeBranches]
  | cons b' branches ih =>
    have later := @ih b' (n + 1) (by omega) false (by simp)
    have further : closeFanOut (outputs a (b' :: branches) (n + 1) ++ rest) = [] := by
      have more : continuesFanOut (outputs a (b' :: branches) (n + 1) ++ rest) =
          (false || (true && some ((n + 1 : Nat) : Int) != some 1)) := rfl
      rw [closeFanOut, more]
      simp
      omega
    rw [outputs_cons, List.append_assoc, writeBehind_branch, further, later, if_neg (by omega : ¬ n + 1 = 1)]
    simp only [first]
    simp [writeBranches]

/-- A hop is written as it is, up to what stands behind it. -/
theorem writeBehind_hop {h : Hop} (wellFormed : h.WellFormed) (ends : EndsHop rest) :
    writeBehind false (h.segments ++ rest) = h.write ++ writeBehind false rest := by
  cases h with
  | single leg => exact writeBehind_leg leg ends.starts false
  | fanIn a steps target =>
    cases steps with
    | nil => exact absurd rfl wellFormed
    | cons s steps =>
      have whole : Hop.segments (.fanIn a (s :: steps) target) ++ rest =
          inputs a target (s :: steps) 1 ++ .entity (.plain target) :: rest := by
        rw [Hop.segments, inputs, List.append_assoc]
        rfl
      rw [whole, writeBehind_inputs a target ends.starts]
      simp [Hop.write]
  | fanOut a branches =>
    cases branches with
    | nil => exact absurd rfl wellFormed.1
    | cons b branches =>
      have whole : Hop.segments (.fanOut a (b :: branches)) = outputs a (b :: branches) 1 := rfl
      rw [whole, writeBehind_outputs a ends.continues b branches (Nat.le_refl 1)]
      simp [Hop.write]

/-- A hop starts with a connection that goes on with no group. -/
theorem endsHop_hop {h : Hop} (wellFormed : h.WellFormed) (rest : List Segment) : EndsHop (h.segments ++ rest) := by
  cases h with
  | single leg => exact ⟨rfl, rfl⟩
  | fanIn a steps target =>
    cases steps with
    | nil => exact absurd rfl wellFormed
    | cons s steps => exact ⟨rfl, rfl⟩
  | fanOut a branches =>
    cases branches with
    | nil => exact absurd rfl wellFormed.1
    | cons b branches => exact ⟨rfl, rfl⟩

theorem endsHop_hops {hops : List Hop} (wellFormed : ∀ h ∈ hops, h.WellFormed) (ends : EndsHop rest) :
    EndsHop (hops.flatMap Hop.segments ++ rest) := by
  cases hops with
  | nil => exact ends
  | cons h hops =>
    rw [List.flatMap_cons, List.append_assoc]
    exact endsHop_hop (wellFormed h List.mem_cons_self) _

theorem writeBehind_hops {hops : List Hop} (wellFormed : ∀ h ∈ hops, h.WellFormed) (ends : EndsHop rest) :
    writeBehind false (hops.flatMap Hop.segments ++ rest) = hops.flatMap Hop.write ++ writeBehind false rest := by
  induction hops with
  | nil => rfl
  | cons h hops ih =>
    obtain ⟨atHead, atTail⟩ := List.forall_mem_cons.mp wellFormed
    rw [List.flatMap_cons, List.append_assoc, writeBehind_hop atHead (endsHop_hops atTail ends), ih atTail,
      List.flatMap_cons, List.append_assoc]

/-- What starts post-processing is written like any other connection; it is the entity in front of it that
the mark goes before. -/
theorem writeBehind_started (c : ConnectionSegment) (flag inFanIn : Bool) :
    writeBehind inFanIn (.connection { c with startsPost := flag } :: rest) =
      writeBehind inFanIn (.connection c :: rest) := by
  obtain ⟨arrow, protocol, direction, target, branch, step, isPost, starts⟩ := c
  cases branch <;> rfl

theorem writeBehind_post {c : Chain} (wellFormed : c.WellFormed) (ends : EndsHop rest) :
    writeBehind false (markPost false c.segments ++ rest) =
        [' ', '>', '>', ' '] ++ c.write ++ writeBehind false rest := by
  obtain ⟨first, more, hops, shape, _⟩ := Chain.segments_cons wellFormed
  have behind : c.hops.flatMap Hop.segments = .connection first :: (more ++ hops.flatten) :=
    (List.cons_eq_cons.mp shape).2
  have whole := writeBehind_hops wellFormed.2 ends
  rw [behind, List.cons_append] at whole
  rw [shape, plain, markPost_chain, writeBehind_asPost, List.cons_append, List.cons_append, writeBehind]
  dsimp only
  rw [writeBehind_started first true, whole]
  simp [startsPost, Chain.write]

end Segment

open Segment

/-- Writing the segments of a pattern writes the pattern. -/
theorem Pattern.writeLine_segments {p : Pattern} (wellFormed : p.WellFormed) : writeLine p.segments = p.write := by
  obtain ⟨main, post⟩ := List.forall_mem_cons.mp wellFormed
  have later : writeBehind false (p.post.flatMap fun c => markPost false c.segments) =
        (p.post.flatMap fun c => [' ', '>', '>', ' '] ++ c.write) ∧
      EndsHop (p.post.flatMap fun c => markPost false c.segments) := by
    generalize p.post = chains at post
    induction chains with
    | nil => exact ⟨rfl, rfl, rfl⟩
    | cons c chains ih =>
      obtain ⟨atHead, atTail⟩ := List.forall_mem_cons.mp post
      obtain ⟨written, ends⟩ := ih atTail
      rw [List.flatMap_cons, writeBehind_post atHead ends, written, List.flatMap_cons]
      exact ⟨rfl, rfl, rfl⟩
  obtain ⟨written, ends⟩ := later
  have entity : writeLine p.segments = p.main.entity.toList ++ writeBehind false
      (p.main.hops.flatMap Hop.segments ++ p.post.flatMap fun c => markPost false c.segments) := rfl
  rw [entity, writeBehind_hops main.2 ends, written, Pattern.write, Chain.write, List.append_assoc]

end TransferFlow
