import TransferFlow.Proofs.BuilderNodes

namespace TransferFlow

namespace Builder

/-- Whether the node `n` at position `i` is in post-processing, and no node behind it is. -/
def isLastPost (nodes : List Node) (i : Nat) (n : Node) : Bool :=
  n.isPost && !(nodes.drop (i + 1)).any (·.isPost)

/-- The role that the node `n` at position `i` is given. -/
def roleAt (b : Builder) (i : Nat) (n : Node) : Role :=
  if isLastPost b.nodes i n then .target else roleOf b.edges n

theorem isLastPost_iff {nodes : List Node} {i : Nat} {n : Node} :
    isLastPost nodes i n = true ↔ n.isPost = true ∧ ∀ m ∈ nodes.drop (i + 1), m.isPost = false := by
  simp [isLastPost]

theorem getElem?_targetLastPost (nodes : List Node) (i : Nat) :
    (targetLastPost nodes)[i]? =
      nodes[i]?.map fun n => if isLastPost nodes i n then { n with role := .target } else n := by
  fun_induction targetLastPost nodes generalizing i with
  | case1 => rfl
  | case2 n rest last =>
    cases i with
    | zero =>
      have here : isLastPost (n :: rest) 0 n = true := last
      rw [List.getElem?_cons_zero, List.getElem?_cons_zero, Option.map_some, if_pos here]
    | succ i =>
      rw [Bool.and_eq_true, Bool.not_eq_true', List.any_eq_false] at last
      rw [List.getElem?_cons_succ, List.getElem?_cons_succ]
      cases atPlace : rest[i]? with
      | none => rfl
      | some m =>
        have main := last.2 m (List.mem_of_getElem? atPlace)
        rw [Option.map_some, isLastPost, if_neg (by simp [main])]
  | case3 n rest more ih =>
    cases i with
    | zero =>
      have here : ¬ isLastPost (n :: rest) 0 n = true := more
      rw [List.getElem?_cons_zero, List.getElem?_cons_zero, Option.map_some, if_neg here]
    | succ i => exact ih i

/-- What a test on flows sees of nodes does not depend on roles. -/
theorem forall_isPost_congr {nodes nodes' : List Node} (same : nodes'.map Node.bare = nodes.map Node.bare)
    {flag : Bool} : (∀ m ∈ nodes', m.isPost = flag) ↔ ∀ m ∈ nodes, m.isPost = flag := by
  have bare (ns : List Node) : (∀ m ∈ ns, m.isPost = flag) ↔ ∀ m ∈ ns.map Node.bare, m.isPost = flag := by
    rw [List.forall_mem_map]
    rfl
  rw [bare, same, ← bare]

theorem isLastPost_congr {nodes nodes' : List Node} (same : nodes'.map Node.bare = nodes.map Node.bare) (i : Nat)
    {n n' : Node} (flag : n'.isPost = n.isPost) : isLastPost nodes' i n' = isLastPost nodes i n := by
  have behind : (nodes'.drop (i + 1)).map Node.bare = (nodes.drop (i + 1)).map Node.bare := by
    rw [List.map_drop, same, List.map_drop]
  rw [Bool.eq_iff_iff, isLastPost_iff, isLastPost_iff, flag, forall_isPost_congr behind]

theorem getElem?_assignRoles (b : Builder) (i : Nat) :
    b.assignRoles.nodes[i]? = b.nodes[i]?.map fun n => { n with role := b.roleAt i n } := by
  rw [assignRoles, getElem?_targetLastPost, List.getElem?_map, Option.map_map]
  congr 1
  funext n
  have last := @isLastPost_congr b.nodes (b.nodes.map fun n => { n with role := roleOf b.edges n })
    (by rw [List.map_map]; rfl) i n { n with role := roleOf b.edges n } rfl
  rw [Function.comp_apply, last, roleAt]
  split <;> rfl

theorem roleOf_eq_source {edges : List Edge} {n : Node} : roleOf edges n = .source ↔ n.role = .source := by
  unfold roleOf
  split
  · simp_all
  · split
    · simp_all
    · split <;> simp_all

theorem roleOf_eq_target {edges : List Edge} {n : Node} :
    roleOf edges n = .target ↔
      n.isPost = false ∧ n.role ≠ .source ∧ ∀ e ∈ edges, e.isPost = false → e.fromId ≠ some n.id := by
  unfold roleOf
  split
  · simp_all
  · split
    · simp_all
    · split <;> simp_all

/-- A role that is given out on its own account is given out again. -/
theorem roleOf_roleOf (edges : List Edge) (n : Node) :
    roleOf edges { n with role := roleOf edges n } = roleOf edges n := by
  unfold roleOf
  split
  · rfl
  · split
    · rfl
    · split <;> rfl

theorem roleAt_eq_source {b : Builder} {i : Nat} {n : Node} :
    b.roleAt i n = .source ↔ isLastPost b.nodes i n = false ∧ n.role = .source := by
  rw [roleAt]
  cases isLastPost b.nodes i n with
  | true => simp
  | false => simp [roleOf_eq_source]

theorem roleAt_eq_target {b : Builder} {i : Nat} {n : Node} :
    b.roleAt i n = .target ↔ isLastPost b.nodes i n = true ∨ roleOf b.edges n = .target := by
  rw [roleAt]
  cases isLastPost b.nodes i n <;> simp

theorem roleAt_roleAt (b : Builder) (i : Nat) (n : Node) :
    b.assignRoles.roleAt i { n with role := b.roleAt i n } = b.roleAt i n := by
  have last := @isLastPost_congr _ _ b.assignRoles_bare i n { n with role := b.roleAt i n } rfl
  have edges : b.assignRoles.edges = b.edges := rfl
  rw [roleAt, last, edges, roleAt]
  split
  · rfl
  · exact roleOf_roleOf b.edges n

/-- Giving out roles again changes nothing, whatever nodes were sources before. -/
theorem assignRoles_assignRoles (b : Builder) : b.assignRoles.assignRoles = b.assignRoles := by
  have nodes : b.assignRoles.assignRoles.nodes = b.assignRoles.nodes := by
    apply List.ext_getElem?
    intro i
    rw [getElem?_assignRoles, getElem?_assignRoles, Option.map_map]
    congr 1
    funext n
    rw [Function.comp_apply]
    dsimp only
    rw [roleAt_roleAt]
  show { b.assignRoles with nodes := b.assignRoles.assignRoles.nodes } = b.assignRoles
  rw [nodes]

section Build

theorem foldl_introduce_role {b : Builder} (fresh : ∀ n ∈ b.nodes, n.role = .intermediate) (segs : List Segment) :
    ∀ n ∈ (segs.foldl introduce b).nodes, n.role = .intermediate := by
  induction segs generalizing b with
  | nil => exact fresh
  | cons s segs ih =>
    refine ih ?_
    cases s with
    | connection c => exact fresh
    | entity e =>
      rw [introduce, addNode]
      split
      · exact fresh
      · exact List.forall_mem_append.mpr ⟨fresh, List.forall_mem_singleton.mpr rfl⟩

/-- The node at position `i` is main, and no node before it is. -/
def IsFirstMain (nodes : List Node) (i : Nat) (n : Node) : Prop :=
  n.isPost = false ∧ ∀ m ∈ nodes.take i, m.isPost = true

theorem isFirstMain_congr {nodes nodes' : List Node} (same : nodes'.map Node.bare = nodes.map Node.bare) (i : Nat)
    {n n' : Node} (flag : n'.isPost = n.isPost) : IsFirstMain nodes' i n' ↔ IsFirstMain nodes i n := by
  have before : (nodes'.take i).map Node.bare = (nodes.take i).map Node.bare := by
    rw [List.map_take, same, List.map_take]
  rw [IsFirstMain, IsFirstMain, flag, forall_isPost_congr before]

theorem firstMain?_eq_some {b : Builder} {i : Nat} {n : Node} (atPlace : b.nodes[i]? = some n) :
    b.firstMain? = some i ↔ IsFirstMain b.nodes i n := by
  obtain ⟨inside, rfl⟩ := List.getElem?_eq_some_iff.mp atPlace
  rw [firstMain?, List.findIdx?_eq_some_iff_getElem, IsFirstMain]
  constructor
  · rintro ⟨_, main, before⟩
    refine ⟨by simpa using main, ?_⟩
    intro m member
    obtain ⟨j, bound, rfl⟩ := List.mem_take_iff_getElem.mp member
    simpa using before j (by omega)
  · rintro ⟨main, before⟩
    refine ⟨inside, by simpa using main, ?_⟩
    intro j earlier
    simpa using before _ (List.mem_take_iff_getElem.mpr ⟨j, by omega, rfl⟩)

/-- Before edges are drawn, the first main node is the source, and no other node has a role. -/
theorem role_withNodes {segs : List Segment} {i : Nat} {n : Node} (atPlace : (withNodes segs).nodes[i]? = some n) :
    (n.role = .source ↔ IsFirstMain (withNodes segs).nodes i n) ∧ (n.role = .source ∨ n.role = .intermediate) := by
  have fresh := @foldl_introduce_role empty (by simp [empty]) segs
  obtain ⟨m, inPlace, flag, marked⟩ : ∃ m, (segs.foldl introduce empty).nodes[i]? = some m ∧ n.isPost = m.isPost ∧
      n.role = if (segs.foldl introduce empty).firstMain? = some i then .source else m.role := by
    unfold withNodes at atPlace
    dsimp only at atPlace
    split at atPlace
    · rename_i position first
      rw [markSource, List.getElem?_modify] at atPlace
      obtain ⟨m, inPlace, rfl⟩ := Option.map_eq_some_iff.mp atPlace
      refine ⟨m, inPlace, ?_, ?_⟩
      · split <;> rfl
      · simp only [first, Option.some.injEq]
        split <;> rfl
    · rename_i none
      exact ⟨n, atPlace, rfl, by rw [none]; rfl⟩
  rw [isFirstMain_congr (withNodes_bare segs) i flag, ← firstMain?_eq_some inPlace, marked,
    fresh m (List.mem_of_getElem? inPlace)]
  split <;> simp_all

/-- The source of a graph is its first main node. -/
theorem role_build_eq_source {segs : List Segment} {i : Nat} {n : Node}
    (atPlace : (build segs).nodes[i]? = some n) :
    n.role = .source ↔ IsFirstMain (build segs).nodes i n := by
  have built := (segs.foldl visit (withNodes segs)).getElem?_assignRoles i
  rw [← build, atPlace, foldl_visit_nodes] at built
  obtain ⟨m, inPlace, rfl⟩ := Option.map_eq_some_iff.mp built.symm
  refine Iff.trans ?_ (@isFirstMain_congr _ _ (build_bare segs) i m _ rfl).symm
  rw [← (role_withNodes inPlace).1, roleAt_eq_source]
  constructor
  · exact fun both => both.2
  · intro source
    have main := ((role_withNodes inPlace).1.mp source).1
    exact ⟨by rw [isLastPost, main, Bool.false_and], source⟩

/-- The last post-processing node is a target, and so is every main node behind the first that no main
edge leaves. -/
theorem role_build_eq_target {segs : List Segment} {i : Nat} {n : Node}
    (atPlace : (build segs).nodes[i]? = some n) :
    n.role = .target ↔ isLastPost (build segs).nodes i n = true ∨ n.isPost = false ∧
      ¬ IsFirstMain (build segs).nodes i n ∧ ∀ e ∈ (build segs).edges, e.isPost = false → e.fromId ≠ some n.id := by
  have built := (segs.foldl visit (withNodes segs)).getElem?_assignRoles i
  rw [← build, atPlace, foldl_visit_nodes] at built
  obtain ⟨m, inPlace, same⟩ := Option.map_eq_some_iff.mp built.symm
  have flag : n.isPost = m.isPost := by rw [← same]
  have id : n.id = m.id := by rw [← same]
  have role : n.role = (segs.foldl visit (withNodes segs)).roleAt i m := by rw [← same]
  rw [isFirstMain_congr (build_bare segs) i flag, isLastPost_congr (build_bare segs) i flag, flag, id, role,
    ← (role_withNodes inPlace).1, roleAt_eq_target, roleOf_eq_target, foldl_visit_nodes]
  rfl

end Build

end Builder

/-- In a graph the source is the first main node, a main node that no main edge leaves is a target, the last
post-processing node is a target too, and every other node is between. Giving out roles again changes nothing,
in whatever state a builder is. -/
theorem roles_of_segments (segs : List Segment) :
    let b := Builder.build segs
    (∀ (i : Nat) (n : Node), b.nodes[i]? = some n →
      (n.role = .source ↔ n.isPost = false ∧ ∀ m ∈ b.nodes.take i, m.isPost = true) ∧
      (n.role = .target ↔
        n.isPost = true ∧ (∀ m ∈ b.nodes.drop (i + 1), m.isPost = false) ∨
        n.isPost = false ∧ (∃ m ∈ b.nodes.take i, m.isPost = false) ∧
          ∀ e ∈ b.edges, e.isPost = false → e.fromId ≠ some n.id)) ∧
    ∀ b : Builder, b.assignRoles.assignRoles = b.assignRoles := by
  refine ⟨?_, Builder.assignRoles_assignRoles⟩
  intro i n atPlace
  refine ⟨Builder.role_build_eq_source atPlace, ?_⟩
  rw [Builder.role_build_eq_target atPlace, Builder.isLastPost_iff, Builder.IsFirstMain]
  refine or_congr_right (and_congr_right fun main => and_congr_left fun _ => ?_)
  rw [main]
  simp

end TransferFlow
