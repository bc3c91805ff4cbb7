import Mathlib.Data.List.Forall2
import TransferFlow.Pattern.Segments

namespace TransferFlow

theorem bind_eq_ok {ε α β : Type} {x : Except ε α} {f : α → Except ε β} {b : β} :
    x >>= f = .ok b ↔ ∃ a, x = .ok a ∧ f a = .ok b := by
  cases x with
  | error e => simp [bind, Except.bind]
  | ok a => simp [bind, Except.bind]

theorem map_eq_ok {ε α β : Type} {x : Except ε α} {f : α → β} {b : β} :
    x.map f = .ok b ↔ ∃ a, x = .ok a ∧ f a = b := by
  cases x with
  | error e => simp [Except.map]
  | ok a => simp [Except.map]

theorem pure_eq_ok {ε α : Type} {a b : α} : (pure a : Except ε α) = .ok b ↔ a = b := by
  simp [pure, Except.pure]

theorem ok_of_isOk {ε α : Type} {x : Except ε α} (ok : x.isOk = true) : ∃ a, x = .ok a := by
  cases x with
  | error e => cases ok
  | ok a => exact ⟨a, rfl⟩

theorem mapM_eq_ok {ε α β : Type} {f : α → Except ε β} {xs : List α} {ys : List β} :
    xs.mapM f = .ok ys ↔ List.Forall₂ (fun x y => f x = .ok y) xs ys := by
  induction xs generalizing ys with
  | nil =>
    rw [List.mapM_nil, pure_eq_ok, List.forall₂_nil_left_iff]
    exact eq_comm
  | cons x xs ih =>
    rw [List.mapM_cons, bind_eq_ok, List.forall₂_cons_left_iff]
    constructor
    · rintro ⟨y, atHead, rest⟩
      obtain ⟨ys', atTail, whole⟩ := bind_eq_ok.mp rest
      exact ⟨y, ys', atHead, ih.mp atTail, (pure_eq_ok.mp whole).symm⟩
    · rintro ⟨y, ys', atHead, atTail, rfl⟩
      exact ⟨y, atHead, bind_eq_ok.mpr ⟨ys', ih.mpr atTail, rfl⟩⟩

theorem branchesOf_ne_nil (inside : List Char) : branchesOf inside ≠ [] := by
  simp [branchesOf, Pieces.parts]

namespace Stage

/-- A text is a stage of its own unless it is a group, and an arrow makes a group a fan-out. -/
theorem ofChars_cases (cs : List Char) :
    groupInside? cs = none ∧ ofChars cs = .single cs ∨
      ∃ inside, groupInside? cs = some inside ∧
        ((branchesOf inside).any Token.hasArrow = false ∧ ofChars cs = .fanIn (branchesOf inside) ∨
          (branchesOf inside).any Token.hasArrow = true ∧ ofChars cs = .fanOut (branchesOf inside)) := by
  unfold ofChars
  cases group : groupInside? cs with
  | none => exact Or.inl ⟨rfl, rfl⟩
  | some inside =>
    refine Or.inr ⟨inside, rfl, ?_⟩
    cases arrows : (branchesOf inside).any Token.hasArrow with
    | false => exact Or.inl ⟨rfl, by simp only [arrows]; rfl⟩
    | true => exact Or.inr ⟨rfl, by simp only [arrows]; rfl⟩

theorem ofChars_eq_single {cs text : List Char} :
    ofChars cs = .single text ↔ text = cs ∧ groupInside? cs = none := by
  rcases ofChars_cases cs with ⟨none, stage⟩ | ⟨inside, group, ⟨_, stage⟩ | ⟨_, stage⟩⟩
  · rw [stage, none, single.injEq]
    exact ⟨fun same => ⟨same.symm, rfl⟩, fun same => same.1.symm⟩
  · simp [stage, group]
  · simp [stage, group]

theorem ofChars_eq_fanIn {cs : List Char} {texts : List (List Char)} :
    ofChars cs = .fanIn texts ↔
      ∃ inside, groupInside? cs = some inside ∧ texts = branchesOf inside ∧ texts.any Token.hasArrow = false := by
  constructor
  · intro found
    rcases ofChars_cases cs with ⟨_, stage⟩ | ⟨inside, group, ⟨arrows, stage⟩ | ⟨_, stage⟩⟩
    · rw [stage] at found
      cases found
    · rw [stage] at found
      cases found
      exact ⟨inside, group, rfl, arrows⟩
    · rw [stage] at found
      cases found
  · rintro ⟨inside, group, rfl, arrows⟩
    unfold ofChars
    simp only [group, arrows]
    rfl

theorem ofChars_eq_fanOut {cs : List Char} {texts : List (List Char)} :
    ofChars cs = .fanOut texts ↔
      ∃ inside, groupInside? cs = some inside ∧ texts = branchesOf inside ∧ texts.any Token.hasArrow = true := by
  constructor
  · intro found
    rcases ofChars_cases cs with ⟨_, stage⟩ | ⟨inside, group, ⟨_, stage⟩ | ⟨arrows, stage⟩⟩
    · rw [stage] at found
      cases found
    · rw [stage] at found
      cases found
    · rw [stage] at found
      cases found
      exact ⟨inside, group, rfl, arrows⟩
  · rintro ⟨inside, group, rfl, arrows⟩
    unfold ofChars
    simp only [group, arrows]
    rfl

theorem fanIn_ne_nil {cs : List Char} {texts : List (List Char)} (found : ofChars cs = .fanIn texts) :
    texts ≠ [] := by
  obtain ⟨inside, _, rfl, _⟩ := ofChars_eq_fanIn.mp found
  exact branchesOf_ne_nil inside

theorem fanOut_ne_nil {cs : List Char} {texts : List (List Char)} (found : ofChars cs = .fanOut texts) :
    texts ≠ [] := by
  obtain ⟨inside, _, rfl, _⟩ := ofChars_eq_fanOut.mp found
  exact branchesOf_ne_nil inside

end Stage

theorem Step.read_eq_ok {wording : StepWording} {cs : List Char} {s : Step} :
    Step.read wording cs = .ok s ↔ Step.read? cs = some s := by
  unfold Step.read
  cases Step.read? cs with
  | none => simp
  | some found => simp

namespace Part

theorem closing_eq_ok {a : Arrow} {wording : String} {parts : List Part} {target : String} :
    closing a wording parts = .ok target ↔
      ∃ name rest, parts = .arrow a :: .text name :: rest ∧ target = String.ofList name := by
  constructor
  · intro closed
    unfold closing at closed
    split at closed
    · cases closed
    · cases closed
    · rename_i b behind
      split at closed
      · cases closed
      · rename_i same
        split at closed
        · rename_i name rest
          cases closed
          exact ⟨name, rest, by rw [not_ne_iff.mp same], rfl⟩
        · cases closed
  · rintro ⟨name, rest, rfl, rfl⟩
    simp [closing]

end Part

namespace Branch

/-- What a branch text along `a` holds: a head, a target and, if more parts follow the target, a chain
of single hops. `chain` reads that chain. -/
inductive Reads (chain : List Char → Except SyntaxError Chain) (a : Arrow) (cs : List Char) :
    Branch → Prop
  | ending {step onward name} :
      Step.readBranch? cs = some (step, a, onward) → Part.split onward = [.text name] →
      Reads chain a cs { step, target := String.ofList name, onward := [] }
  | continued {step onward name next more continuation legs} :
      Step.readBranch? cs = some (step, a, onward) →
      Part.split onward = .text name :: next :: more →
      chain onward = .ok continuation → continuation.legs? = some legs →
      Reads chain a cs { step, target := String.ofList name, onward := legs }

variable {chain : List Char → Except SyntaxError Chain} {a : Arrow}

theorem Reads.of_read {used : List String} {cs : List Char} {b : Branch}
    (run : read chain a used cs = .ok b) : Reads chain a cs b ∧ b.target ∉ used := by
  unfold read at run
  dsimp only at run
  split at run
  · cases run
  rename_i step arrow onward atHead
  split at run
  · cases run
  rename_i same
  obtain rfl := not_ne_iff.mp same
  split at run
  · cases run
  · cases run
  rename_i name rest parts
  split at run
  · cases run
  rename_i fresh
  split at run
  · rename_i alone
    obtain rfl := List.isEmpty_iff.mp alone
    cases run
    exact ⟨.ending atHead parts, fresh⟩
  rename_i further
  split at run
  · cases run
  rename_i continuation onwardRun
  split at run
  · rename_i legs simple
    cases run
    cases rest with
    | nil => exact absurd rfl further
    | cons next more => exact ⟨.continued atHead parts onwardRun simple, fresh⟩
  · cases run

theorem Reads.run {used : List String} {cs : List Char} {b : Branch} (found : Reads chain a cs b)
    (fresh : b.target ∉ used) : read chain a used cs = .ok b := by
  cases found with
  | ending atHead parts => simp_all [read]
  | continued atHead parts onwardRun simple => simp_all [read]

theorem read_eq_ok {used : List String} {cs : List Char} {b : Branch} :
    read chain a used cs = .ok b ↔ Reads chain a cs b ∧ b.target ∉ used :=
  ⟨Reads.of_read, fun both => both.1.run both.2⟩

/-- The branches of a fan-out are read one by one; all they know of each other is that no target is
used twice. -/
theorem readAll_eq_ok {used : List String} {texts : List (List Char)} {branches : List Branch} :
    readAll chain a used texts = .ok branches ↔
      List.Forall₂ (Reads chain a) texts branches ∧ (branches.map target).Nodup ∧
        ∀ b ∈ branches, b.target ∉ used := by
  induction texts generalizing used branches with
  | nil =>
    rw [readAll, List.forall₂_nil_left_iff]
    constructor
    · rintro ⟨⟩
      simp
    · rintro ⟨rfl, _⟩
      rfl
  | cons cs texts ih =>
    rw [readAll, bind_eq_ok, List.forall₂_cons_left_iff]
    constructor
    · rintro ⟨b, atHead, rest⟩
      obtain ⟨later, atTail, whole⟩ := bind_eq_ok.mp rest
      obtain rfl := pure_eq_ok.mp whole
      obtain ⟨found, fresh⟩ := read_eq_ok.mp atHead
      obtain ⟨all, distinct, unused⟩ := ih.mp atTail
      refine ⟨⟨b, later, found, all, rfl⟩, ?_, ?_⟩
      · rw [List.map_cons, List.nodup_cons]
        refine ⟨?_, distinct⟩
        intro repeated
        obtain ⟨b', member, same⟩ := List.mem_map.mp repeated
        exact unused b' member (by simp [same])
      · intro b' member
        rcases List.mem_cons.mp member with rfl | member
        · exact fresh
        · exact fun used' => unused b' member (List.mem_cons_of_mem _ used')
    · rintro ⟨⟨b, later, found, all, rfl⟩, distinct, unused⟩
      rw [List.map_cons, List.nodup_cons] at distinct
      refine ⟨b, found.run (unused b List.mem_cons_self), bind_eq_ok.mpr ⟨later, ?_, rfl⟩⟩
      refine ih.mpr ⟨all, distinct.2, ?_⟩
      intro b' member used'
      rcases List.mem_cons.mp used' with same | used'
      · exact distinct.1 (List.mem_map.mpr ⟨b', member, same⟩)
      · exact unused b' (List.mem_cons_of_mem _ member) used'

end Branch

namespace Hop

/-- The hops that the parts behind an entity spell. A fan-out closes its own hop; any other stage needs
its arrow again, and a target behind it. -/
inductive Reads (chain : List Char → Except SyntaxError Chain) : List Part → List Hop → Prop
  | nil : Reads chain [] []
  | single {a cs text step name rest hops} :
      Stage.ofChars cs = .single text → Step.read? text = some step → Reads chain rest hops →
      Reads chain (.arrow a :: .text cs :: .arrow a :: .text name :: rest)
        (.single { arrow := a, step, target := String.ofList name } :: hops)
  | fanIn {a cs texts steps name rest hops} :
      Stage.ofChars cs = .fanIn texts → List.Forall₂ (fun t s => Step.read? t = some s) texts steps →
      Reads chain rest hops →
      Reads chain (.arrow a :: .text cs :: .arrow a :: .text name :: rest)
        (.fanIn a steps (String.ofList name) :: hops)
  | fanOut {a cs texts branches rest hops} :
      Stage.ofChars cs = .fanOut texts → List.Forall₂ (Branch.Reads chain a) texts branches →
      (branches.map Branch.target).Nodup → Reads chain rest hops →
      Reads chain (.arrow a :: .text cs :: rest) (.fanOut a branches :: hops)

variable {chain : List Char → Except SyntaxError Chain}

theorem stage_of_arrow (b : Arrow) : Stage.ofChars b.chars = .single b.chars := by
  cases b <;> decide

/-- An arrow is no step, so the stage of a hop that can be read is a text. -/
theorem read?_arrow (b : Arrow) : Step.read? b.chars = none := by
  cases b <;> decide

theorem behindTarget_eq_ok {a : Arrow} {wording : String} {parts : List Part} {target : String}
    {later : List Hop} (closed : Part.closing a wording parts = .ok target)
    (run : readAll.behindTarget chain parts = .ok later) :
    ∃ name rest, parts = .arrow a :: .text name :: rest ∧ target = String.ofList name ∧
      readAll chain rest = .ok later := by
  obtain ⟨name, rest, rfl, rfl⟩ := Part.closing_eq_ok.mp closed
  exact ⟨name, rest, rfl, rfl, run⟩

/-- By induction on the number of parts, since a hop takes two or four of them. -/
theorem Reads.of_readAll {parts : List Part} {hops : List Hop}
    (run : readAll chain parts = .ok hops) : Reads chain parts hops := by
  induction size : parts.length using Nat.strongRecOn generalizing parts hops with
  | ind n ih =>
    subst size
    match parts with
    | [] =>
      rw [readAll] at run
      cases run
      exact .nil
    | .text found :: rest => simp [readAll] at run
    | [.arrow a] => simp [readAll] at run
    | .arrow a :: stage :: rest =>
      rw [readAll] at run
      have atStage : ∃ cs, stage = .text cs := by
        cases stage with
        | text cs => exact ⟨cs, rfl⟩
        | arrow b =>
          rw [Part.chars, stage_of_arrow] at run
          obtain ⟨step, atStep, _⟩ := bind_eq_ok.mp run
          rw [liftM_refusal, Step.read_eq_ok, read?_arrow] at atStep
          cases atStep
      obtain ⟨cs, rfl⟩ := atStage
      rw [Part.chars] at run
      split at run
      · rename_i texts fanOut
        obtain ⟨branches, readBranches, run⟩ := bind_eq_ok.mp run
        obtain ⟨later, readLater, whole⟩ := bind_eq_ok.mp run
        obtain rfl := pure_eq_ok.mp whole
        obtain ⟨all, distinct, _⟩ := Branch.readAll_eq_ok.mp readBranches
        exact .fanOut fanOut all distinct (ih rest.length (by simp only [List.length_cons]; omega) readLater rfl)
      · rename_i texts fanIn
        obtain ⟨steps, readSteps, run⟩ := bind_eq_ok.mp run
        obtain ⟨target, closed, run⟩ := bind_eq_ok.mp run
        obtain ⟨later, readLater, whole⟩ := bind_eq_ok.mp run
        obtain rfl := pure_eq_ok.mp whole
        obtain ⟨name, behind, rfl, rfl, readLater⟩ := behindTarget_eq_ok closed readLater
        have all := (mapM_eq_ok.mp readSteps).imp fun _ _ => Step.read_eq_ok.mp
        exact .fanIn fanIn all (ih behind.length (by simp only [List.length_cons]; omega) readLater rfl)
      · rename_i text single
        obtain ⟨step, atStep, run⟩ := bind_eq_ok.mp run
        obtain ⟨target, closed, run⟩ := bind_eq_ok.mp run
        obtain ⟨later, readLater, whole⟩ := bind_eq_ok.mp run
        obtain rfl := pure_eq_ok.mp whole
        obtain ⟨name, behind, rfl, rfl, readLater⟩ := behindTarget_eq_ok closed readLater
        have shorter : behind.length < (Part.arrow a :: .text cs :: .arrow a :: .text name :: behind).length := by
          simp only [List.length_cons]
          omega
        exact .single single (Step.read_eq_ok.mp atStep) (ih behind.length shorter readLater rfl)

theorem Reads.run {parts : List Part} {hops : List Hop} (found : Reads chain parts hops) :
    readAll chain parts = .ok hops := by
  induction found with
  | nil => rfl
  | single single atStep _ ih =>
    rw [readAll, Part.chars, single]
    refine bind_eq_ok.mpr ⟨_, Step.read_eq_ok.mpr atStep, ?_⟩
    refine bind_eq_ok.mpr ⟨_, Part.closing_eq_ok.mpr ⟨_, _, rfl, rfl⟩, ?_⟩
    exact bind_eq_ok.mpr ⟨_, ih, rfl⟩
  | fanIn fanIn all _ ih =>
    rw [readAll, Part.chars, fanIn]
    refine bind_eq_ok.mpr ⟨_, mapM_eq_ok.mpr (all.imp fun _ _ => Step.read_eq_ok.mpr), ?_⟩
    refine bind_eq_ok.mpr ⟨_, Part.closing_eq_ok.mpr ⟨_, _, rfl, rfl⟩, ?_⟩
    exact bind_eq_ok.mpr ⟨_, ih, rfl⟩
  | fanOut fanOut all distinct _ ih =>
    rw [readAll, Part.chars, fanOut]
    refine bind_eq_ok.mpr ⟨_, Branch.readAll_eq_ok.mpr ⟨all, distinct, by simp⟩, ?_⟩
    exact bind_eq_ok.mpr ⟨_, ih, rfl⟩

theorem readAll_eq_ok {parts : List Part} {hops : List Hop} :
    readAll chain parts = .ok hops ↔ Reads chain parts hops :=
  ⟨Reads.of_readAll, Reads.run⟩

theorem Reads.last_isArrow {parts : List Part} {hops : List Hop} (found : Reads chain parts hops) :
    parts.getLast?.any Part.isArrow = false := by
  induction found with
  | nil => rfl
  | single _ _ found ih | fanIn _ _ found ih | fanOut _ _ _ found ih =>
    cases found with
    | nil => rfl
    | single | fanIn | fanOut => simpa only [List.getLast?_cons_cons] using ih

/-- A hop of two parts is a fan-out, and any other reading takes four parts or more. -/
theorem Reads.length_ge {parts : List Part} {hops : List Hop} (found : Reads chain parts hops) :
    parts = [] ∨ 4 ≤ parts.length ∨
      ∃ a cs, parts = [.arrow a, .text cs] ∧ (Stage.ofChars cs).isFanOut := by
  cases found with
  | nil => exact Or.inl rfl
  | single => exact Or.inr (Or.inl (by simp))
  | fanIn => exact Or.inr (Or.inl (by simp))
  | @fanOut a cs texts branches rest hops fanOut _ _ later =>
    right
    cases later with
    | nil => exact Or.inr ⟨a, cs, rfl, by rw [fanOut]; rfl⟩
    | single => exact Or.inl (by simp)
    | fanIn => exact Or.inl (by simp)
    | fanOut => exact Or.inl (by simp)

end Hop

namespace Chain

variable {chain : List Char → Except SyntaxError Chain}

theorem legs?_eq_some {c : Chain} {legs : List Leg} : c.legs? = some legs ↔ c.hops = legs.map Hop.single := by
  rw [legs?]
  induction c.hops generalizing legs with
  | nil =>
    rw [List.mapM_nil]
    cases legs <;> simp
  | cons h hops ih =>
    rw [List.mapM_cons]
    constructor
    · intro all
      obtain ⟨leg, atHead, all⟩ := Option.bind_eq_some_iff.mp all
      obtain ⟨legs', atTail, same⟩ := Option.bind_eq_some_iff.mp all
      cases same
      cases h with
      | single l =>
        cases atHead
        rw [List.map_cons, ← ih.mp atTail]
      | fanIn | fanOut => cases atHead
    · intro shape
      cases legs with
      | nil => cases shape
      | cons leg legs =>
        obtain ⟨rfl, rest⟩ := List.cons_eq_cons.mp shape
        rw [ih.mpr rest]
        rfl

/-- The early refusals never turn down an entity with hops behind it. -/
theorem refusal?_of_reads {entity : List Char} {rest : List Part} {hops : List Hop}
    (found : Hop.Reads chain rest hops) (further : rest ≠ []) :
    refusal? (.text entity :: rest) = none := by
  have last : (Part.text entity :: rest).getLast?.any Part.isArrow = false := by
    cases rest with
    | nil => exact absurd rfl further
    | cons p rest => simpa only [List.getLast?_cons_cons] using found.last_isArrow
  have long : 5 ≤ (Part.text entity :: rest).length ∨
      refusal?.endsInFanOut (.text entity :: rest) = true := by
    rcases found.length_ge with none | four | ⟨a, cs, rfl, fanOut⟩
    · exact absurd none further
    · exact Or.inl (by simpa using four)
    · exact Or.inr fanOut
  unfold refusal?
  rw [last, Bool.and_false, if_neg Bool.false_ne_true]
  rcases long with five | fanOut
  · rw [decide_eq_false (by omega), Bool.false_and, if_neg Bool.false_ne_true]
  · rw [fanOut, Bool.not_true, Bool.and_false, if_neg Bool.false_ne_true]

/-- A chain is an entity and at least one hop. -/
theorem readWith_eq_ok {cs : List Char} {c : Chain} :
    readWith chain cs = .ok c ↔
      ∃ entity rest, Part.split cs = .text entity :: rest ∧ rest ≠ [] ∧
        Hop.Reads chain rest c.hops ∧ c.entity = String.ofList entity := by
  constructor
  · intro run
    unfold readWith at run
    dsimp only at run
    split at run
    · cases run
    rename_i accepted
    split at run
    · rename_i entity rest parts
      obtain ⟨hops, readHops, whole⟩ := bind_eq_ok.mp run
      obtain rfl := pure_eq_ok.mp whole
      refine ⟨entity, rest, parts, ?_, Hop.Reads.of_readAll readHops, rfl⟩
      rintro rfl
      rw [parts] at accepted
      cases accepted
    · cases run
  · rintro ⟨entity, rest, parts, further, found, named⟩
    unfold readWith
    dsimp only
    rw [parts, refusal?_of_reads found further]
    refine bind_eq_ok.mpr ⟨c.hops, found.run, ?_⟩
    rw [← named]
    rfl

theorem split_nil : Part.split [] = [] := by
  decide

/-- A chain is an entity and at least one hop, and its continuations are shorter than it is. -/
theorem read_eq_ok {cs : List Char} {c : Chain} :
    read cs = .ok c ↔
      ∃ entity rest, Part.split cs = .text entity :: rest ∧ rest ≠ [] ∧
        Hop.Reads (readWithin .tooShort (cs.length - 1)) rest c.hops ∧ c.entity = String.ofList entity := by
  unfold read
  cases cs with
  | nil =>
    rw [split_nil]
    constructor
    · intro run
      cases run
    · rintro ⟨_, _, none, _⟩
      cases none
  | cons x cs => exact readWith_eq_ok

end Chain

/-- The lines that can be read are those whose chains can, each by itself. -/
theorem Pattern.read_eq_ok {cs : List Char} {p : Pattern} :
    Pattern.read cs = .ok p ↔
      List.Forall₂ (fun text c => Chain.read text = .ok c)
        ((Pieces.cut (·.kind == .post) cs).parts.map Text.trim) p.chains := by
  unfold Pattern.read readWith Pieces.parts Pattern.chains
  dsimp only
  rw [bind_eq_ok, List.map_cons, List.forall₂_cons, List.map_map, List.forall₂_map_left_iff]
  constructor
  · rintro ⟨main, readMain, run⟩
    obtain ⟨post, readPost, whole⟩ := bind_eq_ok.mp run
    obtain rfl := pure_eq_ok.mp whole
    exact ⟨readMain, mapM_eq_ok.mp readPost⟩
  · rintro ⟨readMain, readPost⟩
    exact ⟨p.main, readMain, bind_eq_ok.mpr ⟨p.post, mapM_eq_ok.mpr readPost, rfl⟩⟩

/-- A line that no mark cuts is one chain. -/
theorem tokenize_of_single {line : String} (single : (Pieces.cut (·.kind == .post) line.toList).rest = [])
    {segs : List Segment} :
    tokenize line = .ok segs ↔ ∃ c, Chain.read (Text.trim line.toList) = .ok c ∧ segs = c.segments := by
  have parts : (Pieces.cut (·.kind == .post) line.toList).parts.map Text.trim = [Text.trim line.toList] := by
    rw [Pieces.parts_of_single single, List.map_singleton]
  unfold tokenize
  rw [map_eq_ok]
  constructor
  · rintro ⟨⟨main, post⟩, found, rfl⟩
    rw [Pattern.read_eq_ok, parts, Pattern.chains, List.forall₂_cons, List.forall₂_nil_left_iff] at found
    obtain ⟨atMain, rfl⟩ := found
    exact ⟨main, atMain, List.append_nil _⟩
  · rintro ⟨c, found, rfl⟩
    refine ⟨{ main := c, post := [] }, Pattern.read_eq_ok.mpr ?_, List.append_nil _⟩
    rw [parts]
    exact .cons found .nil

/-- A group has members, and the branches of a fan-out have targets of their own. -/
def Hop.WellFormed : Hop → Prop
  | .single _ => True
  | .fanIn _ steps _ => steps ≠ []
  | .fanOut _ branches => branches ≠ [] ∧ (branches.map Branch.target).Nodup

def Chain.WellFormed (c : Chain) : Prop :=
  c.hops ≠ [] ∧ ∀ h ∈ c.hops, h.WellFormed

def Pattern.WellFormed (p : Pattern) : Prop :=
  ∀ c ∈ p.chains, c.WellFormed

theorem forall₂_ne_nil {α β : Type} {R : α → β → Prop} {xs : List α} {ys : List β}
    (related : List.Forall₂ R xs ys) (nonempty : xs ≠ []) : ys ≠ [] := by
  rintro rfl
  exact nonempty (List.forall₂_nil_right_iff.mp related)

theorem forall₂_mem_left {α β : Type} {R : α → β → Prop} {xs : List α} {ys : List β}
    (related : List.Forall₂ R xs ys) {x : α} (member : x ∈ xs) : ∃ y ∈ ys, R x y := by
  induction related with
  | nil => cases member
  | @cons x' y xs ys atHead _ ih =>
    rcases List.mem_cons.mp member with rfl | member
    · exact ⟨y, List.mem_cons_self, atHead⟩
    · obtain ⟨y', inside, found⟩ := ih member
      exact ⟨y', List.mem_cons_of_mem _ inside, found⟩

theorem forall₂_mem_right {α β : Type} {R : α → β → Prop} {xs : List α} {ys : List β}
    (related : List.Forall₂ R xs ys) {y : β} (member : y ∈ ys) : ∃ x ∈ xs, R x y :=
  forall₂_mem_left related.flip member

theorem Hop.Reads.wellFormed {chain : List Char → Except SyntaxError Chain} {parts : List Part}
    {hops : List Hop} (found : Hop.Reads chain parts hops) : ∀ h ∈ hops, h.WellFormed := by
  induction found with
  | nil => simp
  | single _ _ _ ih => exact List.forall_mem_cons.mpr ⟨trivial, ih⟩
  | fanIn fanIn all _ ih =>
    exact List.forall_mem_cons.mpr ⟨forall₂_ne_nil all (Stage.fanIn_ne_nil fanIn), ih⟩
  | fanOut fanOut all distinct _ ih =>
    exact List.forall_mem_cons.mpr ⟨⟨forall₂_ne_nil all (Stage.fanOut_ne_nil fanOut), distinct⟩, ih⟩

theorem Chain.wellFormed_of_read {cs : List Char} {c : Chain} (run : Chain.read cs = .ok c) :
    c.WellFormed := by
  obtain ⟨entity, rest, _, further, found, _⟩ := Chain.read_eq_ok.mp run
  refine ⟨?_, found.wellFormed⟩
  intro none
  rw [none] at found
  cases found
  exact further rfl

theorem Pattern.wellFormed_of_read {cs : List Char} {p : Pattern} (run : Pattern.read cs = .ok p) :
    p.WellFormed := by
  intro c member
  obtain ⟨text, _, readText⟩ := forall₂_mem_right (Pattern.read_eq_ok.mp run) member
  exact Chain.wellFormed_of_read readText

end TransferFlow
