import TransferFlow.Proofs.Nesting

namespace TransferFlow

open Chain (readWith readWithin readIn Asks)

section Settling

variable (e : SyntaxError) {α β : Type}

/-- A stop as a refusal. What is too deep counts as refused for `e`. -/
def Stop.settle : Stop → SyntaxError
  | .refused e' => e'
  | .tooDeep => e

abbrev settled (x : Except Stop α) : Except SyntaxError α :=
  x.mapError (Stop.settle e)

theorem settled_liftM (x : Except SyntaxError α) : settled e (liftM x) = x := by
  cases x <;> rfl

theorem settled_bind (x : Except Stop α) (f : α → Except Stop β) :
    settled e (x >>= f) = settled e x >>= fun a => settled e (f a) := by
  cases x <;> rfl

theorem Stop.eq_of_settle {s s' : Stop} (same : ∀ e, s.settle e = s'.settle e) : s = s' := by
  have other : SyntaxError.tooShort ≠ .endAfterArrow := nofun
  cases s with
  | refused e =>
    cases s' with
    | refused e' => exact congrArg _ (same e)
    | tooDeep => exact absurd ((same .tooShort).symm.trans (same .endAfterArrow)) other
  | tooDeep =>
    cases s' with
    | refused e' => exact absurd ((same .tooShort).trans (same .endAfterArrow).symm) other
    | tooDeep => rfl

/-- An answer is known by what it settles to, since not every stop can be one refusal. -/
theorem eq_of_settled {x y : Except Stop α} (same : ∀ e, settled e x = settled e y) : x = y := by
  cases x with
  | error s =>
    cases y with
    | error s' => exact congrArg _ (Stop.eq_of_settle fun e => Except.error.inj (same e))
    | ok b => cases same .tooShort
  | ok a =>
    cases y with
    | error s' => cases same .tooShort
    | ok b => exact congrArg _ (Except.ok.inj (same .tooShort))

end Settling

section Lifting

variable {α β : Type} {x : Except SyntaxError α}

theorem liftM_eq_ok {a : α} : (liftM x : Except Stop α) = .ok a ↔ x = .ok a := by
  cases x <;> simp [liftM, monadLift, MonadLift.monadLift, Except.mapError]

theorem liftM_eq_refused {e : SyntaxError} : (liftM x : Except Stop α) = .error (.refused e) ↔ x = .error e := by
  cases x <;> simp [liftM, monadLift, MonadLift.monadLift, Except.mapError]

theorem liftM_ne_tooDeep (x : Except SyntaxError α) : (liftM x : Except Stop α) ≠ .error .tooDeep := by
  cases x <;> simp [liftM, monadLift, MonadLift.monadLift, Except.mapError]

theorem map_liftM (f : α → β) (x : Except SyntaxError α) : (liftM x : Except Stop α).map f = liftM (x.map f) := by
  cases x <;> rfl

end Lifting

/-- Reading comes to `x` in limited room and to `y` in unlimited room; `deep` says whether the room is
too little. -/
def Limited {α : Type} (deep : Prop) (x : Except Stop α) (y : Except SyntaxError α) : Prop :=
  deep ∧ x = .error .tooDeep ∨ ¬deep ∧ x = liftM y

namespace Limited

variable {α β : Type} {deep : Prop} {x : Except Stop α} {y : Except SyntaxError α}

theorem map (limited : Limited deep x y) (f : α → β) : Limited deep (x.map f) (y.map f) := by
  rcases limited with ⟨deep, rfl⟩ | ⟨fits, rfl⟩
  · exact .inl ⟨deep, rfl⟩
  · exact .inr ⟨fits, map_liftM f y⟩

theorem eq_tooDeep (limited : Limited deep x y) (isDeep : deep) : x = .error .tooDeep :=
  (limited.resolve_right fun fits => fits.1 isDeep).2

theorem eq_liftM (limited : Limited deep x y) (fits : ¬deep) : x = liftM y :=
  (limited.resolve_left fun isDeep => fits isDeep.1).2

theorem eq_tooDeep_iff (limited : Limited deep x y) : x = .error .tooDeep ↔ deep := by
  refine ⟨fun stops => ?_, limited.eq_tooDeep⟩
  by_contra fits
  exact liftM_ne_tooDeep y ((limited.eq_liftM fits).symm.trans stops)

theorem eq_error_of_refused (limited : Limited deep x y) {e : SyntaxError} (refused : x = .error (.refused e)) :
    y = .error e := by
  rcases limited with ⟨_, stops⟩ | ⟨_, same⟩
  · cases refused.symm.trans stops
  · exact liftM_eq_refused.mp (same.symm.trans refused)

/-- Where the room is enough for all that can be read, the same is read in it. -/
theorem eq_ok_iff (limited : Limited deep x y) {a : α} (enough : y = .ok a → ¬deep) : x = .ok a ↔ y = .ok a := by
  rcases limited with ⟨isDeep, rfl⟩ | ⟨_, rfl⟩
  · exact ⟨nofun, fun read => absurd isDeep (enough read)⟩
  · exact liftM_eq_ok

end Limited

section Readers

variable (e : SyntaxError) (chain : List Char → Except Stop Chain)

theorem Branch.settled_read (a : Arrow) (used : List String) (cs : List Char) :
    settled e (read chain a used cs) = read (fun text => settled e (chain text)) a used cs := by
  unfold read
  dsimp only
  split
  · rfl
  rename_i step b onward _
  by_cases same : b ≠ a
  · rw [if_pos same, if_pos same]
    rfl
  rw [if_neg same, if_neg same]
  split
  · rfl
  · rfl
  split
  · rfl
  split
  · rfl
  cases chain onward with
  | error s => rfl
  | ok continuation =>
    dsimp only [settled, Except.mapError]
    cases continuation.legs? <;> rfl

theorem Branch.settled_readAll (a : Arrow) (used : List String) (texts : List (List Char)) :
    settled e (readAll chain a used texts) = readAll (fun text => settled e (chain text)) a used texts := by
  induction texts generalizing used with
  | nil => rfl
  | cons cs texts ih =>
    rw [readAll, readAll, settled_bind, settled_read]
    refine bind_congr fun branch => ?_
    rw [settled_bind, ih]
    rfl

/-- By induction on the number of parts, as in `Hop.Reads.of_readAll`. -/
theorem Hop.settled_readAll (parts : List Part) :
    settled e (readAll chain parts) = readAll (fun text => settled e (chain text)) parts := by
  induction size : parts.length using Nat.strongRecOn generalizing parts with
  | ind n ih =>
    subst size
    match parts with
    | [] => rfl
    | .text found :: rest =>
      rw [readAll, readAll]
      rfl
    | [.arrow a] =>
      rw [readAll, readAll]
      rfl
    | .arrow a :: stage :: rest =>
      have behind : settled e (readAll.behindTarget chain rest) =
          readAll.behindTarget (fun text => settled e (chain text)) rest := by
        rcases rest with _ | ⟨_, _ | ⟨_, rest⟩⟩
        · rfl
        · rfl
        · exact ih rest.length (by simp only [List.length_cons]; omega) rest rfl
      -- Behind its steps a fan-in and a single hop are read on alike.
      have closing (hop : String → Hop) (wording : String) :
          settled e (do
            let target ← (Part.closing a wording rest : Except SyntaxError String)
            let later ← readAll.behindTarget chain rest
            return hop target :: later) = do
          let target ← Part.closing a wording rest
          let later ← readAll.behindTarget (fun text => settled e (chain text)) rest
          return hop target :: later := by
        rw [settled_bind, settled_liftM]
        refine bind_congr fun target => ?_
        rw [settled_bind, behind]
        rfl
      rw [readAll, readAll]
      split
      · rw [settled_bind, Branch.settled_readAll]
        refine bind_congr fun branches => ?_
        rw [settled_bind, ih rest.length (by simp only [List.length_cons]; omega) rest rfl]
        rfl
      · rw [settled_bind, settled_liftM]
        exact bind_congr fun steps => closing (.fanIn a steps) _
      · rw [settled_bind, settled_liftM]
        exact bind_congr fun step => closing (fun target => .single ⟨a, step, target⟩) _

theorem Chain.settled_readWith (cs : List Char) :
    settled e (readWith chain cs) = readWith (fun text => settled e (chain text)) cs := by
  unfold readWith
  dsimp only
  split
  · rfl
  split
  · rw [settled_bind, Hop.settled_readAll]
    rfl
  · rfl

theorem Chain.settled_readIn (room : Nat) (cs : List Char) : settled e (readIn room cs) = readWithin e room cs := by
  induction room generalizing cs with
  | zero => rfl
  | succ room ih =>
    have inner : (fun text => settled e (readIn room text)) = readWithin e room := funext ih
    rw [readWithin, ← inner]
    exact settled_readWith e (readIn room) cs

end Readers

namespace Chain

/-- By induction on the room. A chain that nests too many asks for one that does, and is refused with it. -/
theorem readWithin_cases (e : SyntaxError) (room : Nat) (cs : List Char) :
    Nests room cs ∧ readWithin e room cs = .error e ∨ ¬Nests room cs ∧ readWithin e room cs = read cs := by
  induction room generalizing cs with
  | zero => exact .inl ⟨nests_zero cs, rfl⟩
  | succ room ih =>
    have stricter : Stricter read (readWithin e room) e := fun text => ((ih text).imp And.right And.right).symm
    by_cases nests : Nests (room + 1) cs
    · obtain ⟨onward, asks, inner⟩ := nests_succ.mp nests
      have refuses := ((ih onward).resolve_right fun fits => fits.1 inner).2
      exact .inl ⟨nests, asks.refused stricter refuses⟩
    · have agree (onward : List Char) (asks : Asks read cs onward) : read onward = readWithin e room onward :=
        ((ih onward).resolve_left fun deep => nests (nests_succ.mpr ⟨onward, asks, deep.1⟩)).2.symm
      exact .inr ⟨nests, (readWith_congr agree).symm.trans (read_eq_readWith cs).symm⟩

/-- A chain that nests as many chains as there is room for is too deep, and any other is read as with
unlimited room. -/
theorem limited_readIn (room : Nat) (cs : List Char) : Limited (Nests room cs) (readIn room cs) (read cs) := by
  by_cases nests : Nests room cs
  · refine .inl ⟨nests, eq_of_settled fun e => ?_⟩
    rw [settled_readIn]
    exact ((readWithin_cases e room cs).resolve_right fun fits => fits.1 nests).2
  · refine .inr ⟨nests, eq_of_settled fun e => ?_⟩
    rw [settled_readIn, settled_liftM]
    exact ((readWithin_cases e room cs).resolve_left fun deep => nests deep.1).2

end Chain

section Accepted

variable {chain : List Char → Except SyntaxError Chain} {onward : List Char}

/-- A continuation that is asked for while branches are read is a chain of single hops. -/
theorem Branch.Asks.simple {a : Arrow} {used : List String} {texts : List (List Char)} {branches : List Branch}
    (asks : Branch.Asks chain a onward used texts) (run : Branch.readAll chain a used texts = .ok branches) :
    ∃ continuation legs, chain onward = .ok continuation ∧ continuation.legs? = some legs := by
  induction asks generalizing branches with
  | @here used cs rest continues =>
    obtain ⟨found, parts, _⟩ := continues
    rw [readAll] at run
    obtain ⟨branch, first, _⟩ := bind_eq_ok.mp run
    cases (Reads.of_read first).1 with
    | ending found' alone =>
      cases found.symm.trans found'
      cases parts.symm.trans alone
    | continued found' _ further simple =>
      cases found.symm.trans found'
      exact ⟨_, _, further, simple⟩
  | later first _ ih =>
    rw [readAll, first] at run
    obtain ⟨_, ⟨⟩, run⟩ := bind_eq_ok.mp run
    obtain ⟨later, readLater, _⟩ := bind_eq_ok.mp run
    exact ih readLater

/-- What asks for a continuation is a fan-out. -/
theorem Hop.Asks.simple {parts : List Part} {hops : List Hop} (asks : Hop.Asks chain parts onward)
    (run : Hop.readAll chain parts = .ok hops) :
    (∃ continuation legs, chain onward = .ok continuation ∧ continuation.legs? = some legs) ∧
      ∃ a branches, .fanOut a branches ∈ hops := by
  obtain ⟨a, stage, behind, texts, visits, group, asks⟩ := asks
  induction visits using Relation.ReflTransGen.head_induction_on generalizing hops with
  | refl =>
    rw [readAll, group] at run
    obtain ⟨branches, readBranches, run⟩ := bind_eq_ok.mp run
    obtain ⟨later, _, whole⟩ := bind_eq_ok.mp run
    obtain rfl := pure_eq_ok.mp whole
    exact ⟨asks.simple readBranches, a, branches, List.mem_cons_self⟩
  | head taken _ ih =>
    obtain ⟨hop, first⟩ := taken.readAll_eq
    obtain ⟨later, readLater, rfl⟩ := map_eq_ok.mp (first.symm.trans run)
    obtain ⟨simple, a, branches, member⟩ := ih readLater
    exact ⟨simple, a, branches, List.mem_cons_of_mem _ member⟩

namespace Chain

variable {cs : List Char} {c : Chain} {room : Nat}

theorem Asks.simple (asks : Asks chain cs onward) (run : readWith chain cs = .ok c) :
    (∃ continuation legs, chain onward = .ok continuation ∧ continuation.legs? = some legs) ∧ c.legs? = none := by
  obtain ⟨parts, accepted, asks⟩ := asks
  obtain ⟨entity, rest, parts', _, found, _⟩ := readWith_eq_ok.mp run
  cases parts.symm.trans parts'
  obtain ⟨simple, a, branches, member⟩ := asks.simple found.run
  refine ⟨simple, Option.eq_none_iff_forall_ne_some.mpr fun legs shape => ?_⟩
  rw [legs?_eq_some.mp shape] at member
  obtain ⟨leg, _, same⟩ := List.mem_map.mp member
  cases same

/-- A chain that can be read may have chains inside, but none inside these. -/
theorem not_nests_of_read (run : read cs = .ok c) : ¬Nests 2 cs := by
  intro nests
  obtain ⟨onward, asks, inner⟩ := nests_succ.mp nests
  obtain ⟨further, asks', _⟩ := nests_succ.mp inner
  rw [read_eq_readWith] at run
  obtain ⟨⟨continuation, legs, run', simple⟩, _⟩ := asks.simple run
  rw [read_eq_readWith] at run'
  have group := (asks'.simple run').2
  rw [simple] at group
  cases group

end Chain

end Accepted

namespace Pattern

variable {room : Nat} {cs : List Char} {p : Pattern}

/-- The texts of the chains of a line. -/
def chainTexts (cs : List Char) : List (List Char) :=
  (Pieces.cut (·.kind == .post) cs).parts.map Text.trim

/-- One of the texts nests as many chains as there is room for, and those before it can be read. -/
def ComesTooDeep (room : Nat) (texts : List (List Char)) : Prop :=
  ∃ before text after, texts = before ++ text :: after ∧ (∀ t ∈ before, ∃ c, Chain.read t = .ok c) ∧
    Chain.Nests room text

/-- Reading the line comes to a chain that is too deep. -/
def TooDeep (room : Nat) (cs : List Char) : Prop :=
  ComesTooDeep room (chainTexts cs)

theorem chains_readWith {ε : Type} (chain : List Char → Except ε Chain) (cs : List Char) :
    (Pattern.readWith chain cs).map chains = (chainTexts cs).mapM chain := by
  rw [chainTexts, Pieces.parts, List.map_cons, List.map_map, List.mapM_cons, List.mapM_map, Pattern.readWith]
  dsimp only
  cases chain (Text.trim (Token.charsOf (Pieces.cut (·.kind == .post) cs).first)) with
  | error e => rfl
  | ok main =>
    dsimp only [bind, Except.bind, Function.comp_def]
    cases (Pieces.cut (·.kind == .post) cs).rest.mapM fun piece => chain (Text.trim (Token.charsOf piece.2)) <;> rfl

theorem chains_injective : Function.Injective chains := by
  rintro ⟨main, post⟩ ⟨main', post'⟩ same
  cases same
  rfl

theorem comesTooDeep_cons {text : List Char} {texts : List (List Char)} :
    ComesTooDeep room (text :: texts) ↔
      Chain.Nests room text ∨ (∃ c, Chain.read text = .ok c) ∧ ComesTooDeep room texts := by
  constructor
  · rintro ⟨_ | ⟨t, before⟩, deep, after, split, readable, nests⟩
    · cases split
      exact .inl nests
    · cases split
      obtain ⟨atHead, atTail⟩ := List.forall_mem_cons.mp readable
      exact .inr ⟨atHead, before, deep, after, rfl, atTail, nests⟩
  · rintro (nests | ⟨atHead, before, deep, after, rfl, atTail, nests⟩)
    · exact ⟨[], text, texts, rfl, List.forall_mem_nil _, nests⟩
    · exact ⟨text :: before, deep, after, rfl, List.forall_mem_cons.mpr ⟨atHead, atTail⟩, nests⟩

/-- By induction on the texts. The first of them that is not read ends the reading, if there is one. -/
theorem limited_mapM_readIn (room : Nat) (texts : List (List Char)) :
    Limited (ComesTooDeep room texts) (texts.mapM (Chain.readIn room)) (texts.mapM Chain.read) := by
  induction texts with
  | nil =>
    exact .inr ⟨fun ⟨_, _, _, split, _⟩ =>
      List.append_ne_nil_of_right_ne_nil _ (List.cons_ne_nil _ _) split.symm, rfl⟩
  | cons text texts ih =>
    rw [List.mapM_cons, List.mapM_cons, comesTooDeep_cons]
    rcases Chain.limited_readIn room text with ⟨nests, deep⟩ | ⟨fits, same⟩
    · rw [deep]
      exact .inl ⟨.inl nests, rfl⟩
    rw [same]
    cases read : Chain.read text with
    | error e => exact .inr ⟨by simp [fits], rfl⟩
    | ok c =>
      rcases ih with ⟨comes, deep⟩ | ⟨stays, same⟩
      · rw [deep]
        exact .inl ⟨.inr ⟨⟨c, rfl⟩, comes⟩, rfl⟩
      · refine .inr ⟨by simp [fits, stays], ?_⟩
        rw [same]
        cases texts.mapM Chain.read <;> rfl

/-- A line is too deep, or it is read as with unlimited room. -/
theorem limited_readIn (room : Nat) (cs : List Char) : Limited (TooDeep room cs) (readIn room cs) (read cs) := by
  have inRoom := chains_readWith (Chain.readIn room) cs
  rcases limited_mapM_readIn room (chainTexts cs) with ⟨deep, stops⟩ | ⟨fits, same⟩
  · rw [stops] at inRoom
    exact .inl ⟨deep, map_eq_error.mp inRoom⟩
  · refine .inr ⟨fits, ?_⟩
    rw [same, ← chains_readWith Chain.read cs, ← map_liftM] at inRoom
    rw [readIn, read]
    revert inRoom
    cases Pattern.readWith (Chain.readIn room) cs <;>
      cases (liftM (Pattern.readWith Chain.read cs) : Except Stop Pattern) <;>
      simp [Except.map, chains_injective.eq_iff]

/-- In a line that can be read no chain stands inside a continuation. -/
theorem not_tooDeep_of_read (two : 2 ≤ room) (run : read cs = .ok p) : ¬TooDeep room cs := by
  rintro ⟨before, text, after, split, -, nests⟩
  have member : text ∈ chainTexts cs := by
    rw [split]
    exact List.mem_append_right _ List.mem_cons_self
  obtain ⟨c, -, accepted⟩ := forall₂_mem_left (Pattern.read_eq_ok.mp run) member
  exact Chain.not_nests_of_read accepted (nests.of_le two)

/-- A text that nests too many chains is a line that is too deep. -/
theorem tooDeep_of_nestable (nestable : Chain.Nestable cs) (nests : Chain.Nests room cs) : TooDeep room cs := by
  have unmarked : ∀ t ∈ Token.lex cs, (t.kind == .post) = false := by
    intro t member
    cases t with
    | post => exact absurd member nestable.unmarked
    | _ => rfl
  have single : (Pieces.cut (·.kind == .post) cs).rest = [] := Pieces.rest_cut_of_none unmarked
  have texts : chainTexts cs = [cs] := by
    rw [chainTexts, Pieces.parts_of_single single, List.map_singleton, nestable.trimmed.trim_eq]
  rw [TooDeep, texts]
  exact comesTooDeep_cons.mpr (.inl nests)

end Pattern

section Tokenizing

variable {room : Nat} {line : String}

theorem limited_tokenizeIn (room : Nat) (line : String) :
    Limited (Pattern.TooDeep room line.toList) (tokenizeIn room line) (tokenize line) :=
  (Pattern.limited_readIn room line.toList).map Pattern.segments

/-- Room for two chains inside each other is enough for every line that can be read. -/
theorem tokenizeIn_eq_ok (two : 2 ≤ room) {segs : List Segment} :
    tokenizeIn room line = .ok segs ↔ tokenize line = .ok segs := by
  refine (limited_tokenizeIn room line).eq_ok_iff fun run => ?_
  obtain ⟨p, read, _⟩ := map_eq_ok.mp run
  exact Pattern.not_tooDeep_of_read two read

end Tokenizing

end TransferFlow
