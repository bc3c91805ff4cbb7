import Mathlib.Data.List.Induction
import TransferFlow.Proofs.Balance

namespace TransferFlow

namespace Token

section Nesting

/-- Every parenthesis is closed by, or closes, another one, with the same holding between the two. -/
inductive Nested : List Token → Prop
  | nil : Nested []
  | sign {t : Token} {ts : List Token} : t ≠ .opening → t ≠ .closing → Nested ts → Nested (t :: ts)
  | group {us vs : List Token} : Nested us → Nested vs → Nested (.opening :: (us ++ .closing :: vs))

/-- Of the parentheses that are open behind a text, the one with `n` others behind it. -/
theorem exists_opening {ts : List Token} {n : Nat} (more : n < unclosed ts) :
    ∃ before body, ts = before ++ .opening :: body ∧ unopened body = 0 ∧ unclosed body = n := by
  induction ts using List.reverseRecOn generalizing n with
  | nil => cases more
  | append_singleton ts t ih =>
    rw [unclosed_append] at more
    have extend {m : Nat} (known : m < unclosed ts) (kept : unopened [t] - m = 0)
        (next : m - unopened [t] + unclosed [t] = n) :
        ∃ before body, ts ++ [t] = before ++ .opening :: body ∧ unopened body = 0 ∧ unclosed body = n := by
      obtain ⟨before, body, rfl, none, count⟩ := ih known
      refine ⟨before, body ++ [t], by simp, ?_, ?_⟩
      · rw [unopened_append, none, count, kept]
      · rw [unclosed_append, count, next]
    cases t with
    | opening =>
      cases n with
      | zero => exact ⟨ts, [], rfl, rfl, rfl⟩
      | succ n => exact extend (m := n) (Nat.lt_of_succ_lt_succ more) (Nat.zero_sub _) rfl
    | closing => exact extend (m := n + 1) (Nat.add_lt_of_lt_sub more) (by show 1 - (n + 1) = 0; omega) rfl
    | arrow | post | ampersand | text => exact extend (m := n) more (Nat.zero_sub _) rfl

/-- Of the parentheses that a text closes without opening them, the one with `n` others before it. -/
theorem exists_closing {ts : List Token} {n : Nat} (more : n < unopened ts) :
    ∃ body after, ts = body ++ .closing :: after ∧ unclosed body = 0 ∧ unopened body = n := by
  induction ts generalizing n with
  | nil => cases more
  | cons t ts ih =>
    rw [unopened_cons] at more
    have extend {m : Nat} (known : m < unopened ts) (kept : countUnclosed 0 t - m = 0)
        (next : t.countUnopened m = n) :
        ∃ body after, t :: ts = body ++ .closing :: after ∧ unclosed body = 0 ∧ unopened body = n := by
      obtain ⟨body, after, rfl, none, count⟩ := ih known
      refine ⟨t :: body, after, rfl, ?_, ?_⟩
      · rw [unclosed_cons, none, count, kept]
      · rw [unopened_cons, count, next]
    cases t with
    | closing =>
      cases n with
      | zero => exact ⟨[], ts, rfl, rfl, rfl⟩
      | succ n => exact extend (m := n) (Nat.lt_of_succ_lt_succ more) (Nat.zero_sub _) rfl
    | opening => exact extend (m := n + 1) (Nat.add_lt_of_lt_sub more) (by show 1 - (n + 1) = 0; omega) rfl
    | arrow | post | ampersand | text => exact extend (m := n) more (Nat.zero_sub _) rfl

theorem unopened_closing (us vs : List Token) :
    unopened (us ++ .closing :: vs) = unopened us + (unopened vs + 1 - unclosed us) := by
  rw [unopened_append, unopened_cons]
  rfl

theorem unclosed_opening (us vs : List Token) :
    unclosed (us ++ .opening :: vs) = (unclosed us + 1 - unopened vs) + unclosed vs := by
  rw [unclosed_append, unclosed_cons, unopened_cons]
  simp only [countUnclosed, countUnopened]
  omega

theorem Nested.counts {ts : List Token} (nested : Nested ts) : unopened ts = 0 ∧ unclosed ts = 0 := by
  induction nested with
  | nil => exact ⟨rfl, rfl⟩
  | sign noOpening noClosing _ ih =>
    obtain ⟨same, same'⟩ := counts_of_ne noOpening noClosing _
    rwa [same, same']
  | @group us vs _ _ inner outer =>
    have opened := unopened_closing us vs
    have closed := unclosed_append us (.closing :: vs)
    rw [unclosed_cons, unopened_cons] at closed
    simp only [countUnopened, countUnclosed] at closed
    rw [unopened_cons, unclosed_cons]
    simp only [countUnopened, countUnclosed]
    omega

/-- The first parenthesis that is open finds its partner, and what stands between and behind is shorter. -/
theorem nested_of_counts : ∀ (ts : List Token), unopened ts = 0 → unclosed ts = 0 → Nested ts
  | [], _, _ => .nil
  | t :: ts, noneBefore, noneBehind => by
    have other (noOpening : t ≠ .opening) (noClosing : t ≠ .closing) : Nested (t :: ts) := by
      obtain ⟨same, same'⟩ := counts_of_ne noOpening noClosing ts
      exact .sign noOpening noClosing (nested_of_counts ts (same ▸ noneBefore) (same' ▸ noneBehind))
    cases t with
    | closing => cases noneBefore
    | opening =>
      rw [unopened_cons] at noneBefore
      rw [unclosed_cons] at noneBehind
      simp only [countUnopened, countUnclosed] at noneBefore noneBehind
      obtain ⟨body, after, rfl, closed, opened⟩ := exists_closing (show 0 < unopened ts by omega)
      rw [unopened_closing, opened, closed] at noneBefore
      rw [unclosed_append, unclosed_cons, unopened_cons, closed] at noneBehind
      simp only [countUnopened, countUnclosed] at noneBehind
      exact .group (nested_of_counts body opened closed) (nested_of_counts after (by omega) (by omega))
    | arrow | post | ampersand | text => exact other (by simp) (by simp)
  termination_by ts => ts.length
  decreasing_by all_goals simp_all <;> omega

theorem nested_iff {ts : List Token} : Nested ts ↔ unopened ts = 0 ∧ unclosed ts = 0 :=
  ⟨Nested.counts, fun counts => nested_of_counts ts counts.1 counts.2⟩

instance (ts : List Token) : Decidable (Nested ts) :=
  decidable_of_iff (isBalanced ts = true) (isBalanced_iff.trans nested_iff.symm)

theorem unopened_pos {ts : List Token} :
    0 < unopened ts ↔ ∃ body after, ts = body ++ .closing :: after ∧ Nested body := by
  constructor
  · intro more
    obtain ⟨body, after, whole, closed, opened⟩ := exists_closing more
    exact ⟨body, after, whole, nested_iff.mpr ⟨opened, closed⟩⟩
  · rintro ⟨body, after, rfl, nested⟩
    rw [unopened_closing, nested.counts.1, nested.counts.2]
    omega

theorem unclosed_pos {ts : List Token} :
    0 < unclosed ts ↔ ∃ before body, ts = before ++ .opening :: body ∧ Nested body := by
  constructor
  · intro more
    obtain ⟨before, body, whole, opened, closed⟩ := exists_opening more
    exact ⟨before, body, whole, nested_iff.mpr ⟨opened, closed⟩⟩
  · rintro ⟨before, body, rfl, nested⟩
    rw [unclosed_opening, nested.counts.1, nested.counts.2]
    omega

/-- Cut in two, a nested text leaves groups open at the cut and no parenthesis unmatched elsewhere. -/
theorem Nested.split {us vs : List Token} (nested : Nested (us ++ vs)) : unopened us = 0 ∧ unclosed vs = 0 := by
  obtain ⟨opened, closed⟩ := nested.counts
  rw [unopened_append] at opened
  rw [unclosed_append] at closed
  omega

theorem Nested.append {us vs : List Token} (first : Nested us) (second : Nested vs) : Nested (us ++ vs) := by
  rw [nested_iff, unopened_append, unclosed_append, first.counts.1, first.counts.2,
    second.counts.1, second.counts.2]
  exact ⟨rfl, rfl⟩

end Nesting

section Partners

variable {ts : List Token} {i j : Nat}

/-- The tokens strictly between two places. -/
def between (ts : List Token) (i j : Nat) : List Token :=
  (ts.take j).drop (i + 1)

/-- An opening parenthesis at `i` and a closing one at `j` belong to each other. -/
def Partners (ts : List Token) (i j : Nat) : Prop :=
  i < j ∧ ts[i]? = some .opening ∧ ts[j]? = some .closing ∧ Nested (between ts i j)

instance (ts : List Token) (i j : Nat) : Decidable (Partners ts i j) :=
  inferInstanceAs (Decidable (i < j ∧ ts[i]? = some .opening ∧ ts[j]? = some .closing ∧ Nested (between ts i j)))

theorem drop_of_getElem? {t : Token} (atPlace : ts[i]? = some t) : ts.drop i = t :: ts.drop (i + 1) := by
  obtain ⟨inside, rfl⟩ := List.getElem?_eq_some_iff.mp atPlace
  exact List.drop_eq_getElem_cons inside

theorem take_eq_between {t : Token} (before : i < j) (atPlace : ts[i]? = some t) :
    ts.take j = ts.take i ++ t :: between ts i j := by
  have short : (ts.take j)[i]? = some t := by rw [List.getElem?_take_of_lt before, atPlace]
  have first : (ts.take j).take i = ts.take i := by rw [List.take_take, Nat.min_eq_left before.le]
  rw [between, ← drop_of_getElem? short, ← first, List.take_append_drop]

theorem drop_eq_between {t : Token} (before : i < j) (atPlace : ts[j]? = some t) :
    ts.drop (i + 1) = between ts i j ++ t :: ts.drop (j + 1) := by
  obtain ⟨inside, _⟩ := List.getElem?_eq_some_iff.mp atPlace
  have whole : ts.drop (i + 1) = (ts.take j ++ ts.drop j).drop (i + 1) := by rw [List.take_append_drop]
  rw [whole, List.drop_append_of_le_length (by rw [List.length_take_of_le inside.le]; omega), between,
    drop_of_getElem? atPlace]

/-- Partners stand around a nested text, wherever it stands in the whole. -/
theorem partners_iff : Partners ts i j ↔ ∃ before body after,
    ts = before ++ .opening :: (body ++ .closing :: after) ∧ Nested body ∧ before.length = i ∧
      i + body.length + 1 = j := by
  constructor
  · rintro ⟨before, opens, closes, nested⟩
    obtain ⟨inside, _⟩ := List.getElem?_eq_some_iff.mp closes
    refine ⟨ts.take i, between ts i j, ts.drop (j + 1), ?_, nested, ?_, ?_⟩
    · rw [← drop_eq_between before closes, ← drop_of_getElem? opens, List.take_append_drop]
    · rw [List.length_take]
      omega
    · rw [between, List.length_drop, List.length_take]
      omega
  · rintro ⟨before, body, after, rfl, nested, rfl, rfl⟩
    refine ⟨by omega, by simp, ?_, ?_⟩
    · rw [List.getElem?_append_right (by omega), Nat.add_assoc, Nat.add_sub_cancel_left, List.getElem?_cons_succ,
        List.getElem?_append_right (Nat.le_refl _), Nat.sub_self]
      rfl
    · have inner : between (before ++ .opening :: (body ++ .closing :: after)) before.length
          (before.length + body.length + 1) = body := by
        rw [between, Nat.add_assoc, List.take_length_add_append, List.take_succ_cons, List.take_left',
          List.drop_length_add_append]
        · rfl
        · rfl
      rwa [inner]

/-- Whether two parentheses are partners shows in any stretch of the text that holds both. -/
theorem partners_inside {xs us ys : List Token} (inside : j < us.length) :
    Partners (xs ++ us ++ ys) (xs.length + i) (xs.length + j) ↔ Partners us i j := by
  have place {n : Nat} (inside : n < us.length) : (xs ++ us ++ ys)[xs.length + n]? = us[n]? := by
    rw [List.append_assoc, List.getElem?_append_right (Nat.le_add_right _ _), Nat.add_sub_cancel_left,
      List.getElem?_append_left inside]
  have same : between (xs ++ us ++ ys) (xs.length + i) (xs.length + j) = between us i j := by
    rw [between, List.append_assoc, List.take_length_add_append,
      List.take_append_of_le_length inside.le, Nat.add_assoc,
      List.drop_length_add_append, between]
  unfold Partners
  rw [same, place inside, Nat.add_lt_add_iff_left]
  refine and_congr_right fun before => ?_
  rw [place (before.trans inside)]

/-- A stretch of the text may be cut at any place. -/
theorem between_append {m : Nat} (first : i ≤ m) (last : m < j) (inside : j ≤ ts.length) :
    between ts i (m + 1) ++ between ts m j = between ts i j := by
  have ahead : ts.take (m + 1) = (ts.take j).take (m + 1) := by rw [List.take_take, Nat.min_eq_left last]
  have length : i + 1 ≤ ((ts.take j).take (m + 1)).length := by
    rw [← ahead, List.length_take]
    omega
  rw [between, between, ahead, ← List.drop_append_of_le_length length, List.take_append_drop, between]

/-- A nested text ends at the first parenthesis that closes none of its own. -/
theorem eq_of_nested_closing {us us' vs vs' : List Token} (nested : Nested us) (nested' : Nested us')
    (same : us ++ .closing :: vs = us' ++ .closing :: vs') : us = us' := by
  have ends {body rest : List Token} (nested : Nested body) (longer : Nested (body ++ .closing :: rest)) : False :=
    (unopened_pos.mpr ⟨body, rest, rfl, nested⟩).ne' longer.counts.1
  rcases List.append_eq_append_iff.mp same with ⟨rest, rfl, behind⟩ | ⟨rest, rfl, behind⟩
  · cases rest with
    | nil => exact (List.append_nil us).symm
    | cons t rest =>
      cases behind
      exact (ends nested nested').elim
  · cases rest with
    | nil => exact List.append_nil us'
    | cons t rest =>
      cases behind
      exact (ends nested' nested).elim

/-- A nested text begins at the last parenthesis before it that it does not close. -/
theorem eq_of_opening_nested {us us' vs vs' : List Token} (nested : Nested vs) (nested' : Nested vs')
    (same : us ++ .opening :: vs = us' ++ .opening :: vs') : us = us' := by
  have begins {before body : List Token} (nested : Nested body) (longer : Nested (before ++ .opening :: body)) :
      False := (unclosed_pos.mpr ⟨before, body, rfl, nested⟩).ne' longer.counts.2
  rcases List.append_eq_append_iff.mp same with ⟨rest, rfl, behind⟩ | ⟨rest, rfl, behind⟩
  · cases rest with
    | nil => exact (List.append_nil us).symm
    | cons t rest =>
      cases behind
      exact (begins nested' nested).elim
  · cases rest with
    | nil => exact List.append_nil us'
    | cons t rest =>
      cases behind
      exact (begins nested nested').elim

theorem Partners.lt_length (partners : Partners ts i j) : j < ts.length :=
  (List.getElem?_eq_some_iff.mp partners.2.2.1).1

theorem length_between (inside : j ≤ ts.length) : (between ts i j).length = j - (i + 1) := by
  rw [between, List.length_drop, List.length_take_of_le inside]

theorem Partners.right_unique {k : Nat} (first : Partners ts i j) (second : Partners ts i k) : j = k := by
  have bound := first.lt_length
  have bound' := second.lt_length
  obtain ⟨before, _, closes, nested⟩ := first
  obtain ⟨before', _, closes', nested'⟩ := second
  have same := (drop_eq_between before closes).symm.trans (drop_eq_between before' closes')
  have length := congrArg List.length (eq_of_nested_closing nested nested' same)
  rw [length_between bound.le, length_between bound'.le] at length
  omega

theorem Partners.left_unique {k : Nat} (first : Partners ts i k) (second : Partners ts j k) : i = j := by
  have bound := first.lt_length
  obtain ⟨before, opens, _, nested⟩ := first
  obtain ⟨before', opens', _, nested'⟩ := second
  have same := (take_eq_between before opens).symm.trans (take_eq_between before' opens')
  have length := congrArg List.length (eq_of_opening_nested nested nested' same)
  rw [List.length_take, List.length_take] at length
  omega

end Partners

section Matching

variable {ts : List Token} {n : Nat}

/-- A parenthesis that opens has a partner when one behind it is left to close. -/
theorem exists_right_partner :
    (∃ j, Partners ts n j) ↔ ts[n]? = some .opening ∧ 0 < unopened (ts.drop (n + 1)) := by
  constructor
  · rintro ⟨j, before, opens, closes, nested⟩
    refine ⟨opens, ?_⟩
    rw [drop_eq_between before closes]
    exact unopened_pos.mpr ⟨_, _, rfl, nested⟩
  · rintro ⟨opens, more⟩
    obtain ⟨body, after, behind, nested⟩ := unopened_pos.mp more
    have inside := (List.getElem?_eq_some_iff.mp opens).1
    refine ⟨n + body.length + 1, partners_iff.mpr ⟨ts.take n, body, after, ?_, nested, ?_, rfl⟩⟩
    · rw [← behind, ← drop_of_getElem? opens, List.take_append_drop]
    · rw [List.length_take_of_le inside.le]

/-- A parenthesis that closes has a partner when one before it is still open. -/
theorem exists_left_partner :
    (∃ i, Partners ts i n) ↔ ts[n]? = some .closing ∧ 0 < unclosed (ts.take n) := by
  constructor
  · rintro ⟨i, before, opens, closes, nested⟩
    refine ⟨closes, ?_⟩
    rw [take_eq_between before opens]
    exact unclosed_pos.mpr ⟨_, _, rfl, nested⟩
  · rintro ⟨closes, more⟩
    obtain ⟨before, body, ahead, nested⟩ := unclosed_pos.mp more
    have inside := (List.getElem?_eq_some_iff.mp closes).1
    refine ⟨before.length, partners_iff.mpr ⟨before, body, ts.drop (n + 1), ?_, nested, rfl, ?_⟩⟩
    · rw [← drop_of_getElem? closes, ← List.cons_append, ← List.append_assoc, ← ahead, List.take_append_drop]
    · have length := congrArg List.length ahead
      rw [List.length_take_of_le inside.le, List.length_append, List.length_cons] at length
      omega

/-- How many paired groups are open before the place `n`, as a run from the left counts them. -/
def depthAt (ts : List Token) (n : Nat) : Nat :=
  ((PlacedToken.all ts).take n).foldl PlacedToken.depthBehind 0

/-- The groups that are open at a place are those that are opened before it and closed from there on. -/
theorem depthBehind_min (t : Token) (before after : List Token) :
    PlacedToken.depthBehind (min (unclosed before) (unopened (t :: after))) ⟨t, unopened after⟩ =
      min (unclosed (before ++ [t])) (unopened after) := by
  rw [unopened_cons, unclosed_append]
  cases t with
  | arrow | post | ampersand | text => rfl
  | opening =>
    show (if decide (0 < unopened after) = true then min (unclosed before) (unopened after - 1) + 1
      else min (unclosed before) (unopened after - 1)) = min (unclosed before + 1) (unopened after)
    split
    · rename_i partner
      have := of_decide_eq_true partner
      omega
    · rename_i none
      have := mt decide_eq_true none
      omega
  | closing =>
    show (if decide (0 < min (unclosed before) (unopened after + 1)) = true then
      min (unclosed before) (unopened after + 1) - 1 else min (unclosed before) (unopened after + 1)) =
        min (unclosed before - 1) (unopened after)
    split
    · omega
    · rename_i none
      have := mt decide_eq_true none
      omega

/-- By induction on the tokens, with `before` those that were read. -/
theorem foldl_depthBehind (before ts : List Token) (n : Nat) :
    ((PlacedToken.all ts).take n).foldl PlacedToken.depthBehind (min (unclosed before) (unopened ts)) =
      min (unclosed (before ++ ts.take n)) (unopened (ts.drop n)) := by
  induction ts generalizing before n with
  | nil => simp
  | cons t ts ih =>
    cases n with
    | zero => simp
    | succ n =>
      have next : before ++ (t :: ts).take (n + 1) = before ++ [t] ++ ts.take n := by simp
      rw [PlacedToken.all_cons, List.take_succ_cons, List.foldl_cons, depthBehind_min, ih,
        next, List.drop_succ_cons]

theorem depthAt_eq (ts : List Token) (n : Nat) :
    depthAt ts n = min (unclosed (ts.take n)) (unopened (ts.drop n)) := by
  have noneBefore : min (unclosed []) (unopened ts) = 0 := Nat.zero_min _
  have run := foldl_depthBehind [] ts n
  rwa [noneBefore, List.nil_append] at run

/-- A group is open at a place when a pair of parentheses spans it. -/
theorem depthAt_pos : 0 < depthAt ts n ↔ ∃ i j, Partners ts i j ∧ i < n ∧ n ≤ j := by
  rw [depthAt_eq]
  constructor
  · intro more
    obtain ⟨before, body, ahead, nested⟩ := unclosed_pos.mp (lt_of_lt_of_le more (Nat.min_le_left _ _))
    obtain ⟨body', after, behind, nested'⟩ := unopened_pos.mp (lt_of_lt_of_le more (Nat.min_le_right _ _))
    have length := congrArg List.length ahead
    rw [List.length_take, List.length_append, List.length_cons] at length
    have length' := congrArg List.length behind
    rw [List.length_drop, List.length_append, List.length_cons] at length'
    refine ⟨before.length, before.length + (body ++ body').length + 1,
      partners_iff.mpr ⟨before, body ++ body', after, ?_, nested.append nested', rfl, rfl⟩, ?_, ?_⟩
    · have whole := List.take_append_drop n ts
      rw [ahead, behind] at whole
      rw [← whole]
      simp
    · omega
    · rw [List.length_append]
      omega
  · rintro ⟨i, j, partners, first, last⟩
    obtain ⟨m, rfl⟩ := Nat.exists_eq_add_of_lt (Nat.zero_lt_of_lt first)
    rw [Nat.zero_add] at first last ⊢
    have halves := between_append (Nat.lt_succ_iff.mp first) last partners.lt_length.le
    obtain ⟨_, opens, closes, nested⟩ := partners
    rw [← halves] at nested
    obtain ⟨noneBefore, noneBehind⟩ := nested.split
    rw [take_eq_between first opens, drop_eq_between last closes, unclosed_opening, unopened_closing, noneBefore,
      noneBehind]
    omega

theorem getElem?_all (ts : List Token) (n : Nat) :
    (PlacedToken.all ts)[n]? = ts[n]?.map fun t => ⟨t, unopened (ts.drop (n + 1))⟩ := by
  induction ts generalizing n with
  | nil => rfl
  | cons t ts ih =>
    cases n with
    | zero => simp
    | succ n => simpa using ih n

theorem getElem?_pairing (depth : Nat) (ps : List PlacedToken) (n : Nat) :
    (PlacedToken.pairing depth ps)[n]? =
      ps[n]?.map (PlacedToken.isPaired ((ps.take n).foldl PlacedToken.depthBehind depth)) := by
  induction ps generalizing depth n with
  | nil => rfl
  | cons p ps ih =>
    cases n with
    | zero => rfl
    | succ n => simpa [PlacedToken.pairing] using ih (p.depthBehind depth) n

/-- A position is paired when the run finds the token there paired. -/
theorem mem_pairedPositions_iff : n ∈ pairedPositions ts ↔
    ∃ t, ts[n]? = some t ∧ PlacedToken.isPaired (depthAt ts n) ⟨t, unopened (ts.drop (n + 1))⟩ = true := by
  have marked : n ∈ pairedPositions ts ↔ (PlacedToken.pairing 0 (PlacedToken.all ts))[n]? = some true := by
    simp [pairedPositions, List.mem_zipIdx_iff_getElem?]
  rw [marked, getElem?_pairing, getElem?_all, Option.map_map, Option.map_eq_some_iff]
  rfl

/-- The positions taken for paired are those of parentheses with a partner. -/
theorem mem_pairedPositions : n ∈ pairedPositions ts ↔ (∃ j, Partners ts n j) ∨ ∃ i, Partners ts i n := by
  rw [mem_pairedPositions_iff, exists_right_partner, exists_left_partner]
  constructor
  · rintro ⟨t, atPlace, paired⟩
    cases t with
    | opening => exact Or.inl ⟨atPlace, of_decide_eq_true paired⟩
    | closing =>
      have more : 0 < depthAt ts n := of_decide_eq_true paired
      rw [depthAt_eq] at more
      exact Or.inr ⟨atPlace, lt_of_lt_of_le more (Nat.min_le_left _ _)⟩
    | arrow | post | ampersand | text => cases paired
  · rintro (⟨opens, more⟩ | ⟨closes, more⟩)
    · exact ⟨.opening, opens, decide_eq_true more⟩
    · refine ⟨.closing, closes, decide_eq_true ?_⟩
      rw [depthAt_eq, drop_of_getElem? closes, unopened_cons]
      exact Nat.lt_min.mpr ⟨more, Nat.succ_pos _⟩

/-- Behind an opening parenthesis without a partner every closing one has its partner. -/
theorem paired_or_paired {i j : Nat} (before : i < j) (opens : ts[i]? = some .opening)
    (closes : ts[j]? = some .closing) : i ∈ pairedPositions ts ∨ j ∈ pairedPositions ts := by
  rw [mem_pairedPositions, mem_pairedPositions]
  by_cases more : 0 < unclosed (between ts i j)
  · refine Or.inr (Or.inr (exists_left_partner.mpr ⟨closes, ?_⟩))
    rw [take_eq_between before opens, unclosed_opening]
    omega
  · refine Or.inl (Or.inl (exists_right_partner.mpr ⟨opens, ?_⟩))
    rw [drop_eq_between before closes, unopened_closing]
    omega

theorem depthAt_succ {t : Token} (atPlace : ts[n]? = some t) :
    depthAt ts (n + 1) = PlacedToken.depthBehind (depthAt ts n) ⟨t, unopened (ts.drop (n + 1))⟩ := by
  rw [depthAt, List.take_add_one, getElem?_all, atPlace, List.foldl_append]
  rfl

theorem depthAt_length : depthAt ts ts.length = 0 := by
  rw [depthAt_eq, List.drop_length]
  exact Nat.min_zero _

/-- The paired parentheses before a place: the opening ones less the closing ones. -/
def balanceAt (ts : List Token) (n : Nat) : Int :=
  (List.range n).foldl (fun depth i =>
    if i ∈ pairedPositions ts then if ts[i]? = some .opening then depth + 1 else depth - 1 else depth) 0

/-- The run never takes away from a depth of nothing. -/
theorem depthAt_eq_balanceAt (ts : List Token) (n : Nat) : (depthAt ts n : Int) = balanceAt ts n := by
  induction n with
  | zero => rfl
  | succ n ih =>
    rw [balanceAt, List.range_succ, List.foldl_append, ← balanceAt, ← ih, List.foldl_cons, List.foldl_nil]
    cases atPlace : ts[n]? with
    | none =>
      have outside : n ∉ pairedPositions ts := by
        rw [mem_pairedPositions_iff, atPlace]
        simp
      have full := List.getElem?_eq_none_iff.mp atPlace
      rw [if_neg outside, depthAt_eq, depthAt_eq, List.take_of_length_le full, List.take_of_length_le (by omega),
        List.drop_eq_nil_of_le full, List.drop_eq_nil_of_le (by omega)]
    | some t =>
      have paired : n ∈ pairedPositions ts ↔
          PlacedToken.isPaired (depthAt ts n) ⟨t, unopened (ts.drop (n + 1))⟩ = true := by
        rw [mem_pairedPositions_iff, atPlace]
        simp
      rw [depthAt_succ atPlace, PlacedToken.depthBehind]
      by_cases isPaired : n ∈ pairedPositions ts
      · rw [if_pos isPaired, if_pos (paired.mp isPaired)]
        cases t with
        | opening => rfl
        | closing =>
          have more : 0 < depthAt ts n := of_decide_eq_true (paired.mp isPaired)
          show ((depthAt ts n - 1 : Nat) : Int) = depthAt ts n - 1
          omega
        | arrow | post | ampersand | text => cases paired.mp isPaired
      · rw [if_neg isPaired, if_neg fun holds => isPaired (paired.mpr holds)]

end Matching

end Token

end TransferFlow
