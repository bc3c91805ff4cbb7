import TransferFlow.Proofs.Pairing

namespace TransferFlow

namespace Token

section Stack

variable {ts : List Token} {n : Nat}

/-- The opening parentheses that wait for their partners, the last one first, and the positions that were paired. -/
structure PairRun where
  waiting : List Nat
  paired : List Nat
  deriving DecidableEq, Repr

/-- A closing parenthesis is paired with the opening one that waits last. -/
def PairRun.read (run : PairRun) (place : Token × Nat) : PairRun :=
  match place.1, run.waiting with
  | .opening, _ => { run with waiting := place.2 :: run.waiting }
  | .closing, i :: waiting => { waiting := waiting, paired := i :: place.2 :: run.paired }
  | _, _ => run

/-- The run over the first `n` tokens. -/
def pairRun (ts : List Token) (n : Nat) : PairRun :=
  (ts.zipIdx.take n).foldl PairRun.read { waiting := [], paired := [] }

/-- What the run knows of the parentheses before the place `n`: those that opened and found no partner wait, and
partners were paired when the closing one was read. -/
structure PairRun.Knows (run : PairRun) (ts : List Token) (n : Nat) : Prop where
  ordered : run.waiting.Pairwise (· > ·)
  waiting : ∀ i, i ∈ run.waiting ↔ i < n ∧ ts[i]? = some .opening ∧ ∀ j < n, ¬ Partners ts i j
  paired : ∀ k, k ∈ run.paired ↔ ∃ i j, Partners ts i j ∧ j < n ∧ (k = i ∨ k = j)

/-- An opening parenthesis has its partner before the place `n` when one before it is left to close. -/
theorem exists_partner_before {i : Nat} (opens : ts[i]? = some .opening) (before : i < n) :
    (∃ j < n, Partners ts i j) ↔ 0 < unopened (between ts i n) := by
  have inFront {j : Nat} (inside : j < (ts.take n).length) : Partners ts i j ↔ Partners (ts.take n) i j := by
    have narrow := @partners_inside i j [] (ts.take n) (ts.drop n) inside
    rwa [List.nil_append, List.take_append_drop, List.length_nil, Nat.zero_add, Nat.zero_add] at narrow
  have short : (ts.take n)[i]? = some .opening := by rw [List.getElem?_take_of_lt before, opens]
  have right := @exists_right_partner (ts.take n) i
  rw [short, eq_self_iff_true, true_and, ← between] at right
  rw [← right]
  constructor
  · rintro ⟨j, bound, partners⟩
    refine ⟨j, (inFront ?_).mp partners⟩
    rw [List.length_take]
    exact Nat.lt_min.mpr ⟨bound, partners.lt_length⟩
  · rintro ⟨j, partners⟩
    have inside := partners.lt_length
    refine ⟨j, ?_, (inFront inside).mpr partners⟩
    rw [List.length_take] at inside
    exact (Nat.lt_min.mp inside).1

/-- The opening parenthesis that waits last is the partner of a closing one that is read now. -/
theorem PairRun.Knows.partners {run : PairRun} (knows : run.Knows ts n) {i : Nat} {rest : List Nat}
    (first : run.waiting = i :: rest) (closes : ts[n]? = some .closing) : Partners ts i n := by
  obtain ⟨before, opens, alone⟩ := (knows.waiting i).mp (by rw [first]; exact List.mem_cons_self)
  have opened : unopened (between ts i n) = 0 := by
    by_contra nonzero
    obtain ⟨j, bound, partners⟩ := (exists_partner_before opens before).mpr (Nat.pos_of_ne_zero nonzero)
    exact alone j bound partners
  have more : 0 < unclosed (ts.take n) := by
    rw [take_eq_between before opens, unclosed_opening, opened]
    omega
  obtain ⟨k, partners⟩ := exists_left_partner.mpr ⟨closes, more⟩
  have notBehind : k ≤ i := by
    have waits : k ∈ run.waiting :=
      (knows.waiting k).mpr ⟨partners.1, partners.2.1, fun j bound other => bound.ne (other.right_unique partners)⟩
    have ordered := knows.ordered
    rw [first] at waits ordered
    rcases List.mem_cons.mp waits with same | further
    · exact same.le
    · exact ((List.pairwise_cons.mp ordered).1 k further).le
  have nested := partners.2.2.2
  rw [← between_append notBehind before partners.lt_length.le] at nested
  exact ⟨before, opens, closes, nested_iff.mpr ⟨opened, nested.split.2⟩⟩

/-- A place without a partner in front of it adds no pair. -/
theorem paired_before_succ (none : ∀ i, ¬ Partners ts i n) {k : Nat} :
    (∃ i j, Partners ts i j ∧ j < n + 1 ∧ (k = i ∨ k = j)) ↔ ∃ i j, Partners ts i j ∧ j < n ∧ (k = i ∨ k = j) := by
  constructor
  · rintro ⟨i, j, partners, before, same⟩
    have other : j ≠ n := by
      rintro rfl
      exact none i partners
    exact ⟨i, j, partners, by omega, same⟩
  · rintro ⟨i, j, partners, before, same⟩
    exact ⟨i, j, partners, by omega, same⟩

theorem PairRun.Knows.skip {run : PairRun} (knows : run.Knows ts n) (noOpening : ts[n]? ≠ some .opening)
    (none : ∀ i, ¬ Partners ts i n) : run.Knows ts (n + 1) where
  ordered := knows.ordered
  waiting := by
    intro i
    rw [knows.waiting, Nat.forall_lt_succ_right]
    constructor
    · rintro ⟨before, opens, alone⟩
      exact ⟨by omega, opens, alone, none i⟩
    · rintro ⟨before, opens, alone, _⟩
      have other : i ≠ n := by
        rintro rfl
        exact noOpening opens
      exact ⟨by omega, opens, alone⟩
  paired k := (knows.paired k).trans (paired_before_succ none).symm

theorem PairRun.Knows.push {run : PairRun} (knows : run.Knows ts n) (opens : ts[n]? = some .opening) :
    PairRun.Knows { run with waiting := n :: run.waiting } ts (n + 1) := by
  have none (i : Nat) : ¬ Partners ts i n := fun partners => by
    cases opens.symm.trans partners.2.2.1
  refine ⟨List.pairwise_cons.mpr ⟨fun i waits => ((knows.waiting i).mp waits).1, knows.ordered⟩, ?_,
    fun k => (knows.paired k).trans (paired_before_succ none).symm⟩
  intro i
  rw [List.mem_cons, knows.waiting, Nat.forall_lt_succ_right]
  constructor
  · rintro (rfl | ⟨before, opens', alone⟩)
    · exact ⟨Nat.lt_succ_self i, opens, fun j before partners => Nat.lt_asymm before partners.1, none i⟩
    · exact ⟨by omega, opens', alone, none i⟩
  · rintro ⟨before, opens', alone, _⟩
    rcases Nat.lt_succ_iff_lt_or_eq.mp before with before | rfl
    · exact Or.inr ⟨before, opens', alone⟩
    · exact Or.inl rfl

theorem PairRun.Knows.pop {run : PairRun} (knows : run.Knows ts n) {i : Nat} {rest : List Nat}
    (first : run.waiting = i :: rest) (closes : ts[n]? = some .closing) :
    PairRun.Knows { waiting := rest, paired := i :: n :: run.paired } ts (n + 1) := by
  have partners := knows.partners first closes
  have ordered := knows.ordered
  rw [first] at ordered
  obtain ⟨last, ordered⟩ := List.pairwise_cons.mp ordered
  refine ⟨ordered, fun k => ?_, fun k => ?_⟩
  · have waits := knows.waiting k
    rw [first, List.mem_cons] at waits
    rw [Nat.forall_lt_succ_right]
    constructor
    · intro member
      obtain ⟨before, opens, alone⟩ := waits.mp (Or.inr member)
      exact ⟨by omega, opens, alone, fun other => (last k member).ne (other.left_unique partners)⟩
    · rintro ⟨before, opens, alone, notHere⟩
      have other : k ≠ n := by
        rintro rfl
        cases opens.symm.trans closes
      refine (waits.mpr ⟨by omega, opens, alone⟩).resolve_left ?_
      rintro rfl
      exact notHere partners
  · rw [List.mem_cons, List.mem_cons, knows.paired]
    constructor
    · rintro (rfl | rfl | ⟨i', j, partners', before, same⟩)
      · exact ⟨k, n, partners, Nat.lt_succ_self n, Or.inl rfl⟩
      · exact ⟨i, k, partners, Nat.lt_succ_self k, Or.inr rfl⟩
      · exact ⟨i', j, partners', by omega, same⟩
    · rintro ⟨i', j, partners', before, same⟩
      rcases Nat.lt_succ_iff_lt_or_eq.mp before with before | rfl
      · exact Or.inr (Or.inr ⟨i', j, partners', before, same⟩)
      · obtain rfl := partners'.left_unique partners
        rcases same with rfl | rfl
        · exact Or.inl rfl
        · exact Or.inr (Or.inl rfl)

theorem PairRun.Knows.read {run : PairRun} (knows : run.Knows ts n) {t : Token} (atPlace : ts[n]? = some t) :
    (run.read (t, n)).Knows ts (n + 1) := by
  have noPartner (noClosing : t ≠ .closing) (i : Nat) : ¬ Partners ts i n := fun partners =>
    noClosing (Option.some.inj (atPlace.symm.trans partners.2.2.1))
  cases t with
  | opening => exact knows.push atPlace
  | closing =>
    cases first : run.waiting with
    | nil =>
      have same : run.read (.closing, n) = run := by rw [PairRun.read, first]
      rw [same]
      refine knows.skip (by rw [atPlace]; simp) fun i partners => ?_
      have waits := (knows.waiting i).mpr
        ⟨partners.1, partners.2.1, fun j before other => before.ne (other.right_unique partners)⟩
      rw [first] at waits
      cases waits
    | cons i rest =>
      have next : run.read (.closing, n) = { waiting := rest, paired := i :: n :: run.paired } := by
        rw [PairRun.read, first]
      rw [next]
      exact knows.pop first atPlace
  | arrow | post | ampersand | text => exact knows.skip (by rw [atPlace]; simp) (noPartner (by simp))

/-- By induction on the number of tokens that were read. -/
theorem knows_pairRun (within : n ≤ ts.length) : (pairRun ts n).Knows ts n := by
  induction n with
  | zero => exact ⟨.nil, by simp [pairRun], by simp [pairRun]⟩
  | succ n ih =>
    have inside : n < ts.length := within
    have next : pairRun ts (n + 1) = (pairRun ts n).read (ts[n], n) := by
      rw [pairRun, List.take_add_one, List.foldl_append, ← pairRun]
      simp [inside]
    rw [next]
    exact (ih inside.le).read (List.getElem?_eq_getElem inside)

/-- A stack pairs the parentheses that the counts pair. -/
theorem mem_pairRun {k : Nat} : k ∈ (pairRun ts ts.length).paired ↔ k ∈ pairedPositions ts := by
  rw [(knows_pairRun le_rfl).paired, mem_pairedPositions]
  constructor
  · rintro ⟨i, j, partners, _, rfl | rfl⟩
    · exact Or.inl ⟨j, partners⟩
    · exact Or.inr ⟨i, partners⟩
  · rintro (⟨j, partners⟩ | ⟨i, partners⟩)
    · exact ⟨k, j, partners, partners.lt_length, Or.inl rfl⟩
    · exact ⟨i, k, partners, partners.lt_length, Or.inr rfl⟩

end Stack

section Enclosed

variable {ts : List Token}

/-- The first token opens a pair and the last one closes one, and no paired parenthesis before the last
one brings the count of open groups to nothing. -/
structure Enclosed (ts : List Token) : Prop where
  length : 2 ≤ ts.length
  opens : ts[0]? = some .opening
  closes : ts[ts.length - 1]? = some .closing
  stays : ∀ n ∈ pairedPositions ts, n ≠ ts.length - 1 → balanceAt ts (n + 1) ≠ 0
  shuts : balanceAt ts ts.length = 0
  paired : 0 ∈ pairedPositions ts

theorem Partners.enclosed (partners : Partners ts 0 (ts.length - 1)) : Enclosed ts where
  length := Nat.add_le_of_le_sub (Nat.zero_lt_of_lt partners.lt_length) partners.1
  opens := partners.2.1
  closes := partners.2.2.1
  stays := by
    intro n paired notLast
    have inside : n < ts.length := by
      obtain ⟨t, atPlace, _⟩ := mem_pairedPositions_iff.mp paired
      exact (List.getElem?_eq_some_iff.mp atPlace).1
    have more : 0 < depthAt ts (n + 1) := depthAt_pos.mpr ⟨0, _, partners, Nat.succ_pos n, by omega⟩
    rw [← depthAt_eq_balanceAt]
    omega
  shuts := by
    rw [← depthAt_eq_balanceAt, depthAt_length]
    rfl
  paired := mem_pairedPositions.mpr (Or.inl ⟨_, partners⟩)

/-- Nothing is open behind the pair with which a text begins. -/
theorem Partners.depthAt_behind {j : Nat} (partners : Partners ts 0 j) : depthAt ts (j + 1) = 0 := by
  obtain ⟨before, opens, closes, nested⟩ := partners
  have group : ts.take (j + 1) = .opening :: (between ts 0 j ++ [.closing]) := by
    rw [List.take_add_one, closes, take_eq_between before opens]
    rfl
  have closed := (Nested.group nested .nil).counts.2
  rw [depthAt_eq, group, closed, Nat.zero_min]

/-- Counting the open groups tells whether the first token and the last one are partners. -/
theorem enclosed_iff : Enclosed ts ↔ Partners ts 0 (ts.length - 1) := by
  refine ⟨fun whole => ?_, Partners.enclosed⟩
  rcases mem_pairedPositions.mp whole.paired with ⟨j, partners⟩ | ⟨i, partners⟩
  · obtain rfl : j = ts.length - 1 := by
      by_contra notLast
      refine whole.stays j (mem_pairedPositions.mpr (Or.inr ⟨0, partners⟩)) notLast ?_
      rw [← depthAt_eq_balanceAt, partners.depthAt_behind]
      rfl
    exact partners
  · exact absurd partners.1 (Nat.not_lt_zero i)

end Enclosed

end Token

section Groups

open Token

/-- In a balanced text every parenthesis has its partner. -/
theorem Token.paired_of_balanced {ts : List Token} (balanced : isBalanced ts = true) {n : Nat} {t : Token}
    (atPlace : ts[n]? = some t) (paren : t = .opening ∨ t = .closing) : n ∈ pairedPositions ts := by
  obtain ⟨opened, closed⟩ := isBalanced_iff.mp balanced
  have whole : ts = ts.take n ++ t :: ts.drop (n + 1) := by rw [← drop_of_getElem? atPlace, List.take_append_drop]
  rw [mem_pairedPositions]
  rcases paren with rfl | rfl
  · refine Or.inl (exists_right_partner.mpr ⟨atPlace, ?_⟩)
    rw [whole, unclosed_opening] at closed
    omega
  · refine Or.inr (exists_left_partner.mpr ⟨atPlace, ?_⟩)
    rw [whole, unopened_closing] at opened
    omega

/-- A text is a group when its first parenthesis and its last one are partners. -/
theorem partners_ends {cs : List Char} : Partners (lex cs) 0 ((lex cs).length - 1) ↔
    ∃ body, cs = '(' :: (body ++ [')']) ∧ Text.Balanced body := by
  constructor
  · intro partners
    obtain ⟨before, body, after, whole, nested, first, last⟩ := partners_iff.mp partners
    have length := congrArg List.length whole
    simp only [List.length_append, List.length_cons] at length
    obtain rfl := List.eq_nil_of_length_eq_zero first
    obtain rfl : after = [] := List.eq_nil_of_length_eq_zero (by omega)
    have lexed : Lexed body := (lexed_lex cs).of_isInfix ⟨[.opening], [.closing], by rw [whole]; rfl⟩
    refine ⟨charsOf body, ?_, (Text.balanced_charsOf lexed).mpr nested.counts⟩
    rw [← charsOf_lex cs, whole, List.nil_append, charsOf_cons, charsOf_append]
    rfl
  · rintro ⟨body, rfl, balanced⟩
    rw [lex_group]
    refine partners_iff.mpr ⟨[], lex body, [], rfl, nested_iff.mpr (isBalanced_iff.mp balanced), rfl, ?_⟩
    simp

theorem charsOf_between_group (body : List Char) : charsOf (between (lex ('(' :: (body ++ [')']))) 0
    ((lex ('(' :: (body ++ [')']))).length - 1)) = body := by
  rw [lex_group, ← List.cons_append, List.length_append, List.length_singleton, Nat.add_sub_cancel, between,
    List.take_left', List.drop_succ_cons, List.drop_zero, charsOf_lex]
  rfl

/-- The inside of a group is what its two partners hold between them, trimmed and not blank. -/
theorem groupInside?_iff_partners {cs inside : List Char} :
    groupInside? cs = some inside ↔
      Partners (lex cs) 0 ((lex cs).length - 1) ∧
        Text.isBlankText (charsOf (between (lex cs) 0 ((lex cs).length - 1))) = false ∧
        inside = Text.trim (charsOf (between (lex cs) 0 ((lex cs).length - 1))) := by
  rw [groupInside?_eq_some, partners_ends]
  constructor
  · rintro ⟨body, rfl, balanced, solid, rfl⟩
    rw [charsOf_between_group]
    exact ⟨⟨body, rfl, balanced⟩, solid, rfl⟩
  · rintro ⟨⟨body, rfl, balanced⟩, solid, rfl⟩
    rw [charsOf_between_group] at solid ⊢
    exact ⟨body, rfl, balanced, solid, rfl⟩

end Groups

/-- The paired positions of a text are those of the parentheses with a partner, which is one alone, and
no unpaired closing parenthesis stands behind an unpaired opening one; a run with a stack pairs the same
positions. A text is a group when its first token and its last one are partners, as counting the open
groups tells too, and something stands between them; all parentheses of what stands there are paired
with each other. -/
theorem partners_of_tokens (ts : List Token) (cs : List Char) :
    (∀ n, n ∈ Token.pairedPositions ts ↔ (∃ j, Token.Partners ts n j) ∨ ∃ i, Token.Partners ts i n) ∧
      (∀ i j k, Token.Partners ts i j → Token.Partners ts i k → j = k) ∧
      (∀ i j k, Token.Partners ts i k → Token.Partners ts j k → i = j) ∧
      (∀ i j, ts[i]? = some .opening → i ∉ Token.pairedPositions ts →
        ts[j]? = some .closing → j ∉ Token.pairedPositions ts → j < i) ∧
      (∀ n, n ∈ (Token.pairRun ts ts.length).paired ↔ n ∈ Token.pairedPositions ts) ∧
      let tokens := Token.lex cs
      let last := tokens.length - 1
      let body := Token.charsOf (Token.between tokens 0 last)
      (Token.Enclosed tokens ↔ Token.Partners tokens 0 last) ∧
      (∀ inside, groupInside? cs = some inside ↔
        Token.Partners tokens 0 last ∧ Text.isBlankText body = false ∧ inside = Text.trim body) ∧
      ∀ inside, groupInside? cs = some inside → ∀ (n : Nat) (t : Token), (Token.lex inside)[n]? = some t →
        t = .opening ∨ t = .closing → n ∈ Token.pairedPositions (Token.lex inside) := by
  refine ⟨fun n => Token.mem_pairedPositions, fun i j k => Token.Partners.right_unique,
    fun i j k => Token.Partners.left_unique, ?_, fun n => Token.mem_pairRun, Token.enclosed_iff,
    fun inside => groupInside?_iff_partners, ?_⟩
  · intro i j opens unpaired closes unpaired'
    by_contra behind
    have other : i ≠ j := by
      rintro rfl
      rw [opens] at closes
      cases closes
    rcases Token.paired_or_paired (show i < j by omega) opens closes with paired | paired
    · exact unpaired paired
    · exact unpaired' paired
  · intro inside found n t atPlace paren
    exact Token.paired_of_balanced (balanced_groupInside? found) atPlace paren

/-- A pair behind two strays, and a group that begins with another one. -/
theorem partners_of_tokens_strays :
    let ts := Token.lex ")((a)".toList
    (Token.Partners ts 2 4 ∧ 2 ∈ Token.pairedPositions ts) ∧
      (1 ∉ Token.pairedPositions ts ∧ 0 ∉ Token.pairedPositions ts ∧ 0 < 1) ∧
      groupInside? "((a) & b )".toList = some "(a) & b".toList ∧
      0 ∈ Token.pairedPositions (Token.lex "(a) & b".toList) := by
  intro ts
  obtain ⟨paired, _, _, strays, _, _, group, inside⟩ := partners_of_tokens ts "((a) & b )".toList
  have partners : Token.Partners ts 2 4 := by decide
  have unpaired : 1 ∉ Token.pairedPositions ts := by decide
  have unpaired' : 0 ∉ Token.pairedPositions ts := by decide
  have found := (group "(a) & b".toList).mpr (by decide)
  exact ⟨⟨partners, (paired 2).mpr (Or.inl ⟨4, partners⟩)⟩,
    ⟨unpaired, unpaired', strays 1 0 (by decide) unpaired (by decide) unpaired'⟩, found,
    inside _ found 0 .opening (by decide) (Or.inl rfl)⟩

end TransferFlow
