import TransferFlow.Proofs.Pairing

namespace TransferFlow

namespace Token

/-- The token at `n` is no parenthesis of a pair and stands between none. -/
def Outside (ts : List Token) (n : Nat) : Prop :=
  ∀ i ≤ n, ∀ j < ts.length, n ≤ j → ¬ Partners ts i j

instance (ts : List Token) (n : Nat) : Decidable (Outside ts n) :=
  inferInstanceAs (Decidable (∀ i ≤ n, ∀ j < ts.length, n ≤ j → ¬ Partners ts i j))

theorem depthAt_eq_zero {ts : List Token} {n : Nat} :
    depthAt ts n = 0 ↔ ∀ i j, Partners ts i j → i < n → ¬ n ≤ j := by
  rw [← Nat.le_zero, ← Nat.not_lt, depthAt_pos]
  constructor
  · exact fun none i j partners first last => none ⟨i, j, partners, first, last⟩
  · rintro none ⟨i, j, partners, first, last⟩
    exact none i j partners first last

/-- A token is outside all pairs when no group is open in front of it and none behind it. -/
theorem outside_iff {ts : List Token} {n : Nat} : Outside ts n ↔ depthAt ts n = 0 ∧ depthAt ts (n + 1) = 0 := by
  rw [depthAt_eq_zero, depthAt_eq_zero]
  constructor
  · intro outside
    exact ⟨fun i j partners first last => outside i first.le j partners.lt_length last partners,
      fun i j partners first last => outside i (Nat.lt_succ_iff.mp first) j partners.lt_length (by omega) partners⟩
  · rintro ⟨inFront, behind⟩ i first j _ last partners
    have before := partners.1
    rcases Nat.lt_or_ge i n with earlier | here
    · exact inFront i j partners earlier last
    · exact behind i j partners (by omega) (by omega)

theorem charsOf_flatten (tss : List (List Token)) : charsOf tss.flatten = (tss.map charsOf).flatten := by
  induction tss with
  | nil => rfl
  | cons ts tss ih => rw [List.flatten_cons, charsOf_append, ih, List.map_cons, List.flatten_cons]

theorem map_charsOf_lex (texts : List (List Char)) : (texts.map lex).map charsOf = texts := by
  rw [List.map_map]
  exact (List.map_congr_left fun cs _ => charsOf_lex cs).trans (List.map_id _)

section Stretch

variable {xs us ys : List Token} (inFront : depthAt (xs ++ us ++ ys) xs.length = 0)
  (behind : depthAt (xs ++ us ++ ys) (xs.length + us.length) = 0)

include inFront behind

/-- A pair that reaches into a stretch at whose ends no group is open lies in it. -/
theorem Partners.within {i j n : Nat} (partners : Partners (xs ++ us ++ ys) i j) (first : i ≤ xs.length + n)
    (last : xs.length + n ≤ j) (inside : n < us.length) :
    ∃ i' j', i = xs.length + i' ∧ j = xs.length + j' ∧ i' ≤ n ∧ n ≤ j' ∧ Partners us i' j' := by
  have lower : xs.length ≤ i := by
    by_contra outside
    exact depthAt_eq_zero.mp inFront i j partners (by omega) (by omega)
  have upper : j < xs.length + us.length := by
    by_contra outside
    exact depthAt_eq_zero.mp behind i j partners (by omega) (by omega)
  obtain ⟨i', rfl⟩ := Nat.exists_eq_add_of_le lower
  obtain ⟨j', rfl⟩ := Nat.exists_eq_add_of_le (lower.trans partners.1.le)
  exact ⟨i', j', rfl, rfl, by omega, by omega, (partners_inside (by omega)).mp partners⟩

theorem outside_inside {n : Nat} (inside : n < us.length) :
    Outside (xs ++ us ++ ys) (xs.length + n) ↔ Outside us n := by
  constructor
  · intro outside i first j bound last partners
    have wide : Partners (xs ++ us ++ ys) _ _ := (partners_inside bound).mpr partners
    exact outside _ (by omega) _ wide.lt_length (by omega) wide
  · intro outside i first j _ last partners
    obtain ⟨i', j', rfl, rfl, first', last', narrow⟩ := partners.within inFront behind first last inside
    exact outside i' first' j' narrow.lt_length last' narrow

/-- A parenthesis is paired in such a stretch just when it is paired in the whole. -/
theorem paired_inside {n : Nat} (inside : n < us.length) :
    xs.length + n ∈ pairedPositions (xs ++ us ++ ys) ↔ n ∈ pairedPositions us := by
  rw [mem_pairedPositions, mem_pairedPositions]
  constructor
  · rintro (⟨j, partners⟩ | ⟨i, partners⟩)
    · obtain ⟨i', j', start, rfl, _, _, narrow⟩ := partners.within inFront behind le_rfl partners.1.le inside
      obtain rfl : n = i' := by omega
      exact Or.inl ⟨j', narrow⟩
    · obtain ⟨i', j', rfl, finish, _, _, narrow⟩ := partners.within inFront behind partners.1.le le_rfl inside
      obtain rfl : n = j' := by omega
      exact Or.inr ⟨i', narrow⟩
  · rintro (⟨j, partners⟩ | ⟨i, partners⟩)
    · exact Or.inl ⟨xs.length + j, (partners_inside partners.lt_length).mpr partners⟩
    · exact Or.inr ⟨xs.length + i, (partners_inside inside).mpr partners⟩

end Stretch

end Token

namespace Pieces

open Token (Outside depthAt outside_iff)

variable {isSeparator : Token → Bool}

section Stretches

/-- The tokens of the texts, and the separators between them. -/
def stretches (p : Pieces) : List (List Token) :=
  p.first :: p.rest.flatMap fun (sep, ts) => [[sep], ts]

theorem stretches_separate (t : Token) (p : Pieces) : (p.separate t).stretches = [] :: [t] :: p.stretches := rfl

theorem stretches_push (t : Token) (p : Pieces) : (p.push t).stretches = (t :: p.first) :: p.stretches.tail := rfl

theorem interleaved_eq (p : Pieces) : p.interleaved = p.stretches.map Token.charsOf := by
  rw [interleaved, stretches, List.map_cons, List.map_flatMap]
  simp

theorem flatten_stretches (p : Pieces) : p.stretches.flatten = p.tokens := by
  rw [stretches, tokens, List.flatten_cons]
  congr 1
  induction p.rest with
  | nil => rfl
  | cons piece rest ih =>
    rw [List.flatMap_cons, List.flatMap_cons, List.flatten_append, ih]
    simp

/-- Every stretch of a cut is lexed by itself. -/
theorem stretches_cut (cs : List Char) :
    (cut isSeparator cs).stretches = (cut isSeparator cs).interleaved.map Token.lex := by
  have lexed := Token.lexed_lex cs
  rw [← @tokens_cut isSeparator, ← flatten_stretches] at lexed
  have itself : ∀ ts ∈ (cut isSeparator cs).stretches, Token.lex (Token.charsOf ts) = ts := fun ts member =>
    (lexed.of_isInfix (List.infix_of_mem_flatten member)).lex_charsOf
  rw [interleaved_eq, List.map_map]
  exact (List.map_id _).symm.trans (List.map_congr_left fun ts member => (itself ts member).symm)

/-- How many tokens stand before the entry at `k`. -/
def offset (p : Pieces) (k : Nat) : Nat :=
  (p.stretches.take k).flatten.length

theorem offset_push (t : Token) (p : Pieces) (k : Nat) : (p.push t).offset (k + 1) = p.offset (k + 1) + 1 := by
  rw [offset, offset, stretches_push, stretches]
  simp only [List.take_succ_cons, List.tail_cons, List.flatten_cons, List.length_append, List.length_cons]
  omega

theorem offset_separate (t : Token) (p : Pieces) (k : Nat) : (p.separate t).offset (k + 2) = p.offset k + 1 := by
  rw [offset, offset, stretches_separate]
  simp only [List.take_succ_cons, List.flatten_cons, List.length_append, List.length_cons, List.length_nil]
  omega

end Stretches

section Places

variable {ts : List Token} {n : Nat} {p : Pieces}

/-- Cutting the tokens from the place `n` on gives these pieces: a separator outside all pairs begins a piece behind
it, and any other token joins the piece in front. -/
inductive CutsFrom (isSeparator : Token → Bool) (ts : List Token) : Nat → Pieces → Prop
  | done : CutsFrom isSeparator ts ts.length { first := [], rest := [] }
  | separate {n : Nat} {t : Token} {p : Pieces} : ts[n]? = some t → isSeparator t = true → Outside ts n →
      CutsFrom isSeparator ts (n + 1) p → CutsFrom isSeparator ts n (p.separate t)
  | push {n : Nat} {t : Token} {p : Pieces} : ts[n]? = some t → ¬ (isSeparator t = true ∧ Outside ts n) →
      CutsFrom isSeparator ts (n + 1) p → CutsFrom isSeparator ts n (p.push t)

theorem depthBehind_eq_zero {p : PlacedToken} : p.depthBehind 0 = 0 ↔ p.isPaired 0 = false := by
  obtain ⟨t, n⟩ := p
  cases t with
  | opening => cases n <;> simp [PlacedToken.depthBehind, PlacedToken.isPaired]
  | closing | arrow | post | ampersand | text => exact ⟨fun _ => rfl, fun _ => rfl⟩

theorem cutsFrom_cutAt {k : Nat} (place : n + k = ts.length) :
    CutsFrom isSeparator ts n (cutAt isSeparator (depthAt ts n) (PlacedToken.all (ts.drop n))) := by
  induction k generalizing n with
  | zero =>
    obtain rfl : n = ts.length := place
    rw [List.drop_length]
    exact .done
  | succ k ih =>
    have atPlace : ts[n]? = some ts[n] := List.getElem?_eq_getElem (by omega)
    have later := @ih (n + 1) (by omega)
    rw [Token.depthAt_succ atPlace] at later
    have condition : (depthAt ts n == 0 && isSeparator ts[n] &&
        !PlacedToken.isPaired (depthAt ts n) ⟨ts[n], Token.unopened (ts.drop (n + 1))⟩) = true ↔
          isSeparator ts[n] = true ∧ Outside ts n := by
      rw [outside_iff, Token.depthAt_succ atPlace, Bool.and_eq_true, Bool.and_eq_true,
        beq_iff_eq, Bool.not_eq_true']
      constructor
      · rintro ⟨⟨none, separates⟩, unpaired⟩
        rw [none] at unpaired ⊢
        exact ⟨separates, rfl, depthBehind_eq_zero.mpr unpaired⟩
      · rintro ⟨separates, none, unpaired⟩
        rw [none] at unpaired ⊢
        exact ⟨⟨rfl, separates⟩, depthBehind_eq_zero.mp unpaired⟩
    rw [Token.drop_of_getElem? atPlace, PlacedToken.all_cons, cutAt]
    dsimp only
    split
    · rename_i separates
      exact .separate atPlace (condition.mp separates).1 (condition.mp separates).2 later
    · rename_i joins
      exact .push atPlace (fun separates => joins (condition.mpr separates)) later

theorem cutsFrom_cut (isSeparator : Token → Bool) (cs : List Char) :
    CutsFrom isSeparator (Token.lex cs) 0 (cut isSeparator cs) :=
  cutsFrom_cutAt (Nat.zero_add _)

/-- The separators of a cut are those outside all pairs, in order. -/
theorem CutsFrom.separators (cuts : CutsFrom isSeparator ts n p) : p.rest.map Prod.fst =
    ((ts.zipIdx.drop n).filter fun place => isSeparator place.1 = true ∧ Outside ts place.2).map Prod.fst := by
  have behind {n : Nat} {t : Token} (atPlace : ts[n]? = some t) :
      ts.zipIdx.drop n = (t, n) :: ts.zipIdx.drop (n + 1) := by
    obtain ⟨inside, rfl⟩ := List.getElem?_eq_some_iff.mp atPlace
    rw [List.drop_eq_getElem_cons (by simpa using inside)]
    simp
  induction cuts with
  | done =>
    rw [List.drop_eq_nil_of_le (by simp)]
    rfl
  | separate atPlace separates outside _ ih =>
    rw [behind atPlace, List.filter_cons_of_pos (by simpa using ⟨separates, outside⟩), List.map_cons, ← ih]
    rfl
  | push atPlace joins _ ih =>
    rw [behind atPlace, List.filter_cons_of_neg (by simpa using joins), ← ih]
    rfl

/-- No group is open where an entry of a cut ends. -/
theorem CutsFrom.depthAt_end (cuts : CutsFrom isSeparator ts n p) (k : Nat) :
    depthAt ts (n + p.offset (k + 1)) = 0 := by
  induction cuts generalizing k with
  | done =>
    have none : Pieces.offset { first := [], rest := [] } (k + 1) = 0 := by simp [offset, stretches]
    rw [none]
    exact Token.depthAt_length
  | @separate n t p _ _ outside _ ih =>
    obtain ⟨inFront, behind⟩ := outside_iff.mp outside
    cases k with
    | zero => exact inFront
    | succ k =>
      rw [offset_separate]
      cases k with
      | zero => exact behind
      | succ k => simpa only [Nat.add_assoc, Nat.add_comm 1] using ih k
  | push _ _ _ ih =>
    rw [offset_push]
    simpa only [Nat.add_assoc, Nat.add_comm 1] using ih k

/-- A piece holds no separator outside the pairs of the whole text. -/
theorem CutsFrom.not_outside (cuts : CutsFrom isSeparator ts n p) {k i : Nat} {piece : List Token} {t : Token}
    (entry : p.stretches[2 * k]? = some piece) (inside : piece[i]? = some t) (separates : isSeparator t = true) :
    ¬ Outside ts (n + p.offset (2 * k) + i) := by
  induction cuts generalizing k i piece with
  | done =>
    cases k with
    | zero =>
      cases entry
      cases inside
    | succ k => simp [stretches] at entry
  | @separate n _ p _ _ _ _ ih =>
    rw [stretches_separate] at entry
    cases k with
    | zero =>
      cases entry
      cases inside
    | succ k =>
      have later := ih entry inside
      have place : n + ((p.offset (2 * k) + 1)) + i = n + 1 + p.offset (2 * k) + i := by omega
      rwa [Nat.mul_succ, offset_separate, place]
  | @push n u p atPlace joins _ ih =>
    rw [stretches_push] at entry
    cases k with
    | zero =>
      cases entry
      cases i with
      | zero =>
        cases inside
        exact fun outside => joins ⟨separates, outside⟩
      | succ i =>
        have later := @ih 0 i p.first rfl inside
        have place : n + 0 + (i + 1) = n + 1 + 0 + i := by omega
        show ¬ Outside _ (n + 0 + (i + 1))
        rwa [place]
    | succ k =>
      have later := @ih (k + 1) i piece (by simpa [Nat.mul_succ, stretches] using entry) inside
      have place : n + (p.offset (2 * k + 1 + 1) + 1) + i = n + 1 + p.offset (2 * k + 1 + 1) + i := by omega
      rw [Nat.mul_succ] at later ⊢
      rwa [offset_push, place]

/-- No group is open between two entries of a cut. -/
theorem CutsFrom.depthAt_offset (cuts : CutsFrom isSeparator ts 0 p) (k : Nat) : depthAt ts (p.offset k) = 0 := by
  cases k with
  | zero => rfl
  | succ k =>
    have atEnd := cuts.depthAt_end k
    rwa [Nat.zero_add] at atEnd

end Places

section Entries

variable {cs : List Char} {k : Nat} {e : List Token}

/-- An entry of a cut between the tokens in front of it and those behind it. -/
theorem lex_eq_around (entry : (cut isSeparator cs).stretches[k]? = some e) : Token.lex cs =
    ((cut isSeparator cs).stretches.take k).flatten ++ e ++
    ((cut isSeparator cs).stretches.drop (k + 1)).flatten := by
  obtain ⟨inside, rfl⟩ := List.getElem?_eq_some_iff.mp entry
  rw [List.append_assoc, ← List.flatten_cons, ← List.drop_eq_getElem_cons inside, ← List.flatten_append,
    List.take_append_drop, flatten_stretches, tokens_cut]

theorem depthAt_ends (entry : (cut isSeparator cs).stretches[k]? = some e) :
    depthAt (((cut isSeparator cs).stretches.take k).flatten ++ e ++
        ((cut isSeparator cs).stretches.drop (k + 1)).flatten)
          ((cut isSeparator cs).stretches.take k).flatten.length = 0 ∧
      depthAt (((cut isSeparator cs).stretches.take k).flatten ++ e ++
        ((cut isSeparator cs).stretches.drop (k + 1)).flatten)
          (((cut isSeparator cs).stretches.take k).flatten.length + e.length) = 0 := by
  have inFront := (cutsFrom_cut isSeparator cs).depthAt_offset k
  have behind := (cutsFrom_cut isSeparator cs).depthAt_offset (k + 1)
  rw [offset, List.take_add_one, entry, List.flatten_append, List.length_append] at behind
  rw [← lex_eq_around entry]
  exact ⟨inFront, by simpa using behind⟩

/-- A piece of a cut is not cut again. -/
theorem rest_cut_piece (entry : (cut isSeparator cs).stretches[2 * k]? = some e) :
    (cut isSeparator (Token.charsOf e)).rest = [] := by
  have whole := lex_eq_around entry
  have lexed : Token.Lexed e := (Token.lexed_lex cs).of_isInfix ⟨_, _, whole.symm⟩
  have separators := (cutsFrom_cut isSeparator (Token.charsOf e)).separators
  have none : ((e.zipIdx.drop 0).filter fun place => isSeparator place.1 = true ∧ Outside e place.2) = [] := by
    rw [List.filter_eq_nil_iff]
    rintro ⟨t, i⟩ member separates
    obtain ⟨separates, outside⟩ := of_decide_eq_true separates
    have inside : e[i]? = some t := List.mem_zipIdx_iff_getElem?.mp member
    obtain ⟨inFront, behind⟩ := depthAt_ends entry
    have wide := (Token.outside_inside inFront behind (List.getElem?_eq_some_iff.mp inside).1).mpr outside
    rw [← whole] at wide
    have held := (cutsFrom_cut isSeparator cs).not_outside entry inside separates
    rw [Nat.zero_add] at held
    exact held wide
  rw [lexed.lex_charsOf, none] at separators
  exact List.map_eq_nil_iff.mp separators

theorem interleaved_of_rest (alone : (cut isSeparator cs).rest = []) :
    (cut isSeparator cs).interleaved = [cs] ∧ (cut isSeparator cs).parts = [cs] := by
  have whole := flatten_cut isSeparator cs
  rw [interleaved, alone, List.flatMap_nil, List.flatten_singleton] at whole
  rw [interleaved, parts, alone, List.flatMap_nil, List.map_nil, whole]
  exact ⟨rfl, rfl⟩

end Entries

section Alternation

variable {α β : Type} (f g : α → β)

theorem getElem?_flatMap_pair (xs : List α) (k : Nat) :
    (xs.flatMap fun x => [f x, g x])[2 * k]? = xs[k]?.map f ∧
      (xs.flatMap fun x => [f x, g x])[2 * k + 1]? = xs[k]?.map g := by
  induction xs generalizing k with
  | nil => exact ⟨rfl, rfl⟩
  | cons x xs ih =>
    cases k with
    | zero => exact ⟨rfl, rfl⟩
    | succ k => simpa [Nat.mul_succ] using ih k

theorem length_flatMap_pair (xs : List α) : (xs.flatMap fun x => [f x, g x]).length = 2 * xs.length := by
  induction xs with
  | nil => rfl
  | cons x xs ih =>
    simp only [List.flatMap_cons, List.length_append, List.length_cons, List.length_nil, ih]
    omega

theorem length_interleaved (p : Pieces) : p.interleaved.length = 2 * p.rest.length + 1 :=
  congrArg (· + 1) (length_flatMap_pair (fun piece => piece.1.chars) (fun piece => Token.charsOf piece.2) p.rest)

theorem getElem?_interleaved_even (p : Pieces) (k : Nat) : p.interleaved[2 * k]? = p.parts[k]? := by
  cases k with
  | zero => rfl
  | succ k =>
    have texts :=
      (getElem?_flatMap_pair (fun piece => piece.1.chars) (fun piece => Token.charsOf piece.2) p.rest k).2
    simpa [interleaved, parts, Nat.mul_succ] using texts

theorem getElem?_interleaved_odd (p : Pieces) (k : Nat) :
    p.interleaved[2 * k + 1]? = (p.rest.map Prod.fst)[k]?.map Token.chars := by
  have separators :=
    (getElem?_flatMap_pair (fun piece => piece.1.chars) (fun piece => Token.charsOf piece.2) p.rest k).1
  simpa [interleaved, Option.map_map, Function.comp_def] using separators

end Alternation

section Offsets

variable {cs : List Char} {k : Nat} {text : List Char}

/-- What stands before an entry is lexed as in the whole text, and so is what stands behind it. -/
theorem lex_around (entry : (cut isSeparator cs).interleaved[k]? = some text) :
    Token.lex ((cut isSeparator cs).interleaved.take k).flatten = ((cut isSeparator cs).stretches.take k).flatten ∧
      Token.lex ((cut isSeparator cs).interleaved.drop (k + 1)).flatten =
        ((cut isSeparator cs).stretches.drop (k + 1)).flatten ∧
      (cut isSeparator cs).stretches[k]? = some (Token.lex text) := by
  have inPlace : (cut isSeparator cs).stretches[k]? = some (Token.lex text) := by
    rw [stretches_cut, List.getElem?_map, entry]
    rfl
  have lexed := Token.lexed_lex cs
  rw [lex_eq_around inPlace, List.append_assoc] at lexed
  have texts (tss : List (List Token)) (lexed : Token.Lexed tss.flatten) :
      Token.lex (tss.map Token.charsOf).flatten = tss.flatten := by
    rw [← Token.charsOf_flatten, lexed.lex_charsOf]
  rw [interleaved_eq, ← List.map_take, ← List.map_drop]
  exact ⟨texts _ lexed.left, texts _ lexed.right.right, inPlace⟩

/-- Every place of a text is in one entry of its cut. -/
theorem exists_entry (isSeparator : Token → Bool) {n : Nat} (inside : n < (Token.lex cs).length) :
    ∃ k e i, (cut isSeparator cs).stretches[k]? = some e ∧ i < e.length ∧
      n = ((cut isSeparator cs).stretches.take k).flatten.length + i := by
  have find (tss : List (List Token)) : ∀ n < tss.flatten.length, ∃ k e i, tss[k]? = some e ∧ i < e.length ∧
      n = (tss.take k).flatten.length + i := by
    induction tss with
    | nil => simp
    | cons ts tss ih =>
      intro n inside
      rw [List.flatten_cons, List.length_append] at inside
      rcases Nat.lt_or_ge n ts.length with here | later
      · exact ⟨0, ts, n, rfl, here, by simp⟩
      · obtain ⟨k, e, i, entry, within, place⟩ := ih (n - ts.length) (by omega)
        refine ⟨k + 1, e, i, entry, within, ?_⟩
        rw [List.take_succ_cons, List.flatten_cons, List.length_append]
        omega
  rw [← @tokens_cut isSeparator, ← flatten_stretches] at inside
  exact find _ n inside

/-- A pair of parentheses lies in one entry. -/
theorem partners_in_entry (isSeparator : Token → Bool) {i j : Nat} (partners : Token.Partners (Token.lex cs) i j) :
    ∃ k e i' j', (cut isSeparator cs).stretches[k]? = some e ∧
      i = ((cut isSeparator cs).stretches.take k).flatten.length + i' ∧
      j = ((cut isSeparator cs).stretches.take k).flatten.length + j' ∧ Token.Partners e i' j' := by
  obtain ⟨k, e, n, entry, within, rfl⟩ := exists_entry isSeparator (partners.1.trans partners.lt_length)
  obtain ⟨inFront, behind⟩ := depthAt_ends entry
  rw [lex_eq_around entry] at partners
  obtain ⟨i', j', start, finish, _, _, narrow⟩ := partners.within inFront behind le_rfl partners.1.le within
  exact ⟨k, e, i', j', entry, start, finish, narrow⟩

end Offsets

end Pieces

/-- The entries of a cut are texts and separators in turn, which joined are the whole text again; the
separators are the tokens of their kind outside all pairs of parentheses, and no text between them is
cut again. A pair of the whole text lies in one entry, and a token is paired in its entry just when it
is paired in the whole text. The run counts up for an opening parenthesis of a pair and down for a
closing one, never below nothing, and ends with nothing. -/
theorem entries_of_cut (kind : Token.Kind) (cs : List Char) :
    let tokens := Token.lex cs
    let entries := (Pieces.cut (·.kind == kind) cs).interleaved
    let parts := (Pieces.cut (·.kind == kind) cs).parts
    let separators := (tokens.zipIdx.filter fun place =>
      place.1.kind = kind ∧ Token.Outside tokens place.2).map Prod.fst
    let before (k : Nat) := Token.lex (entries.take k).flatten
    entries.length % 2 = 1 ∧ entries.flatten = cs ∧
      (∀ k : Nat, entries[2 * k + 1]? = separators[k]?.map Token.chars) ∧
      (∀ k : Nat, entries[2 * k]? = parts[k]?) ∧
      (∀ part ∈ parts, (Pieces.cut (·.kind == kind) part).interleaved = [part] ∧
        (Pieces.cut (·.kind == kind) part).parts = [part]) ∧
      (∀ i j, Token.Partners tokens i j → ∃ (k : Nat) (e : List Char) (i' j' : Nat), entries[k]? = some e ∧
        i = (before k).length + i' ∧ j = (before k).length + j' ∧ Token.Partners (Token.lex e) i' j') ∧
      (∀ (k : Nat) (e : List Char), entries[k]? = some e →
        tokens = before k ++ Token.lex e ++ Token.lex (entries.drop (k + 1)).flatten ∧
        ∀ n < (Token.lex e).length, (before k).length + n ∈ Token.pairedPositions tokens ↔
          n ∈ Token.pairedPositions (Token.lex e)) ∧
      (∀ n, (Token.depthAt tokens n : Int) = Token.balanceAt tokens n ∧ 0 ≤ Token.balanceAt tokens n) ∧
      Token.balanceAt tokens tokens.length = 0 := by
  intro tokens entries parts separators before
  have cuts : Pieces.CutsFrom (·.kind == kind) tokens 0 (Pieces.cut (·.kind == kind) cs) := Pieces.cutsFrom_cut _ cs
  refine ⟨?_, Pieces.flatten_cut _ cs, ?_, Pieces.getElem?_interleaved_even _, ?_, ?_, ?_, ?_, ?_⟩
  · rw [Pieces.length_interleaved]
    omega
  · intro k
    rw [Pieces.getElem?_interleaved_odd, cuts.separators, List.drop_zero]
    simp only [beq_iff_eq, separators]
  · intro part member
    obtain ⟨k, atPlace⟩ := List.mem_iff_getElem?.mp member
    rw [← Pieces.getElem?_interleaved_even] at atPlace
    have alone := Pieces.rest_cut_piece (Pieces.lex_around atPlace).2.2
    rw [Token.charsOf_lex] at alone
    exact Pieces.interleaved_of_rest alone
  · intro i j partners
    obtain ⟨k, e, i', j', entry, start, finish, narrow⟩ :=
      Pieces.partners_in_entry (·.kind == kind) partners
    obtain ⟨text, atPlace, rfl⟩ : ∃ text, entries[k]? = some text ∧ Token.lex text = e := by
      rw [Pieces.stretches_cut, List.getElem?_map, Option.map_eq_some_iff] at entry
      exact entry
    refine ⟨k, text, i', j', atPlace, ?_, ?_, narrow⟩
    · rw [start, ← (Pieces.lex_around atPlace).1]
    · rw [finish, ← (Pieces.lex_around atPlace).1]
  · intro k e atPlace
    obtain ⟨inFront, behind, entry⟩ := Pieces.lex_around atPlace
    obtain ⟨shut, shut'⟩ := Pieces.depthAt_ends entry
    have whole := Pieces.lex_eq_around entry
    rw [← inFront] at whole shut shut'
    rw [← behind] at whole shut shut'
    refine ⟨whole, fun n inside => ?_⟩
    have paired := Token.paired_inside shut shut' inside
    rwa [← whole] at paired
  · intro n
    rw [← Token.depthAt_eq_balanceAt]
    exact ⟨rfl, Int.natCast_nonneg _⟩
  · rw [← Token.depthAt_eq_balanceAt, Token.depthAt_length]
    rfl

/-- A text with strays on both sides of a pair, cut at opening parentheses. -/
theorem entries_of_cut_strays :
    let tokens := Token.lex ")(a)(b(c".toList
    let cut := fun text : String => Pieces.cut (·.kind == .opening) text.toList
    (cut ")(a)(b(c").interleaved = [")(a)".toList, ['('], ['b'], ['('], ['c']] ∧
      ")(a)".toList ∈ (cut ")(a)(b(c").parts ∧ (cut ")(a)").parts = [")(a)".toList] ∧
      Token.Partners tokens 1 3 ∧
      (∃ (k : Nat) (e : List Char) (i' j' : Nat), (cut ")(a)(b(c").interleaved[k]? = some e ∧
        Token.Partners (Token.lex e) i' j') ∧
      (4 ∉ Token.pairedPositions tokens ∧ 0 ∉ Token.pairedPositions (Token.lex ['('])) := by
  intro tokens cut
  obtain ⟨_, _, _, _, final, pairs, alike, _⟩ := entries_of_cut .opening ")(a)(b(c".toList
  have member : ")(a)".toList ∈ (cut ")(a)(b(c").parts := by decide
  have partners : Token.Partners tokens 1 3 := by decide
  obtain ⟨k, e, i', j', entry, _, _, narrow⟩ := pairs 1 3 partners
  have stray : 4 ∉ Token.pairedPositions tokens := by decide
  refine ⟨by decide, member, (final _ member).2, partners, ⟨k, e, i', j', entry, narrow⟩, stray, ?_⟩
  exact fun paired => stray (((alike 1 ['('] (by decide)).2 0 (by decide)).mpr paired)

end TransferFlow
