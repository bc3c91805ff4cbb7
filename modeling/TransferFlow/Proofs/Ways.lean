import Mathlib.Data.List.Induction
import TransferFlow.FileSystem
import TransferFlow.Proofs.Places

namespace TransferFlow

namespace FileEntry

variable {e : FileEntry} {name : String} {f : FileFault}

theorem obstacle?_of_isDirectory (directory : e.isDirectory = true) (found : e.obstacle? name = some f) :
    f = .denied ∨ f = .nameTooLong := by
  obtain ⟨_ | _ | _, readable⟩ := e <;> cases directory
  rw [obstacle?] at found
  grind

theorem obstacle?_of_other (other : e.isDirectory = false) (name : String) :
    e.obstacle? name = some .notDirectory := by
  obtain ⟨_ | _ | _, readable⟩ := e
  · rfl
  · cases other
  · rfl

/-- Whether an entry may be read, and searched if it is a directory. -/
def isOpen (e : FileEntry) : Bool :=
  e.readable &&
    match e.kind with
    | .directory _ searchable => searchable
    | _ => true

/-- An open directory keeps no name from being looked up but for its length. -/
theorem obstacle?_of_isOpen (isOpen : e.isOpen = true) (directory : e.isDirectory = true)
    (found : e.obstacle? name = some f) : f = .nameTooLong ∧ maxNameBytes < name.utf8ByteSize := by
  obtain ⟨_ | ⟨size, searchable⟩ | _, readable⟩ := e <;> cases directory
  obtain rfl : searchable = true := (Bool.and_eq_true_iff.mp isOpen).2
  rw [obstacle?] at found
  grind

end FileEntry

namespace FileSystem

/-- The same at `base` and below it. -/
def AgreeBelow (base : AbsolutePath) (fs fs' : FileSystem) : Prop :=
  ∀ p : AbsolutePath, p.isWithin base = true → fs.entryAt? p = fs'.entryAt? p

/-- One of the names, which are looked up one inside the other from a directory, meets a directory that
does not let it be looked up. -/
def Blocks (fs : FileSystem) (above names : List String) (f : FileFault) : Prop :=
  ∃ before name e, before ++ [name] <+: names ∧ fs.entryAt? ⟨above ++ before⟩ = some e ∧ e.isDirectory = true ∧
    e.obstacle? name = some f

/-- Every directory on the way may be searched, and no name that is looked up there is too long. -/
def Passable (fs : FileSystem) (above names : List String) : Prop :=
  ∀ f, ¬fs.Blocks above names f

/-- Everything may be read, and every directory searched. -/
def IsOpen (fs : FileSystem) : Prop :=
  ∀ p e, fs.entryAt? p = some e → e.isOpen = true

variable {fs fs' : FileSystem} {base p : AbsolutePath} {above names rest : List String}
  {name : String} {f : FileFault}

/-- By induction on the names from the last, each of which stands in a directory. -/
theorem isDirectory_above {after : List String} (more : after ≠ [])
    (visible : (fs.entryAt? ⟨above ++ after⟩).isSome = true) :
    (fs.entryAt? ⟨above⟩).any FileEntry.isDirectory = true := by
  induction after using List.reverseRecOn with
  | nil => exact absurd rfl more
  | append_singleton before name ih =>
    rw [← List.append_assoc] at visible
    have directory := (fs.above visible).2
    by_cases first : before = []
    · rwa [first, List.append_nil] at directory
    · exact ih first (Option.isSome_of_any directory)

theorem nothing_below (other : (fs.entryAt? ⟨above⟩).any FileEntry.isDirectory = false) {after : List String}
    (more : after ≠ []) : fs.entryAt? ⟨above ++ after⟩ = none := by
  by_contra visible
  rw [isDirectory_above more (Option.isSome_iff_ne_none.mpr visible)] at other
  cases other

theorem blocks_cons :
    fs.Blocks above (name :: names) f ↔
      (∃ e, fs.entryAt? ⟨above⟩ = some e ∧ e.isDirectory = true ∧ e.obstacle? name = some f) ∨
        fs.Blocks (above ++ [name]) names f := by
  constructor
  · rintro ⟨before, last, e, isPrefix, found, blocks⟩
    cases before with
    | nil =>
      obtain ⟨rfl, -⟩ := List.cons_prefix_cons.mp isPrefix
      rw [List.append_nil] at found
      exact .inl ⟨e, found, blocks⟩
    | cons first before =>
      obtain ⟨rfl, later⟩ := List.cons_prefix_cons.mp isPrefix
      rw [List.append_cons] at found
      exact .inr ⟨before, last, e, later, found, blocks⟩
  · rintro (⟨e, found, blocks⟩ | ⟨before, last, e, isPrefix, found, blocks⟩)
    · rw [← List.append_nil above] at found
      exact ⟨[], name, e, ⟨names, rfl⟩, found, blocks⟩
    · rw [List.append_assoc] at found
      exact ⟨name :: before, last, e, List.cons_prefix_cons.mpr ⟨rfl, isPrefix⟩, found, blocks⟩

theorem not_blocks_nil : ¬fs.Blocks above [] f := by
  rintro ⟨before, name, e, isPrefix, -⟩
  exact absurd (List.prefix_nil.mp isPrefix) (by simp)

theorem blocks_append :
    fs.Blocks above (names ++ rest) f ↔ fs.Blocks above names f ∨ fs.Blocks (above ++ names) rest f := by
  induction names generalizing above with
  | nil => simp [not_blocks_nil]
  | cons name names ih => rw [List.cons_append, blocks_cons, ih, blocks_cons, or_assoc, ← List.append_cons]

theorem Blocks.cause (blocks : fs.Blocks above names f) : f = .denied ∨ f = .nameTooLong := by
  obtain ⟨_, _, e, _, _, directory, found⟩ := blocks
  exact FileEntry.obstacle?_of_isDirectory directory found

theorem not_blocks_of_noDirectory (other : (fs.entryAt? ⟨above⟩).any FileEntry.isDirectory = false) :
    ¬fs.Blocks above names f := by
  rintro ⟨before, name, e, -, found, directory, -⟩
  by_cases first : before = []
  · rw [first, List.append_nil] at found
    rw [found, Option.any_some, directory] at other
    cases other
  · rw [nothing_below other first] at found
    cases found

theorem Blocks.of_isOpen (blocks : fs.Blocks above names f) (isOpen : fs.IsOpen) :
    f = .nameTooLong ∧ ∃ name ∈ names, maxNameBytes < name.utf8ByteSize := by
  obtain ⟨before, name, e, isPrefix, found, directory, obstacle⟩ := blocks
  obtain ⟨same, long⟩ := FileEntry.obstacle?_of_isOpen (isOpen _ _ found) directory obstacle
  exact ⟨same, name, isPrefix.subset (List.mem_append_right _ (List.mem_singleton_self name)), long⟩

theorem IsOpen.passable (isOpen : fs.IsOpen) (short : ∀ name ∈ names, name.utf8ByteSize ≤ maxNameBytes)
    (above : List String) : fs.Passable above names := by
  intro f blocks
  obtain ⟨_, name, member, long⟩ := blocks.of_isOpen isOpen
  exact absurd (short name member) (Nat.not_le.mpr long)

theorem follow_append (fs : FileSystem) (above xs ys : List String) :
    fs.follow above (xs ++ ys) = fs.follow above xs >>= fun place => fs.follow place.names ys := by
  induction xs generalizing above with
  | nil => rfl
  | cons piece xs ih =>
    rw [List.cons_append, follow, follow]
    cases fs.entryAt? ⟨above⟩ with
    | none => rfl
    | some e =>
      dsimp only
      cases e.obstacle? piece with
      | some f => rfl
      | none => exact ih _

theorem follow_of_noDirectory (other : (fs.entryAt? ⟨above⟩).any FileEntry.isDirectory = false) (name : String)
    (names : List String) :
    fs.follow above (name :: names) = .error .missing ∨ fs.follow above (name :: names) = .error .notDirectory := by
  rw [follow]
  cases found : fs.entryAt? ⟨above⟩ with
  | none => exact .inl rfl
  | some e =>
    rw [found, Option.any_some] at other
    dsimp only
    rw [FileEntry.obstacle?_of_other other]
    exact .inr rfl

/-- Names lead to their place, or nothing stands there, unless a directory on the way blocks it. -/
theorem follow_cases (fs : FileSystem) (onward : ∀ name ∈ names, FilePath.IsOnward name) (above : List String) :
    fs.Passable above names ∧ (fs.follow above names = .ok ⟨above ++ names⟩ ∨
        fs.entryAt? ⟨above ++ names⟩ = none ∧
          (fs.follow above names = .error .missing ∨ fs.follow above names = .error .notDirectory)) ∨
      ∃ f, fs.Blocks above names f ∧ fs.follow above names = .error f := by
  induction names generalizing above with
  | nil =>
    rw [List.append_nil]
    exact .inl ⟨fun _ => not_blocks_nil, .inl rfl⟩
  | cons name names ih =>
    obtain ⟨atHead, atTail⟩ := List.forall_mem_cons.mp onward
    cases directory : (fs.entryAt? ⟨above⟩).any FileEntry.isDirectory with
    | false =>
      exact .inl ⟨fun _ => not_blocks_of_noDirectory directory,
        .inr ⟨nothing_below directory (List.cons_ne_nil _ _), follow_of_noDirectory directory name names⟩⟩
    | true =>
      obtain ⟨e, found, directory⟩ := (Option.any_eq_true _ _).mp directory
      rw [follow, found]
      dsimp only
      cases obstacle : e.obstacle? name with
      | some f => exact .inr ⟨f, blocks_cons.mpr (.inl ⟨e, found, directory, obstacle⟩), rfl⟩
      | none =>
        have free (f : FileFault) : fs.Blocks above (name :: names) f ↔ fs.Blocks (above ++ [name]) names f := by
          simp [blocks_cons, found, obstacle]
        have further := ih atTail (above ++ [name])
        rw [List.append_assoc, List.singleton_append] at further
        simp only [Passable, free, FilePath.enter_of_isOnward above atHead]
        exact further

theorem follow_eq_ok (onward : ∀ name ∈ names, FilePath.IsOnward name) {place : AbsolutePath}
    (followed : fs.follow above names = .ok place) : place = ⟨above ++ names⟩ := by
  rcases fs.follow_cases onward above with ⟨-, ends | ⟨-, lost | lost⟩⟩ | ⟨f, -, lost⟩
  · exact Except.ok.inj (followed.symm.trans ends)
  all_goals cases followed.symm.trans lost

/-- A way is followed by what stands at the places on it. -/
theorem follow_congr (onward : ∀ name ∈ names, FilePath.IsOnward name)
    (same : ∀ before, before <+: names → fs.entryAt? ⟨above ++ before⟩ = fs'.entryAt? ⟨above ++ before⟩) :
    fs.follow above names = fs'.follow above names := by
  induction names generalizing above with
  | nil => rfl
  | cons name names ih =>
    obtain ⟨atHead, atTail⟩ := List.forall_mem_cons.mp onward
    have here := same [] List.nil_prefix
    have further := @ih (above ++ [name]) atTail fun before isPrefix => by
      simpa using same (name :: before) (List.cons_prefix_cons.mpr ⟨rfl, isPrefix⟩)
    rw [List.append_nil] at here
    rw [follow, follow, here, FilePath.enter_of_isOnward above atHead, further]

/-- A place whose path can be looked up: it is not too long as a whole, and no directory blocks a name on it. -/
structure CanLookUp (fs : FileSystem) (p : AbsolutePath) : Prop where
  whole : p.text.utf8ByteSize ≤ maxPathBytes
  way : fs.Passable [] p.names

section LookUp

variable (onward : ∀ name ∈ p.names, FilePath.IsOnward name)
include onward

theorem lookUp_of_canLookUp (canLookUp : fs.CanLookUp p) : fs.lookUp p = .ok (fs.entryAt? p) := by
  rw [lookUp, if_neg (Nat.not_lt.mpr canLookUp.whole)]
  rcases fs.follow_cases onward [] with ⟨-, ends | ⟨nothing, lost | lost⟩⟩ | ⟨f, blocks, -⟩
  · rw [ends]
    rfl
  · rw [lost]
    exact congrArg Except.ok nothing.symm
  · rw [lost]
    exact congrArg Except.ok nothing.symm
  · exact absurd blocks (canLookUp.way f)

theorem lookUp_of_not_canLookUp (cannot : ¬fs.CanLookUp p) :
    ∃ f, fs.lookUp p = .error f ∧ (f = .nameTooLong ∨ fs.Blocks [] p.names f) := by
  rw [lookUp]
  split
  · exact ⟨_, rfl, .inl rfl⟩
  rename_i fits
  rcases fs.follow_cases onward [] with ⟨way, -⟩ | ⟨f, blocks, stops⟩
  · exact absurd ⟨Nat.not_lt.mp fits, way⟩ cannot
  · rw [stops]
    rcases blocks.cause with rfl | rfl
    · exact ⟨_, rfl, .inr blocks⟩
    · exact ⟨_, rfl, .inl rfl⟩

/-- Nothing is found below a place where nothing stands. -/
theorem lookUp_below_nothing (within : base.names <+: p.names) (way : fs.Passable [] base.names)
    (nothing : fs.entryAt? base = none) :
    fs.lookUp p = if maxPathBytes < p.text.utf8ByteSize then .error .nameTooLong else .ok none := by
  split
  · rename_i tooLong
    rw [lookUp, if_pos tooLong]
  rename_i fits
  obtain ⟨rest, spelled⟩ := within
  have noDirectory : (fs.entryAt? ⟨base.names⟩).any FileEntry.isDirectory = false := by rw [nothing]; rfl
  have passable : fs.Passable [] p.names := fun f blocks =>
    (blocks_append.mp (spelled ▸ blocks)).elim (way f) (not_blocks_of_noDirectory noDirectory)
  rw [lookUp_of_canLookUp onward ⟨Nat.not_lt.mp fits, passable⟩]
  obtain rfl : p = ⟨base.names ++ rest⟩ := congrArg AbsolutePath.mk spelled.symm
  by_cases more : rest = []
  · rw [more, List.append_nil, nothing]
  · rw [nothing_below noDirectory more]

theorem follow_to_entry (way : fs.Passable [] p.names) (something : fs.entryAt? p ≠ none) :
    fs.follow [] p.names = .ok p := by
  rcases fs.follow_cases onward [] with ⟨-, ends | ⟨nothing, -⟩⟩ | ⟨f, blocks, -⟩
  · exact ends
  · exact absurd nothing something
  · exact absurd blocks (way f)

end LookUp

/-- What is looked up at or below `base` depends on what stands there, if nothing blocks the way to `base`. -/
theorem AgreeBelow.lookUp_eq (agree : AgreeBelow base fs fs') (onward : ∀ name ∈ p.names, FilePath.IsOnward name)
    (within : base.names <+: p.names) (way : fs.Passable [] base.names) (way' : fs'.Passable [] base.names) :
    fs.lookUp p = fs'.lookUp p := by
  have atBase : fs.entryAt? base = fs'.entryAt? base := agree base (AbsolutePath.isWithin_iff.mpr List.prefix_rfl)
  by_cases nothing : fs.entryAt? base = none
  · rw [lookUp_below_nothing onward within way nothing, lookUp_below_nothing onward within way' (atBase ▸ nothing)]
  obtain ⟨rest, spelled⟩ := within
  obtain rfl : p = ⟨base.names ++ rest⟩ := congrArg AbsolutePath.mk spelled.symm
  obtain ⟨toBase, behind⟩ := List.forall_mem_append.mp onward
  have below (before : List String) : fs.entryAt? ⟨base.names ++ before⟩ = fs'.entryAt? ⟨base.names ++ before⟩ :=
    agree _ (AbsolutePath.isWithin_iff.mpr (List.prefix_append _ _))
  have alike : fs.follow [] (base.names ++ rest) = fs'.follow [] (base.names ++ rest) := by
    rw [follow_append, follow_append, follow_to_entry toBase way nothing,
      follow_to_entry toBase way' (atBase ▸ nothing)]
    exact follow_congr behind fun before _ => below before
  rw [lookUp, lookUp]
  dsimp only
  rw [alike]
  cases ends : fs'.follow [] (base.names ++ rest) with
  | error f => cases f <;> rfl
  | ok place =>
    obtain rfl := follow_eq_ok onward ends
    dsimp only [List.nil_append]
    rw [below rest]

end FileSystem

end TransferFlow
