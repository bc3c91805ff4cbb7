import Mathlib.Logic.Relation
import TransferFlow.Access
import TransferFlow.Proofs.DocumentLines

namespace TransferFlow

section Pieces

variable {c sep : Char} {cs piece : List Char} {pieces : List (List Char)}

theorem Text.not_mem_of_mem_splitOn (member : piece ∈ cs.splitOn sep) : sep ∉ piece := by
  induction cs generalizing piece with
  | nil =>
    rw [List.splitOn_nil, List.mem_singleton] at member
    rw [member]
    exact List.not_mem_nil
  | cons c cs ih =>
    rw [List.splitOn_cons_eq_if_modifyHead] at member
    split at member
    · rcases List.mem_cons.mp member with rfl | member
      · exact List.not_mem_nil
      · exact ih member
    · rename_i other
      obtain ⟨first, later, pieces⟩ := List.exists_cons_of_ne_nil (List.splitOn_ne_nil sep cs)
      rw [pieces] at ih member
      rcases List.mem_cons.mp member with rfl | member
      · rw [List.mem_cons, not_or]
        exact ⟨fun same => other (beq_iff_eq.mpr same.symm), ih List.mem_cons_self⟩
      · exact ih (List.mem_cons_of_mem _ member)

theorem Text.mem_intercalate (member : c ∈ [sep].intercalate pieces) : c = sep ∨ ∃ piece ∈ pieces, c ∈ piece := by
  induction pieces with
  | nil => exact absurd member List.not_mem_nil
  | cons first rest ih =>
    cases rest with
    | nil => exact .inr ⟨first, List.mem_cons_self, by rwa [List.intercalate_singleton] at member⟩
    | cons next rest =>
      rw [List.intercalate_cons_cons, List.append_assoc] at member
      rcases List.mem_append.mp member with inFirst | member
      · exact .inr ⟨first, List.mem_cons_self, inFirst⟩
      rcases List.mem_cons.mp member with same | inRest
      · exact .inl same
      rcases ih inRest with same | ⟨later, inside, inLater⟩
      · exact .inl same
      · exact .inr ⟨later, List.mem_cons_of_mem _ inside, inLater⟩

end Pieces

/-- The pieces of a path as they follow one another from the root, where the path is read in the directory `cwd`. -/
def AbsolutePath.spell (cwd : AbsolutePath) (text : String) : List String :=
  if FilePath.startOf text = .relative then cwd.names ++ FilePath.pieces text else FilePath.pieces text

namespace FilePath

/-- One way to shorten pieces that follow one another from the root. -/
inductive Shortens : List String → List String → Prop
  | empty (before after : List String) : Shortens (before ++ "" :: after) (before ++ after)
  | dot (before after : List String) : Shortens (before ++ "." :: after) (before ++ after)
  | back (before after : List String) {name : String} :
      IsOnward name → Shortens (before ++ name :: ".." :: after) (before ++ after)
  | root (after : List String) : Shortens (".." :: after) after

/-- What pieces come to when they are shortened as far as they can be. -/
def NormalForm (pieces names : List String) : Prop :=
  Relation.ReflTransGen Shortens pieces names ∧ ∀ name ∈ names, IsOnward name

theorem enter_of_isOnward (names : List String) {name : String} (onward : IsOnward name) :
    enter names name = names ++ [name] := by
  rw [enter, if_pos (by simp [onward.nonempty, onward.noDot]), stepInto, if_neg onward.noDots]

theorem enter_dots (names : List String) : enter names ".." = names.dropLast := by
  rw [enter, if_pos (by decide), stepInto, if_pos rfl]

/-- Names that cannot be shortened are entered one after another. -/
theorem foldl_enter_names {names : List String} (onward : ∀ name ∈ names, IsOnward name) (above : List String) :
    names.foldl enter above = above ++ names := by
  induction names generalizing above with
  | nil => rw [List.foldl_nil, List.append_nil]
  | cons name names ih =>
    obtain ⟨atHead, atTail⟩ := List.forall_mem_cons.mp onward
    rw [List.foldl_cons, enter_of_isOnward above atHead, ih atTail, List.append_assoc, List.singleton_append]

theorem foldl_enter_of_shortens {pieces pieces' : List String} (shortens : Shortens pieces pieces') :
    pieces.foldl enter [] = pieces'.foldl enter [] := by
  cases shortens with
  | empty before after => rw [List.foldl_append, List.foldl_append, List.foldl_cons, enter, if_neg (by decide)]
  | dot before after => rw [List.foldl_append, List.foldl_append, List.foldl_cons, enter, if_neg (by decide)]
  | back before after onward =>
    rw [List.foldl_append, List.foldl_append, List.foldl_cons, List.foldl_cons,
      enter_of_isOnward _ onward, enter_dots,
      List.dropLast_concat]
  | root after => rw [List.foldl_cons, enter_dots, List.dropLast_nil]

/-- Pieces behind names shorten to what is left when they are entered one by one, and this cannot be shortened. -/
theorem reaches_foldl_enter (pieces : List String) {above : List String} (onward : ∀ name ∈ above, IsOnward name) :
    Relation.ReflTransGen Shortens (above ++ pieces) (pieces.foldl enter above) ∧
      ∀ name ∈ pieces.foldl enter above, IsOnward name := by
  induction pieces generalizing above with
  | nil =>
    rw [List.append_nil, List.foldl_nil]
    exact ⟨.refl, onward⟩
  | cons piece pieces ih =>
    rw [List.foldl_cons]
    by_cases empty : piece = ""
    · subst empty
      exact ⟨.head (.empty above pieces) (ih onward).1, (ih onward).2⟩
    by_cases dot : piece = "."
    · subst dot
      exact ⟨.head (.dot above pieces) (ih onward).1, (ih onward).2⟩
    by_cases dots : piece = ".."
    · subst dots
      rw [enter_dots]
      rcases List.eq_nil_or_concat above with rfl | ⟨before, name, rfl⟩
      · exact ⟨.head (.root pieces) (ih onward).1, (ih onward).2⟩
      · rw [List.concat_eq_append] at onward ⊢
        obtain ⟨above, atName⟩ := List.forall_mem_append.mp onward
        rw [List.dropLast_concat, List.append_assoc, List.singleton_append]
        exact ⟨.head (.back before pieces (List.forall_mem_singleton.mp atName)) (ih above).1, (ih above).2⟩
    · have atPiece : IsOnward piece := ⟨empty, dot, dots⟩
      have further := ih (List.forall_mem_append.mpr ⟨onward, List.forall_mem_singleton.mpr atPiece⟩)
      rw [List.append_assoc, List.singleton_append] at further
      rw [enter_of_isOnward above atPiece]
      exact further

theorem foldl_enter_of_reaches {pieces pieces' : List String}
    (shortens : Relation.ReflTransGen Shortens pieces pieces') :
    pieces.foldl enter [] = pieces'.foldl enter [] := by
  induction shortens with
  | refl => rfl
  | tail _ step ih => exact ih.trans (foldl_enter_of_shortens step)

/-- Pieces have one normal form, in whatever order they are shortened. -/
theorem normalForm_iff {pieces names : List String} : NormalForm pieces names ↔ names = pieces.foldl enter [] := by
  constructor
  · rintro ⟨shortens, onward⟩
    rw [foldl_enter_of_reaches shortens, foldl_enter_names onward, List.nil_append]
  · rintro rfl
    exact reaches_foldl_enter pieces (List.forall_mem_nil _)

theorem foldl_enter_subset (pieces above : List String) : pieces.foldl enter above ⊆ above ++ pieces := by
  induction pieces generalizing above with
  | nil => rw [List.append_nil]; exact List.Subset.refl _
  | cons piece pieces ih =>
    have entered : enter above piece ⊆ above ++ [piece] := by
      rw [enter, stepInto]
      split
      · split
        · exact List.subset_append_of_subset_left _ (List.dropLast_subset _)
        · exact List.Subset.refl _
      · exact List.subset_append_left _ _
    rw [List.foldl_cons, List.append_cons]
    exact List.Subset.trans (ih _) (List.append_subset.mpr ⟨List.subset_append_of_subset_left _ entered,
      List.subset_append_right _ _⟩)

theorem parts_ofString (text : String) :
    (ofString text).parts = (pieces text).filter fun part => part != "" && part != "." := rfl

theorem mem_pieces {text piece : String} (member : piece ∈ pieces text) :
    '/' ∉ piece.toList ∧ piece.toList ⊆ text.toList := by
  obtain ⟨cs, inside, rfl⟩ := List.mem_map.mp member
  have within : cs ⊆ ['/'].intercalate (text.toList.splitOn '/') := Text.subset_intercalate inside
  rw [List.intercalate_splitOn] at within
  rw [String.toList_ofList]
  exact ⟨Text.not_mem_of_mem_splitOn inside, within⟩

theorem exists_piece {c : Char} {text : String} (other : c ≠ '/') (member : c ∈ text.toList) :
    ∃ piece ∈ pieces text, c ∈ piece.toList := by
  rw [← @List.intercalate_splitOn _ text.toList _ _ '/'] at member
  obtain ⟨cs, inside, member⟩ := (Text.mem_intercalate member).resolve_left other
  exact ⟨String.ofList cs, List.mem_map_of_mem inside, by rwa [String.toList_ofList]⟩

theorem toList_intercalate (names : List String) :
    ("/".intercalate names).toList = ['/'].intercalate (names.map String.toList) :=
  String.toList_intercalate

/-- A path is written with the same characters again, but for its slashes and dots. -/
theorem mem_text_ofString {c : Char} (noSlash : c ≠ '/') (noDot : c ≠ '.') (t : String) :
    c ∈ (ofString t).text.toList ↔ c ∈ t.toList := by
  have ofStart (start : PathStart) : c ∉ start.text.toList := by cases start <;> simp [PathStart.text, noSlash]
  rw [text]
  constructor
  · intro member
    split at member
    · exact absurd (List.mem_singleton.mp member) noDot
    rw [String.toList_append, toList_intercalate] at member
    have inParts := (List.mem_append.mp member).resolve_left (ofStart _)
    obtain ⟨cs, inside, member⟩ := (Text.mem_intercalate inParts).resolve_left noSlash
    obtain ⟨part, isPart, rfl⟩ := List.mem_map.mp inside
    exact (mem_pieces (List.mem_filter.mp isPart).1).2 member
  · intro member
    obtain ⟨piece, isPiece, within⟩ := exists_piece noSlash member
    have solid : (piece != "" && piece != ".") = true := by
      rw [Bool.and_eq_true, bne_iff_ne, bne_iff_ne]
      refine ⟨?_, ?_⟩ <;> rintro rfl <;> simp_all
    have isPart : piece ∈ (ofString t).parts := List.mem_filter.mpr ⟨isPiece, solid⟩
    rw [if_neg (by simp [List.ne_nil_of_mem isPart]), String.toList_append, toList_intercalate]
    exact List.mem_append_right _ (Text.subset_intercalate (List.mem_map_of_mem isPart) within)

end FilePath

namespace AbsolutePath

variable {cwd p : AbsolutePath}

theorem IsProper.onward (proper : p.IsProper) : ∀ name ∈ p.names, FilePath.IsOnward name :=
  fun name member => (proper name member).onward

/-- A path leads to the normal form of its pieces. -/
theorem IsProper.names_resolve (proper : cwd.IsProper) (text : String) :
    ((FilePath.ofString text).resolve cwd).names = (cwd.spell text).foldl FilePath.enter [] := by
  have start : (FilePath.ofString text).start = FilePath.startOf text := rfl
  rw [FilePath.resolve, FilePath.parts_ofString, List.foldl_filter, spell, start]
  dsimp only
  split
  · rw [List.foldl_append, FilePath.foldl_enter_names proper.onward, List.nil_append]
    rfl
  · rfl

theorem IsProper.normalForm_spell_iff (proper : cwd.IsProper) (text : String) (names : List String) :
    FilePath.NormalForm (cwd.spell text) names ↔ names = ((FilePath.ofString text).resolve cwd).names := by
  rw [FilePath.normalForm_iff, proper.names_resolve]

/-- A path without NUL leads to names that directories can list. -/
theorem IsProper.resolve_ofString (proper : cwd.IsProper) {text : String} (noNul : '\x00' ∉ text.toList) :
    ((FilePath.ofString text).resolve cwd).IsProper := by
  intro name member
  rw [proper.names_resolve] at member
  have onward := (FilePath.reaches_foldl_enter (cwd.spell text) (List.forall_mem_nil _)).2 name member
  have spelled : name ∈ cwd.spell text := by simpa using FilePath.foldl_enter_subset (cwd.spell text) [] member
  have written : name ∈ cwd.names ∨ name ∈ FilePath.pieces text := by
    rw [spell] at spelled
    split at spelled
    · exact List.mem_append.mp spelled
    · exact .inr spelled
  rcases written with inCwd | inText
  · exact proper name inCwd
  · obtain ⟨noSlash, within⟩ := FilePath.mem_pieces inText
    exact ⟨onward, noSlash, fun nul => noNul (within nul)⟩

theorem toList_text (p : AbsolutePath) : p.text.toList = '/' :: ['/'].intercalate (p.names.map String.toList) := by
  have absolute : p.text = "/" ++ "/".intercalate p.names := rfl
  rw [absolute, String.toList_append, FilePath.toList_intercalate]
  rfl

theorem IsProper.noNul_text (proper : p.IsProper) : '\x00' ∉ p.text.toList := by
  rw [toList_text, List.mem_cons, not_or]
  refine ⟨by decide, fun nul => ?_⟩
  obtain ⟨cs, inside, nul⟩ := (Text.mem_intercalate nul).resolve_left (by decide)
  obtain ⟨name, member, rfl⟩ := List.mem_map.mp inside
  exact (proper name member).noNul nul

theorem IsProper.startOf_text (proper : p.IsProper) : FilePath.startOf p.text = .root := by
  rw [FilePath.startOf, toList_text]
  rcases p with ⟨_ | ⟨name, names⟩⟩
  · rfl
  · have ofHead := proper name List.mem_cons_self
    obtain ⟨c, cs, spelled⟩ := List.exists_cons_of_ne_nil (mt String.toList_eq_nil_iff.mp ofHead.onward.nonempty)
    have other : c ≠ '/' := fun same => ofHead.noSlash (by rw [spelled, same]; exact List.mem_cons_self)
    rw [List.map_cons, spelled]
    cases names with
    | nil => simp [other]
    | cons next names => simp [other]

/-- A place is read back from the text that spells it out. -/
theorem IsProper.ofString_text (proper : p.IsProper) : FilePath.ofString p.text = p.toFilePath := by
  have noSlash : ∀ piece ∈ p.names.map String.toList, '/' ∉ piece :=
    List.forall_mem_map.mpr fun name member => (proper name member).noSlash
  have solid : ∀ name ∈ p.names, (name != "" && name != ".") = true :=
    fun name member => by simp [(proper.onward name member).nonempty, (proper.onward name member).noDot]
  have parts : (FilePath.ofString p.text).parts = p.names := by
    rw [FilePath.parts_ofString, FilePath.pieces, toList_text, List.splitOn_cons_eq_if_modifyHead,
      if_pos (beq_self_eq_true _)]
    by_cases atRoot : p.names = []
    · rw [atRoot]
      decide
    · rw [List.splitOn_intercalate '/' noSlash (by simpa using atRoot), List.map_cons, List.map_map,
        List.filter_cons_of_neg (by decide)]
      simpa [Function.comp_def] using solid
  have start : (FilePath.ofString p.text).start = .root := proper.startOf_text
  rw [toFilePath, ← parts, ← start]

theorem foldl_stepInto_of_isOnward {names : List String} (onward : ∀ name ∈ names, FilePath.IsOnward name) :
    names.foldl FilePath.stepInto [] = names := by
  have solid : names.filter (fun name => name != "" && name != ".") = names :=
    List.filter_eq_self.mpr fun name member => by simp [(onward name member).nonempty, (onward name member).noDot]
  calc names.foldl FilePath.stepInto []
      = (names.filter fun name => name != "" && name != ".").foldl FilePath.stepInto [] := by rw [solid]
    _ = names.foldl FilePath.enter [] := List.foldl_filter
    _ = names := by rw [FilePath.foldl_enter_names onward, List.nil_append]

/-- The text of a place leads back to it, from whatever directory. -/
theorem IsProper.resolve_text (proper : p.IsProper) (cwd : AbsolutePath) :
    (FilePath.ofString p.text).resolve cwd = p := by
  rw [proper.ofString_text, FilePath.resolve, toFilePath]
  dsimp only
  rw [if_neg (by decide), foldl_stepInto_of_isOnward proper.onward]

theorem isWithin_iff {base : AbsolutePath} : p.isWithin base = true ↔ base.names <+: p.names :=
  List.isPrefixOf_iff_prefix

end AbsolutePath

section Validation

variable {cwd : AbsolutePath} {filepath : String}

/-- A path without NUL is admitted to the place that it leads to, or it is refused as one that leads outside. -/
theorem validatePath_eq (noNul : '\x00' ∉ filepath.toList) (base : FilePath) :
    validatePath cwd filepath base =
      if '\x00' ∉ base.text.toList ∧
          (base.resolve cwd).names <+: ((FilePath.ofString filepath).resolve cwd).names then
        .ok ((FilePath.ofString filepath).resolve cwd)
      else .error (.refused (.outside filepath)) := by
  rw [validatePath, if_neg (by simpa using noNul)]
  dsimp only
  congr 1
  rw [eq_iff_iff, Bool.and_eq_true, AbsolutePath.isWithin_iff, Bool.not_eq_true', List.contains_eq_mem,
    decide_eq_false_iff_not]

theorem noNul_of_validatePath {base : FilePath} {place : AbsolutePath}
    (admitted : validatePath cwd filepath base = .ok place) : '\x00' ∉ filepath.toList := by
  intro nul
  rw [validatePath, if_pos (by simpa using nul)] at admitted
  exact absurd admitted nofun

theorem validatePath_eq_ok (noNul : '\x00' ∉ filepath.toList) {base : FilePath} {place : AbsolutePath} :
    validatePath cwd filepath base = .ok place ↔
      place = (FilePath.ofString filepath).resolve cwd ∧ '\x00' ∉ base.text.toList ∧
        (base.resolve cwd).names <+: place.names := by
  rw [validatePath_eq noNul]
  constructor
  · intro admitted
    split at admitted
    · rename_i within
      cases admitted
      exact ⟨rfl, within⟩
    · exact absurd admitted nofun
  · rintro ⟨rfl, within⟩
    rw [if_pos within]

/-- A directory is within itself. -/
theorem validatePath_self {p : AbsolutePath} (proper : p.IsProper) (cwd : AbsolutePath) :
    validatePath cwd p.text (.ofString p.text) = .ok p := by
  have noNulInBase : '\x00' ∉ (FilePath.ofString p.text).text.toList := by
    rw [proper.ofString_text]
    exact proper.noNul_text
  have below : ((FilePath.ofString p.text).resolve cwd).names <+: p.names :=
    congrArg AbsolutePath.names (proper.resolve_text cwd) ▸ List.prefix_rfl
  exact (validatePath_eq_ok proper.noNul_text).mpr ⟨(proper.resolve_text cwd).symm, noNulInBase, below⟩

theorem message_of_validatePath (noNul : '\x00' ∉ filepath.toList) {base : FilePath} {e : ReadFailure}
    (failed : validatePath cwd filepath base = .error e) :
    ∃ r, e = .refused r ∧ r.message = "Access denied: " ++ filepath ++ " is outside allowed directory" := by
  rw [validatePath_eq noNul] at failed
  split at failed
  · exact absurd failed nofun
  · cases failed
    exact ⟨.outside filepath, rfl, rfl⟩

/-- A path is admitted just when its normal form begins with the one of the base, and then it leads to
the place with these names. The text of an admitted place is admitted to the same place. -/
theorem validatePath_iff_prefix (proper : cwd.IsProper) (noNul : '\x00' ∉ filepath.toList) (base : String) :
    ∃ names outer : List String,
      (∀ found, FilePath.NormalForm (cwd.spell filepath) found ↔ found = names) ∧
      (∀ found, FilePath.NormalForm (cwd.spell base) found ↔ found = outer) ∧
      (∀ place, validatePath cwd filepath (.ofString base) = .ok place ↔
        place.names = names ∧ '\x00' ∉ base.toList ∧ outer <+: names) ∧
      (∀ place, validatePath cwd filepath (.ofString base) = .ok place →
        place.IsProper ∧ FilePath.startOf place.text = .root ∧
          validatePath cwd place.text (.ofString base) = .ok place) ∧
      ∀ e, validatePath cwd filepath (.ofString base) = .error e →
        ∃ r, e = .refused r ∧ r.message = "Access denied: " ++ filepath ++ " is outside allowed directory" := by
  have nulOfBase := FilePath.mem_text_ofString (c := '\x00') (by decide) (by decide) base
  refine ⟨((FilePath.ofString filepath).resolve cwd).names, ((FilePath.ofString base).resolve cwd).names,
    proper.normalForm_spell_iff filepath, proper.normalForm_spell_iff base, ?_, ?_, ?_⟩
  · intro place
    rw [validatePath_eq_ok noNul, nulOfBase]
    constructor
    · rintro ⟨rfl, within⟩
      exact ⟨rfl, within⟩
    · rintro ⟨same, within⟩
      obtain rfl : place = (FilePath.ofString filepath).resolve cwd := congrArg AbsolutePath.mk same
      exact ⟨rfl, within⟩
  · intro place admitted
    obtain ⟨rfl, within⟩ := (validatePath_eq_ok noNul).mp admitted
    have properPlace := proper.resolve_ofString noNul
    refine ⟨properPlace, properPlace.startOf_text, (validatePath_eq_ok properPlace.noNul_text).mpr ⟨?_, within⟩⟩
    rw [properPlace.resolve_text]
  · exact fun e failed => message_of_validatePath noNul failed

theorem isProper_srv : (⟨["srv"]⟩ : AbsolutePath).IsProper := by
  decide

/-- A path that leaves the base and comes back. -/
theorem validatePath_back_and_forth :
    (⟨["srv"]⟩ : AbsolutePath).IsProper ∧ '\x00' ∉ "flows/../..//srv/flows/./a.flow".toList ∧
      validatePath ⟨["srv"]⟩ "flows/../..//srv/flows/./a.flow" (.ofString "./flows") =
        .ok ⟨["srv", "flows", "a.flow"]⟩ ∧
      validatePath ⟨["srv"]⟩ (AbsolutePath.text ⟨["srv", "flows", "a.flow"]⟩) (.ofString "./flows") =
        .ok ⟨["srv", "flows", "a.flow"]⟩ := by
  have noNul : '\x00' ∉ "flows/../..//srv/flows/./a.flow".toList := by decide
  obtain ⟨names, outer, inside, around, admitted, again, -⟩ := validatePath_iff_prefix isProper_srv noNul "./flows"
  obtain rfl : ["srv", "flows", "a.flow"] = names := (inside _).mp (FilePath.normalForm_iff.mpr (by cbv))
  obtain rfl : ["srv", "flows"] = outer := (around _).mp (FilePath.normalForm_iff.mpr (by cbv))
  have place := (admitted ⟨["srv", "flows", "a.flow"]⟩).mpr ⟨rfl, by decide, by decide⟩
  exact ⟨isProper_srv, noNul, place, (again _ place).2.2⟩

/-- A base with a NUL admits nothing, also where two dots take the name with the NUL back. -/
theorem validatePath_nul_in_base :
    (⟨["srv"]⟩ : AbsolutePath).IsProper ∧ '\x00' ∉ "f.txt".toList ∧
      FilePath.NormalForm (AbsolutePath.spell ⟨["srv"]⟩ "f.txt") ["srv", "f.txt"] ∧
      FilePath.NormalForm (AbsolutePath.spell ⟨["srv"]⟩ "a\x00/..") ["srv"] ∧ ["srv"] <+: ["srv", "f.txt"] ∧
      validatePath ⟨["srv"]⟩ "f.txt" (.ofString "a\x00/..") = .error (.refused (.outside "f.txt")) :=
  ⟨isProper_srv, by decide, FilePath.normalForm_iff.mpr (by cbv), FilePath.normalForm_iff.mpr (by cbv), by decide,
    by cbv⟩

end Validation

end TransferFlow
