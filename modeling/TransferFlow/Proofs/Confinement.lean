import Mathlib.Data.String.Basic
import TransferFlow.Service
import TransferFlow.Proofs.Ways

namespace TransferFlow

section Readings

variable {room : Nat} {cwd : AbsolutePath} {fs fs' : FileSystem} {feed feed' : Feed} {config : Config}
variable {filepath : String} {place : AbsolutePath} {e : ReadFailure}

theorem loadDocument_of_refused (refused : validatePath cwd filepath config.flowsDir = .error e) (fs : FileSystem)
    (feed : Feed) : loadDocument cwd fs feed config filepath = .error e := by
  rw [loadDocument, refused]
  rfl

theorem loadDocument_of_fault (admitted : validatePath cwd filepath config.flowsDir = .ok place) {f : FileFault}
    (fault : fs.lookUp place = .error f) : loadDocument cwd fs feed config filepath = .error (.unreadable f) := by
  rw [loadDocument, admitted]
  dsimp only [bind, Except.bind]
  rw [fault]

theorem loadDocument_of_nothing (admitted : validatePath cwd filepath config.flowsDir = .ok place)
    (nothing : fs.lookUp place = .ok none) :
    loadDocument cwd fs feed config filepath = .error (.refused (.notFound filepath)) := by
  rw [loadDocument, admitted]
  dsimp only [bind, Except.bind]
  rw [nothing]

theorem loadDocument_congr (admitted : validatePath cwd filepath config.flowsDir = .ok place)
    (alike : fs.lookUp place = fs'.lookUp place) (fed : feed place = feed' place) :
    loadDocument cwd fs feed config filepath = loadDocument cwd fs' feed' config filepath := by
  have told (entry : FileEntry) : entry.text feed place = entry.text feed' place := by
    rw [FileEntry.text, FileEntry.text, FileEntry.content, FileEntry.content, fed]
  rw [loadDocument, loadDocument, admitted]
  dsimp only [bind, Except.bind]
  rw [alike]
  simp only [told]

theorem readFlows_congr
    (same : loadDocument cwd fs feed config filepath = loadDocument cwd fs' feed' config filepath) :
    readFlows room cwd fs feed (.ok config) filepath = readFlows room cwd fs' feed' (.ok config) filepath := by
  have bound (visited : FileSystem) (feed : Feed) :
      ((Except.ok config).mapError ReadFailure.unconfigured >>= (loadDocument cwd visited feed · filepath)) =
        loadDocument cwd visited feed config filepath := rfl
  rw [readFlows, readFlows, bound, bound, same]

theorem readFlows_of_error (failed : loadDocument cwd fs feed config filepath = .error e) :
    readFlows room cwd fs feed (.ok config) filepath =
      { messages := ["Reading flows from " ++ filepath], outcome := .error e } := by
  have bound : ((Except.ok config).mapError ReadFailure.unconfigured >>= (loadDocument cwd fs feed · filepath)) =
      .error e := failed
  rw [readFlows, bound]

/-- What leads outside is refused without a look at what is there. -/
theorem readFlows_outside (noNul : '\x00' ∉ filepath.toList)
    (outside : ¬((FilePath.ofString filepath).resolve cwd).isWithin (config.flowsDir.resolve cwd))
    (fs : FileSystem) (feed : Feed) :
    readFlows room cwd fs feed (.ok config) filepath =
      { messages := ["Reading flows from " ++ filepath], outcome := .error (.refused (.outside filepath)) } := by
  have refused : validatePath cwd filepath config.flowsDir = .error (.refused (.outside filepath)) := by
    rw [validatePath_eq noNul, if_neg fun within => outside (AbsolutePath.isWithin_iff.mpr within.2)]
  exact readFlows_of_error (loadDocument_of_refused refused fs feed)

/-- Where the way to the configured directory is blocked, what is asked for below it is not told. -/
theorem readFlows_blocked (proper : cwd.IsProper)
    (admitted : validatePath cwd filepath config.flowsDir = .ok place)
    (blocked : ¬fs.Passable [] (config.flowsDir.resolve cwd).names) :
    ∃ f, (f = .denied ∨ f = .nameTooLong) ∧ readFlows room cwd fs feed (.ok config) filepath =
      { messages := ["Reading flows from " ++ filepath], outcome := .error (.unreadable f) } := by
  have noNul := noNul_of_validatePath admitted
  obtain ⟨rfl, -, rest, spelled⟩ := (validatePath_eq_ok noNul).mp admitted
  have cannot : ¬fs.CanLookUp ((FilePath.ofString filepath).resolve cwd) := fun canLookUp =>
    blocked fun f blocks => canLookUp.way f (spelled ▸ FileSystem.blocks_append.mpr (.inl blocks))
  obtain ⟨f, fault, cause⟩ := FileSystem.lookUp_of_not_canLookUp (proper.resolve_ofString noNul).onward cannot
  exact ⟨f, cause.elim .inr FileSystem.Blocks.cause, readFlows_of_error (loadDocument_of_fault admitted fault)⟩

/-- The configured directory, and what stands at it and below, decide what a reading tells, if nothing
blocks the way there: each directory above may be searched, and none is searched for too long a name.
Where the way is blocked, a reading tells so and no more. What leads outside is refused in the same
words, whatever there is. -/
theorem readFlows_confined (proper : cwd.IsProper) {config : Except ConfigError Config}
    (agree : ∀ c, config = .ok c → FileSystem.AgreeBelow (c.flowsDir.resolve cwd) fs fs' ∧
      ∀ p : AbsolutePath, p.isWithin (c.flowsDir.resolve cwd) = true → feed p = feed' p)
    (room : Nat) (filepath : String) :
    (readFlows room cwd fs feed config filepath = readFlows room cwd fs' feed' config filepath ∨
      ∃ c place, config = .ok c ∧ validatePath cwd filepath c.flowsDir = .ok place ∧
        ∃ visited ∈ [fs, fs'], ¬visited.Passable [] (c.flowsDir.resolve cwd).names) ∧
      (∀ c place, config = .ok c → validatePath cwd filepath c.flowsDir = .ok place →
        ∀ (visited : FileSystem) (fed : Feed), ¬visited.Passable [] (c.flowsDir.resolve cwd).names →
          ∃ f, (f = .denied ∨ f = .nameTooLong) ∧ readFlows room cwd visited fed config filepath =
            { messages := ["Reading flows from " ++ filepath], outcome := .error (.unreadable f) }) ∧
      ∀ c, config = .ok c → '\x00' ∉ filepath.toList →
        ¬((FilePath.ofString filepath).resolve cwd).isWithin (c.flowsDir.resolve cwd) →
        ∀ (visited : FileSystem) (fed : Feed), readFlows room cwd visited fed config filepath =
          { messages := ["Reading flows from " ++ filepath]
            outcome := .error (.refused (.outside filepath)) } := by
  cases config with
  | error e => exact ⟨.inl rfl, nofun, nofun⟩
  | ok c =>
    obtain ⟨agree, fed⟩ := agree c rfl
    refine ⟨?_, ?_, ?_⟩
    · cases admitted : validatePath cwd filepath c.flowsDir with
      | error e =>
        exact .inl (readFlows_congr (by rw [loadDocument_of_refused admitted, loadDocument_of_refused admitted]))
      | ok place =>
        by_cases ways : ∀ visited ∈ [fs, fs'], visited.Passable [] (c.flowsDir.resolve cwd).names
        · have noNul := noNul_of_validatePath admitted
          obtain ⟨rfl, -, within⟩ := (validatePath_eq_ok noNul).mp admitted
          obtain ⟨way, way', -⟩ := (List.forall_mem_cons.mp ways).imp_right List.forall_mem_cons.mp
          exact .inl (readFlows_congr (loadDocument_congr admitted
            (agree.lookUp_eq (proper.resolve_ofString noNul).onward within way way')
            (fed _ (AbsolutePath.isWithin_iff.mpr within))))
        · obtain ⟨visited, member, blocked⟩ := not_forall₂.mp ways
          exact .inr ⟨c, place, rfl, admitted, visited, member, blocked⟩
    · rintro _ place ⟨rfl⟩ admitted visited fed blocked
      exact readFlows_blocked proper admitted blocked
    · rintro _ ⟨rfl⟩ noNul outside visited fed
      exact readFlows_outside noNul outside visited fed

end Readings

/-- No special file yields anything. -/
def Feed.dry : Feed :=
  fun _ => .error .unavailable

/-- Every special file yields the same text. -/
def Feed.always (text : String) : Feed :=
  fun _ => .ok text.toUTF8

/-- A file with a text in it. -/
def FileEntry.ofText (text : String) : FileEntry :=
  { kind := .regular text.toUTF8, readable := true }

def FileEntry.folder (searchable : Bool) : FileEntry :=
  { kind := .directory 4096 searchable, readable := true }

namespace FileSystem

/-- One entry, and alike directories on the way to it. -/
def holding (place : AbsolutePath) (proper : place.IsProper) (further : place.names ≠ []) (searchable : Bool)
    (e : FileEntry) : FileSystem where
  entryAt? p := if p = place then some e else if place.isWithin p then some (.folder searchable) else none
  root := by
    rw [if_neg fun same => further (congrArg AbsolutePath.names same).symm, if_pos]
    · rfl
    · exact AbsolutePath.isWithin_iff.mpr List.nil_prefix
  above {names name} visible := by
    have isPrefix : names ++ [name] <+: place.names := by
      split at visible
      · rename_i same
        exact congrArg AbsolutePath.names same ▸ List.prefix_rfl
      · split at visible
        · rename_i within
          exact AbsolutePath.isWithin_iff.mp within
        · cases visible
    have shorter := isPrefix.length_le
    rw [List.length_append, List.length_singleton] at shorter
    refine ⟨proper name (isPrefix.subset (List.mem_append_right _ (List.mem_singleton_self name))), ?_⟩
    rw [if_neg, if_pos]
    · rfl
    · exact AbsolutePath.isWithin_iff.mpr ((List.prefix_append _ _).trans isPrefix)
    · rintro rfl
      exact absurd shorter (Nat.not_succ_le_self _)

/-- One entry more, in a directory that has none of that name. -/
def add (fs : FileSystem) (names : List String) (name : String) (isName : IsName name)
    (inside : (fs.entryAt? ⟨names⟩).any FileEntry.isDirectory = true) (free : fs.entryAt? ⟨names ++ [name]⟩ = none)
    (e : FileEntry) : FileSystem where
  entryAt? p := if p = ⟨names ++ [name]⟩ then some e else fs.entryAt? p
  root := by
    rw [if_neg (by simp)]
    exact fs.root
  above {names' name'} visible := by
    have other (directory : (fs.entryAt? ⟨names'⟩).any FileEntry.isDirectory = true) :
        (⟨names'⟩ : AbsolutePath) ≠ ⟨names ++ [name]⟩ := by
      intro same
      rw [same, free] at directory
      cases directory
    split at visible
    · rename_i same
      obtain ⟨rfl, ⟨⟩⟩ := List.append_inj' (congrArg AbsolutePath.names same) rfl
      rw [if_neg (other inside)]
      exact ⟨isName, inside⟩
    · obtain ⟨isName, inside⟩ := fs.above visible
      rw [if_neg (other inside)]
      exact ⟨isName, inside⟩

section Holding

variable {place p : AbsolutePath} {proper : place.IsProper} {further : place.names ≠ []} {searchable : Bool}
variable {e : FileEntry}

theorem entryAt?_holding : (holding place proper further searchable e).entryAt? place = some e :=
  if_pos rfl

theorem entryAt?_holding_of_longer (longer : place.names.length < p.names.length) :
    (holding place proper further searchable e).entryAt? p = none := by
  have notWithin : ¬place.isWithin p = true := fun within =>
    absurd (AbsolutePath.isWithin_iff.mp within).length_le (Nat.not_le.mpr longer)
  have other : p ≠ place := by
    rintro rfl
    exact absurd longer (Nat.lt_irrefl _)
  exact (if_neg other).trans (if_neg notWithin)

theorem isOpen_holding (isOpen : e.isOpen = true) : (holding place proper further true e).IsOpen := by
  intro p found atPlace
  change (if p = place then some e else if place.isWithin p then some (.folder true) else none) =
    some found at atPlace
  split at atPlace
  · cases atPlace
    exact isOpen
  · split at atPlace
    · cases atPlace
      rfl
    · cases atPlace

end Holding

theorem isOpen_add {fs : FileSystem} {names : List String} {name : String} {isName : IsName name}
    {inside : (fs.entryAt? ⟨names⟩).any FileEntry.isDirectory = true} {free : fs.entryAt? ⟨names ++ [name]⟩ = none}
    {e : FileEntry} (isOpen : fs.IsOpen) (also : e.isOpen = true) :
    (fs.add names name isName inside free e).IsOpen := by
  intro p found atPlace
  change (if p = ⟨names ++ [name]⟩ then some e else fs.entryAt? p) = some found at atPlace
  split at atPlace
  · cases atPlace
    exact also
  · exact isOpen p found atPlace

end FileSystem

/-- A working directory `srv` whose directory of flows is read. -/
def Config.srvFlows : Config :=
  .make ⟨["srv"]⟩ (some "flows") none (some 100)

theorem Config.resolve_srvFlows : srvFlows.flowsDir.resolve ⟨["srv"]⟩ = ⟨["srv", "flows"]⟩ := by
  cbv

/-- The directory of flows with one entry in it. -/
def FileSystem.srvFlow (e : FileEntry) : FileSystem :=
  holding ⟨["srv", "flows", "a.flow"]⟩ (by decide) (List.cons_ne_nil _ _) true e

/-- A file beside the directory of flows. -/
def FileSystem.besideSecret : FileSystem :=
  (srvFlow (.ofText "A -> (FTP PUSH -> B)")).add ["srv"] "secret.txt" (by decide) rfl rfl (.ofText "A")

theorem FileSystem.agreeBelow_besideSecret :
    AgreeBelow ⟨["srv", "flows"]⟩ (srvFlow (.ofText "A -> (FTP PUSH -> B)")) besideSecret := by
  intro p within
  have other : p ≠ ⟨["srv"] ++ ["secret.txt"]⟩ := by
    rintro rfl
    exact absurd within (by decide)
  exact (if_neg other).symm

/-- A file beside the directory of flows tells nothing, neither when a flow is read nor when it is asked for. -/
theorem readFlows_beside_secret :
    (⟨["srv"]⟩ : AbsolutePath).IsProper ∧
      FileSystem.AgreeBelow (Config.srvFlows.flowsDir.resolve ⟨["srv"]⟩) (.srvFlow (.ofText "A -> (FTP PUSH -> B)"))
        .besideSecret ∧
      readFlows 490 ⟨["srv"]⟩ (.srvFlow (.ofText "A -> (FTP PUSH -> B)")) .dry (.ok .srvFlows)
        "flows/../flows/a.flow" =
        readFlows 490 ⟨["srv"]⟩ .besideSecret .dry (.ok .srvFlows) "flows/../flows/a.flow" ∧
      readFlows 490 ⟨["srv"]⟩ .besideSecret .dry (.ok .srvFlows) "flows/../secret.txt" =
        { messages := ["Reading flows from flows/../secret.txt"],
          outcome := .error (.refused (.outside "flows/../secret.txt")) } := by
  have agree : FileSystem.AgreeBelow (Config.srvFlows.flowsDir.resolve ⟨["srv"]⟩)
      (.srvFlow (.ofText "A -> (FTP PUSH -> B)")) .besideSecret := by
    rw [Config.resolve_srvFlows]
    exact FileSystem.agreeBelow_besideSecret
  have agreeFor : ∀ c, (.ok .srvFlows : Except ConfigError Config) = .ok c →
      FileSystem.AgreeBelow (c.flowsDir.resolve ⟨["srv"]⟩)
        (.srvFlow (.ofText "A -> (FTP PUSH -> B)")) .besideSecret ∧
        ∀ p : AbsolutePath, p.isWithin (c.flowsDir.resolve ⟨["srv"]⟩) = true → Feed.dry p = Feed.dry p := by
    rintro _ ⟨rfl⟩
    exact ⟨agree, fun _ _ => rfl⟩
  have confined := readFlows_confined isProper_srv agreeFor 490
  have isOpen : ∀ visited ∈ [.srvFlow (.ofText "A -> (FTP PUSH -> B)"), .besideSecret], FileSystem.IsOpen visited :=
    List.forall_mem_cons.mpr ⟨FileSystem.isOpen_holding rfl,
      List.forall_mem_singleton.mpr (FileSystem.isOpen_add (FileSystem.isOpen_holding rfl) rfl)⟩
  refine ⟨isProper_srv, agree, ?_, ?_⟩
  · refine (confined "flows/../flows/a.flow").1.resolve_right ?_
    rintro ⟨_, _, ⟨⟩, -, visited, member, blocked⟩
    rw [Config.resolve_srvFlows] at blocked
    exact blocked ((isOpen visited member).passable (by decide) [])
  · refine (confined "flows/../secret.txt").2.2 .srvFlows rfl (by decide) ?_ .besideSecret .dry
    have elsewhere : ((FilePath.ofString "flows/../secret.txt").resolve ⟨["srv"]⟩).names =
        ["srv", "secret.txt"] := by
      cbv
    rw [Config.resolve_srvFlows, AbsolutePath.isWithin_iff, elsewhere]
    decide

/-- A name of one byte too many. -/
def overlongName : String :=
  String.ofList (List.replicate 64 '𝑛')

theorem toList_overlongName : overlongName.toList = List.replicate 64 '𝑛' :=
  String.toList_ofList

theorem utf8ByteSize_overlongName : overlongName.utf8ByteSize = maxNameBytes + 1 := by
  rw [← String.utf8Len_toList, toList_overlongName]
  rfl

theorem isName_overlongName : IsName overlongName := by
  have long : ∀ short : String, short.length < 64 → overlongName ≠ short := by
    rintro _ few rfl
    rw [← String.length_toList, toList_overlongName, List.length_replicate] at few
    exact absurd few (by decide)
  refine ⟨⟨long _ (by decide), long _ (by decide), long _ (by decide)⟩, ?_, ?_⟩
  · rw [toList_overlongName, List.mem_replicate]
    decide
  · rw [toList_overlongName, List.mem_replicate]
    decide

theorem FileEntry.obstacle?_overlongName : (folder true).obstacle? overlongName = some .nameTooLong := by
  have long : maxNameBytes < overlongName.utf8ByteSize := by
    rw [utf8ByteSize_overlongName]
    exact Nat.lt_succ_self _
  rw [obstacle?, folder]
  dsimp only
  rw [if_neg isName_overlongName.onward.nonempty, if_neg (by decide), if_pos long]

/-- A place below a name of one byte too many. -/
def AbsolutePath.belowOverlong : AbsolutePath :=
  ⟨["a", overlongName, "b"]⟩

theorem AbsolutePath.isProper_belowOverlong : belowOverlong.IsProper :=
  List.forall_mem_cons.mpr ⟨by decide, List.forall_mem_cons.mpr ⟨isName_overlongName, by decide⟩⟩

theorem AbsolutePath.utf8ByteSize_belowOverlong : belowOverlong.text.utf8ByteSize ≤ maxPathBytes := by
  rw [← String.utf8Len_toList, toList_text, belowOverlong, List.map_cons, List.map_cons, toList_overlongName]
  decide

/-- Documents are configured to stand below too long a name. -/
def Config.belowOverlong : Config :=
  .make ⟨["srv"]⟩ (some AbsolutePath.belowOverlong.text) none (some 100)

theorem Config.flowsDir_belowOverlong : belowOverlong.flowsDir = .ofString AbsolutePath.belowOverlong.text := by
  rw [belowOverlong, make, Option.map_some, Option.getD_some]

/-- A file system without a directory `a`. -/
def FileSystem.withoutA : FileSystem :=
  holding ⟨["b"]⟩ (by decide) (List.cons_ne_nil _ _) true (.folder true)

/-- A file system with an empty directory `a`. -/
def FileSystem.withA : FileSystem :=
  holding ⟨["a"]⟩ (by decide) (List.cons_ne_nil _ _) true (.folder true)

theorem FileSystem.lookUp_withoutA : withoutA.lookUp .belowOverlong = .ok none := by
  have way : withoutA.Passable [] AbsolutePath.belowOverlong.names := by
    intro f blocks
    rcases blocks_cons.mp blocks with ⟨e, ⟨⟩, -, obstacle⟩ | blocks
    · cases obstacle
    · exact not_blocks_of_noDirectory rfl blocks
  rw [lookUp_of_canLookUp AbsolutePath.isProper_belowOverlong.onward ⟨AbsolutePath.utf8ByteSize_belowOverlong, way⟩]
  exact congrArg Except.ok (entryAt?_holding_of_longer (by decide))

theorem FileSystem.lookUp_withA : withA.lookUp .belowOverlong = .error .nameTooLong := by
  have blocks : withA.Blocks [] AbsolutePath.belowOverlong.names .nameTooLong :=
    blocks_cons.mpr (.inr (blocks_cons.mpr (.inl ⟨.folder true, rfl, rfl, FileEntry.obstacle?_overlongName⟩)))
  obtain ⟨f, fault, cause⟩ := lookUp_of_not_canLookUp AbsolutePath.isProper_belowOverlong.onward
    fun canLookUp => canLookUp.way _ blocks
  rw [fault, cause.elim id fun blocks => (blocks.of_isOpen (isOpen_holding rfl)).1]

/-- An empty directory of flows in a directory that may be searched or not. -/
def FileSystem.emptyFlows (searchable : Bool) : FileSystem :=
  holding ⟨["srv", "flows"]⟩ (by decide) (List.cons_ne_nil _ _) searchable (.folder true)

theorem FileSystem.agreeBelow_emptyFlows : AgreeBelow ⟨["srv", "flows"]⟩ (emptyFlows true) (emptyFlows false) := by
  intro p within
  obtain ⟨rest, spelled⟩ := AbsolutePath.isWithin_iff.mp within
  obtain rfl : p = ⟨["srv", "flows"] ++ rest⟩ := congrArg AbsolutePath.mk spelled.symm
  cases rest with
  | nil => exact entryAt?_holding.trans entryAt?_holding.symm
  | cons name rest =>
    have longer : ["srv", "flows"].length < (["srv", "flows"] ++ name :: rest).length := by simp
    exact (entryAt?_holding_of_longer longer).trans (entryAt?_holding_of_longer longer).symm

/-- Where something blocks the way to the configured directory, a reading tells what is above: whether a
directory is there that is searched for too long a name, and whether a directory may be searched. -/
theorem readFlows_tells_what_blocks :
    (⟨["srv"]⟩ : AbsolutePath).IsProper ∧
      (FileSystem.AgreeBelow (Config.belowOverlong.flowsDir.resolve ⟨["srv"]⟩) .withoutA .withA ∧
        (readFlows 490 ⟨["srv"]⟩ .withoutA .dry (.ok .belowOverlong) AbsolutePath.belowOverlong.text).outcome =
          .error (.refused (.notFound AbsolutePath.belowOverlong.text)) ∧
        (readFlows 490 ⟨["srv"]⟩ .withA .dry (.ok .belowOverlong) AbsolutePath.belowOverlong.text).outcome =
          .error (.unreadable .nameTooLong)) ∧
      FileSystem.AgreeBelow (Config.srvFlows.flowsDir.resolve ⟨["srv"]⟩) (.emptyFlows true) (.emptyFlows false) ∧
        (readFlows 490 ⟨["srv"]⟩ (.emptyFlows true) .dry (.ok .srvFlows) "flows").outcome =
          .error (.refused (.unsupportedFormat "")) ∧
        (readFlows 490 ⟨["srv"]⟩ (.emptyFlows false) .dry (.ok .srvFlows) "flows").outcome =
          .error (.unreadable .denied) := by
  have admitted := validatePath_self AbsolutePath.isProper_belowOverlong ⟨["srv"]⟩
  rw [← Config.flowsDir_belowOverlong] at admitted
  refine ⟨isProper_srv, ⟨?_, ?_, ?_⟩, ?_, ?_, ?_⟩
  · rw [Config.flowsDir_belowOverlong, AbsolutePath.isProper_belowOverlong.resolve_text]
    intro p within
    have length := (AbsolutePath.isWithin_iff.mp within).length_le
    exact (FileSystem.entryAt?_holding_of_longer (Nat.lt_of_lt_of_le (by decide) length)).trans
      (FileSystem.entryAt?_holding_of_longer (Nat.lt_of_lt_of_le (by decide) length)).symm
  · rw [readFlows_of_error (loadDocument_of_nothing admitted FileSystem.lookUp_withoutA)]
  · rw [readFlows_of_error (loadDocument_of_fault admitted FileSystem.lookUp_withA)]
  · rw [Config.resolve_srvFlows]
    exact FileSystem.agreeBelow_emptyFlows
  · cbv
  · cbv

end TransferFlow
