import Mathlib.Order.WellFounded
import TransferFlow.Proofs.Confinement
import TransferFlow.Proofs.SettingsHistory

namespace TransferFlow

section Decoding

theorem fromUTF8?_eq_some {bytes : ByteArray} {text : String} :
    String.fromUTF8? bytes = some text ↔ text.toUTF8 = bytes := by
  unfold String.fromUTF8?
  constructor
  · intro reads
    split at reads
    · cases reads
      rfl
    · exact absurd reads nofun
  · rintro rfl
    rw [String.toUTF8_eq_toByteArray, dif_pos text.isValidUTF8]
    rfl

theorem decodeDocument_toUTF8 (text : String) :
    decodeDocument text.toUTF8 = .ok (String.ofList (Text.unifyLineBreaks text.toList)) := by
  rw [decodeDocument, fromUTF8?_eq_some.mpr rfl]

theorem FileEntry.text_of_content {e : FileEntry} {feed : Feed} {p : AbsolutePath} {text : String}
    (yields : e.content feed p = .ok text.toUTF8) :
    e.text feed p = .ok (String.ofList (Text.unifyLineBreaks text.toList)) := by
  rw [FileEntry.text, yields]
  exact decodeDocument_toUTF8 text

theorem decodeDocument_of_noText {bytes : ByteArray} (noText : ∀ text : String, text.toUTF8 ≠ bytes) :
    decodeDocument bytes = .error .notText := by
  have unread : String.fromUTF8? bytes = none :=
    Option.eq_none_iff_forall_ne_some.mpr fun text reads => noText text (fromUTF8?_eq_some.mp reads)
  rw [decodeDocument, unread]

end Decoding

/-- The checks of a document. -/
inductive DocumentCheck where
  | access
  | length
  | existence
  | format
  | size
  | content
  deriving DecidableEq, Repr

namespace DocumentCheck

/-- The checks as they follow one another. -/
def inOrder : List DocumentCheck :=
  [.access, .length, .existence, .format, .size, .content]

def IsBefore (earlier later : DocumentCheck) : Prop :=
  inOrder.idxOf earlier < inOrder.idxOf later

instance (earlier later : DocumentCheck) : Decidable (earlier.IsBefore later) :=
  inferInstanceAs (Decidable (_ < _))

section Outcome

variable (cwd : AbsolutePath) (fs : FileSystem) (feed : Feed) (config : Config) (filepath : String)
variable (place : AbsolutePath)

/-- What a place and what stands there must be like to pass a check. -/
def Passes : DocumentCheck → Prop
  | access => '\x00' ∉ config.flowsDir.text.toList ∧ place.isWithin (config.flowsDir.resolve cwd) = true
  | length => fs.CanLookUp place
  | existence => ∃ e, fs.entryAt? place = some e
  | format => ∃ extension ∈ config.allowedExtensions,
      Text.lower extension.toList = Text.lower place.toFilePath.suffix
  | size => ∃ limit, config.maxFileSize = some limit ∧ ∀ e, fs.entryAt? place = some e → (e.size : Int) ≤ limit
  | content => ∃ e, fs.entryAt? place = some e ∧ ∃ text : String, e.content feed place = .ok text.toUTF8

/-- The check fails, and none before it does. -/
structure FailsFirst (check : DocumentCheck) : Prop where
  fails : ¬check.Passes cwd fs feed config place
  before : ∀ earlier : DocumentCheck, earlier.IsBefore check → earlier.Passes cwd fs feed config place

/-- What is reported where a check fails. -/
def failure : DocumentCheck → ReadFailure
  | access => .refused (.outside filepath)
  | length => .unreadable .nameTooLong
  | existence => .refused (.notFound filepath)
  | format => .refused (.unsupportedFormat (String.ofList place.toFilePath.suffix))
  | size =>
    match config.maxFileSize with
    | none => .noSizeLimit
    | some limit => .refused (.tooLarge filepath limit)
  | content =>
    match (fs.entryAt? place).map (FileEntry.content feed place) with
    | some (.error f) => .unreadable f
    | _ => .unreadable .notText

end Outcome

/-- What a check reports are refusals and what hinders a reading. -/
theorem report_failure {fs : FileSystem} {feed : Feed} {config : Config} {filepath : String} {place : AbsolutePath}
    (check : DocumentCheck) (describe : ReadFailure → String) :
    (∃ r, check.failure fs feed config filepath place = .refused r ∧
        (check.failure fs feed config filepath place).report describe = r.message) ∨
      (check.failure fs feed config filepath place).report describe =
        "Error reading flows: " ++ describe (check.failure fs feed config filepath place) := by
  cases check with
  | access | existence | format => exact .inl ⟨_, rfl, rfl⟩
  | length => exact .inr rfl
  | size =>
    rw [failure]
    split
    · exact .inr rfl
    · exact .inl ⟨_, rfl, rfl⟩
  | content =>
    rw [failure]
    split <;> exact .inr rfl

theorem passes_or_failsFirst (cwd : AbsolutePath) (fs : FileSystem) (feed : Feed) (config : Config)
    (place : AbsolutePath) :
    (∀ check : DocumentCheck, check.Passes cwd fs feed config place) ∨
      ∃ check : DocumentCheck, check.FailsFirst cwd fs feed config place := by
  by_cases all : ∀ check : DocumentCheck, check.Passes cwd fs feed config place
  · exact .inl all
  · -- Among the checks that fail, the one with the least place in the order is the first.
    obtain ⟨check, fails, least⟩ := (measure inOrder.idxOf).wf.has_min
      {check | ¬check.Passes cwd fs feed config place} (not_forall.mp all)
    exact .inr ⟨check, fails, fun earlier isBefore => not_not.mp fun alsoFails => least earlier alsoFails isBefore⟩

theorem FailsFirst.of_tooLong {cwd : AbsolutePath} {fs : FileSystem} {feed : Feed} {config : Config}
    {place : AbsolutePath} (access : DocumentCheck.access.Passes cwd fs feed config place)
    (tooLong : ¬fs.CanLookUp place) : DocumentCheck.length.FailsFirst cwd fs feed config place := by
  refine ⟨tooLong, ?_⟩
  rintro (_ | _ | _ | _ | _ | _) isBefore
  · exact access
  all_goals exact absurd isBefore (by decide)

end DocumentCheck

theorem Config.isAllowedFile_iff {config : Config} {p : FilePath} :
    config.isAllowedFile p = true ↔
      ∃ extension ∈ config.allowedExtensions, Text.lower extension.toList = Text.lower p.suffix := by
  rw [isAllowedFile, List.contains_iff_mem, List.mem_map]

section Loading

variable {cwd : AbsolutePath} {fs : FileSystem} {feed : Feed} {config : Config} {filepath : String}
variable {place : AbsolutePath} {e : FileEntry}
variable (proper : cwd.IsProper) (noNul : '\x00' ∉ filepath.toList)
variable (leads : (FilePath.ofString filepath).resolve cwd = place)

include noNul leads

theorem validatePath_of_passes (access : DocumentCheck.access.Passes cwd fs feed config place) :
    validatePath cwd filepath config.flowsDir = .ok place :=
  (validatePath_eq_ok noNul).mpr ⟨leads.symm, access.1, AbsolutePath.isWithin_iff.mp access.2⟩

theorem validatePath_of_fails (fails : ¬DocumentCheck.access.Passes cwd fs feed config place) :
    validatePath cwd filepath config.flowsDir = .error (.refused (.outside filepath)) := by
  rw [validatePath_eq noNul, leads, if_neg fun access => fails ⟨access.1, AbsolutePath.isWithin_iff.mpr access.2⟩]

include proper

/-- What stands at an admitted place is judged by its format, its size and its content, in this order. -/
theorem loadDocument_of_entry (access : DocumentCheck.access.Passes cwd fs feed config place)
    (length : DocumentCheck.length.Passes cwd fs feed config place) (found : fs.entryAt? place = some e) :
    loadDocument cwd fs feed config filepath =
      if config.isAllowedFile place.toFilePath then
        match config.maxFileSize with
        | none => .error .noSizeLimit
        | some limit =>
          if (e.size : Int) ≤ limit then (e.text feed place).mapError .unreadable
          else .error (.refused (.tooLarge filepath limit))
      else .error (.refused (.unsupportedFormat (String.ofList place.toFilePath.suffix))) := by
  have onward : ∀ name ∈ place.names, FilePath.IsOnward name := leads ▸ (proper.resolve_ofString noNul).onward
  rw [loadDocument, validatePath_of_passes noNul leads access]
  dsimp only [bind, Except.bind]
  rw [FileSystem.lookUp_of_canLookUp onward length, found]
  dsimp only
  cases config.isAllowedFile place.toFilePath with
  | false => rfl
  | true =>
    cases config.maxFileSize with
    | none => rfl
    | some limit =>
      by_cases fits : (e.size : Int) ≤ limit
      · simp [fits, Int.not_lt.mpr fits]
      · simp [fits]

/-- What has an allowed format is judged by its size and its content. -/
theorem loadDocument_of_allowed (access : DocumentCheck.access.Passes cwd fs feed config place)
    (length : DocumentCheck.length.Passes cwd fs feed config place) (found : fs.entryAt? place = some e)
    (format : DocumentCheck.format.Passes cwd fs feed config place) :
    loadDocument cwd fs feed config filepath =
      match config.maxFileSize with
      | none => .error .noSizeLimit
      | some limit =>
        if (e.size : Int) ≤ limit then (e.text feed place).mapError .unreadable
        else .error (.refused (.tooLarge filepath limit)) := by
  rw [loadDocument_of_entry proper noNul leads access length found, if_pos (Config.isAllowedFile_iff.mpr format)]

/-- Where everything may be read, nothing but the length of a path or of its names keeps it from being looked up. -/
theorem loadDocument_of_tooLong (isOpen : fs.IsOpen) (access : DocumentCheck.access.Passes cwd fs feed config place)
    (tooLong : ¬DocumentCheck.length.Passes cwd fs feed config place) :
    loadDocument cwd fs feed config filepath = .error (.unreadable .nameTooLong) := by
  have onward : ∀ name ∈ place.names, FilePath.IsOnward name := leads ▸ (proper.resolve_ofString noNul).onward
  obtain ⟨f, fault, cause⟩ := FileSystem.lookUp_of_not_canLookUp onward tooLong
  obtain rfl : f = .nameTooLong := cause.elim id fun blocks => (blocks.of_isOpen isOpen).1
  exact loadDocument_of_fault (validatePath_of_passes noNul leads access) fault

theorem loadDocument_of_missing (access : DocumentCheck.access.Passes cwd fs feed config place)
    (length : DocumentCheck.length.Passes cwd fs feed config place)
    (missing : ¬DocumentCheck.existence.Passes cwd fs feed config place) :
    loadDocument cwd fs feed config filepath = .error (.refused (.notFound filepath)) := by
  have onward : ∀ name ∈ place.names, FilePath.IsOnward name := leads ▸ (proper.resolve_ofString noNul).onward
  have nothing : fs.entryAt? place = none :=
    Option.eq_none_iff_forall_ne_some.mpr fun e found => missing ⟨e, found⟩
  refine loadDocument_of_nothing (validatePath_of_passes noNul leads access) ?_
  rw [FileSystem.lookUp_of_canLookUp onward length, nothing]

/-- The failure of the first check that fails is all that is told. -/
theorem loadDocument_of_failsFirst (isOpen : fs.IsOpen) {check : DocumentCheck}
    (first : check.FailsFirst cwd fs feed config place) :
    loadDocument cwd fs feed config filepath = .error (check.failure fs feed config filepath place) := by
  obtain ⟨fails, before⟩ := first
  cases check with
  | access => exact loadDocument_of_refused (validatePath_of_fails noNul leads fails) fs feed
  | length => exact loadDocument_of_tooLong proper noNul leads isOpen (before .access (by decide)) fails
  | existence =>
    exact loadDocument_of_missing proper noNul leads (before .access (by decide)) (before .length (by decide)) fails
  | format =>
    obtain ⟨e, found⟩ := before .existence (by decide)
    rw [loadDocument_of_entry proper noNul leads (before .access (by decide)) (before .length (by decide)) found,
      if_neg (Config.isAllowedFile_iff.not.mpr fails), DocumentCheck.failure]
  | size =>
    obtain ⟨e, found⟩ := before .existence (by decide)
    rw [loadDocument_of_allowed proper noNul leads (before .access (by decide)) (before .length (by decide)) found
      (before .format (by decide)), DocumentCheck.failure]
    cases limited : config.maxFileSize with
    | none => rfl
    | some limit =>
      have tooLarge : ¬(e.size : Int) ≤ limit := by
        intro fits
        refine fails ⟨limit, limited, fun e' found' => ?_⟩
        rw [found] at found'
        cases found'
        exact fits
      dsimp only
      rw [if_neg tooLarge]
  | content =>
    obtain ⟨e, found⟩ := before .existence (by decide)
    obtain ⟨limit, limited, fits⟩ := before .size (by decide)
    rw [loadDocument_of_allowed proper noNul leads (before .access (by decide)) (before .length (by decide)) found
      (before .format (by decide)), limited, DocumentCheck.failure, found]
    dsimp only [Option.map_some]
    rw [if_pos (fits e found), FileEntry.text]
    cases yields : e.content feed place with
    | error f => rfl
    | ok bytes =>
      have noText : ∀ text : String, text.toUTF8 ≠ bytes := by
        rintro text rfl
        exact fails ⟨e, found, text, yields⟩
      dsimp only [bind, Except.bind]
      rw [decodeDocument_of_noText noText]
      rfl

/-- A text that passes all checks is handed out with unified line breaks. -/
theorem loadDocument_of_passes {text : String}
    (passes : ∀ check : DocumentCheck, check.Passes cwd fs feed config place)
    (found : fs.entryAt? place = some e) (yields : e.content feed place = .ok text.toUTF8) :
    loadDocument cwd fs feed config filepath = .ok (String.ofList (Text.unifyLineBreaks text.toList)) := by
  obtain ⟨limit, limited, fits⟩ := passes .size
  rw [loadDocument_of_allowed proper noNul leads (passes .access) (passes .length) found (passes .format), limited]
  dsimp only
  rw [if_pos (fits _ found), FileEntry.text_of_content yields]
  rfl

/-- A document is handed out, or there is a first check that it fails. -/
theorem loadDocument_cases (isOpen : fs.IsOpen) (feed : Feed) (config : Config) :
    (∀ check : DocumentCheck, check.Passes cwd fs feed config place) ∧ (∃ e, fs.entryAt? place = some e ∧
        ∃ text : String, e.content feed place = .ok text.toUTF8 ∧
          loadDocument cwd fs feed config filepath = .ok (String.ofList (Text.unifyLineBreaks text.toList))) ∨
      ∃ check : DocumentCheck, check.FailsFirst cwd fs feed config place ∧
        loadDocument cwd fs feed config filepath = .error (check.failure fs feed config filepath place) := by
  rcases DocumentCheck.passes_or_failsFirst cwd fs feed config place with passes | ⟨check, first⟩
  · obtain ⟨e, found, text, yields⟩ := passes .content
    exact .inl ⟨passes, e, found, text, yields, loadDocument_of_passes proper noNul leads passes found yields⟩
  · exact .inr ⟨check, first, loadDocument_of_failsFirst proper noNul leads isOpen first⟩

end Loading

/-- Asking for the configuration changes no later answer. -/
theorem Settings.get_get (cwd : AbsolutePath) (s : Settings) : ((s.get cwd).2.get cwd).1 = (s.get cwd).1 := by
  cases active : s.active with
  | some a => rw [get_of_active active, get_of_active active]
  | none =>
    cases described : Config.ofEnvironment cwd s.environment with
    | error e => rw [get_of_error active described, get_of_error active described]
    | ok c => rw [get_of_ok active described, get_of_active rfl]

/-- Files, and the settings that say which of them are read. -/
structure Session where
  files : FileSystem
  settings : Settings

namespace Session

variable (room : Nat) (cwd : AbsolutePath)

/-- A reading under the configuration in force, and the session behind it. -/
def read (s : Session) (feed : Feed) (filepath : String) : Reading × Session :=
  let (config, settings) := s.settings.get cwd
  (readFlows room cwd s.files feed (config.map ActiveConfig.config) filepath, { s with settings })

/-- The session behind readings, each with what the special files yield to it. -/
def readAll (s : Session) (requests : List (Feed × String)) : Session :=
  requests.foldl (fun s (feed, filepath) => (s.read room cwd feed filepath).2) s

theorem readAll_keeps (s : Session) (requests : List (Feed × String)) :
    (s.readAll room cwd requests).files = s.files ∧
      ((s.readAll room cwd requests).settings.get cwd).1 = (s.settings.get cwd).1 := by
  induction requests generalizing s with
  | nil => exact ⟨rfl, rfl⟩
  | cons request requests ih =>
    obtain ⟨files, inForce⟩ := ih (s.read room cwd request.1 request.2).2
    exact ⟨files, inForce.trans (Settings.get_get cwd s.settings)⟩

/-- Whatever has been read before, a reading tells the same. -/
theorem read_readAll (s : Session) (requests : List (Feed × String)) (feed : Feed) (filepath : String) :
    ((s.readAll room cwd requests).read room cwd feed filepath).1 = (s.read room cwd feed filepath).1 := by
  obtain ⟨files, inForce⟩ := readAll_keeps room cwd s requests
  unfold read
  dsimp only
  rw [files, inForce]

end Session

/-- Where everything may be read, the text of a document is handed out just when all checks pass, and
then it is what reading yields, with unified line breaks. Otherwise the first check that fails is
reported, alone. A reading reports the failure in the words of the refusal, or says that reading failed
and names the cause. Readings change no file and not the configuration in force. -/
theorem loadDocument_by_checks {cwd : AbsolutePath} (proper : cwd.IsProper) {filepath : String}
    (noNul : '\x00' ∉ filepath.toList) {fs : FileSystem} (isOpen : fs.IsOpen) (feed : Feed) (config : Config) :
    let place := (FilePath.ofString filepath).resolve cwd
    (∀ text, loadDocument cwd fs feed config filepath = .ok text ↔
      (∀ check : DocumentCheck, check.Passes cwd fs feed config place) ∧
        ∃ e, fs.entryAt? place = some e ∧ ∃ stored : String, e.content feed place = .ok stored.toUTF8 ∧
          Text.Unifies stored.toList text.toList) ∧
      (∀ e, loadDocument cwd fs feed config filepath = .error e ↔
        ∃ check : DocumentCheck, check.FailsFirst cwd fs feed config place ∧
          e = check.failure fs feed config filepath place) ∧
      (∀ e, loadDocument cwd fs feed config filepath = .error e →
        (∀ room, readFlows room cwd fs feed (.ok config) filepath =
          { messages := ["Reading flows from " ++ filepath], outcome := .error e }) ∧
        ∀ describe, (∃ r, e = .refused r ∧ e.report describe = r.message) ∨
          e.report describe = "Error reading flows: " ++ describe e) ∧
      ∀ (room : Nat) (s : Session) (requests : List (Feed × String)),
        (s.readAll room cwd requests).files = s.files ∧
          ((s.readAll room cwd requests).settings.get cwd).1 = (s.settings.get cwd).1 ∧
          ((s.readAll room cwd requests).read room cwd feed filepath).1 = (s.read room cwd feed filepath).1 := by
  intro place
  have leads : (FilePath.ofString filepath).resolve cwd = place := rfl
  have answers := loadDocument_cases proper noNul leads isOpen feed config
  refine ⟨fun text => ⟨fun loaded => ?_, ?_⟩, fun e => ⟨fun failed => ?_, ?_⟩, fun e failed => ?_,
    fun room s requests => ?_⟩
  · obtain ⟨passes, e, found, stored, yields, answer⟩ | ⟨check, first, answer⟩ := answers <;> rw [answer] at loaded
    · cases loaded
      exact ⟨passes, e, found, stored, yields, Text.unifies_iff.mpr String.toList_ofList⟩
    · exact absurd loaded nofun
  · rintro ⟨passes, e, found, stored, yields, unified⟩
    rw [loadDocument_of_passes proper noNul leads passes found yields, ← Text.unifies_iff.mp unified,
      String.ofList_toList]
  · obtain ⟨passes, _, _, _, _, answer⟩ | ⟨check, first, answer⟩ := answers <;> rw [answer] at failed
    · exact absurd failed nofun
    · cases failed
      exact ⟨check, first, rfl⟩
  · rintro ⟨check, first, rfl⟩
    exact loadDocument_of_failsFirst proper noNul leads isOpen first
  · refine ⟨fun room => readFlows_of_error failed, fun describe => ?_⟩
    obtain ⟨_, _, _, _, _, answer⟩ | ⟨check, first, answer⟩ := answers <;> rw [answer] at failed
    · exact absurd failed nofun
    · cases failed
      exact check.report_failure describe
  · obtain ⟨files, inForce⟩ := s.readAll_keeps room cwd requests
    exact ⟨files, inForce, s.read_readAll room cwd requests feed filepath⟩

/-- The directory of flows, and what is below it, may be read. -/
theorem passes_access_srvFlows (fs : FileSystem) (feed : Feed) (names : List String) :
    DocumentCheck.access.Passes ⟨["srv"]⟩ fs feed .srvFlows ⟨["srv", "flows"] ++ names⟩ := by
  have written : Config.srvFlows.flowsDir.text = "flows" := by cbv
  refine ⟨by rw [written]; decide, ?_⟩
  rw [Config.resolve_srvFlows]
  exact AbsolutePath.isWithin_iff.mpr (List.prefix_append _ names)

/-- What is small enough passes all checks in the directory of flows if it yields a text. -/
theorem passes_srvFlow {e : FileEntry} (isOpen : e.isOpen = true) {feed : Feed} {text : String}
    (yields : e.content feed ⟨["srv", "flows", "a.flow"]⟩ = .ok text.toUTF8) (short : e.size ≤ 100)
    (check : DocumentCheck) :
    check.Passes ⟨["srv"]⟩ (.srvFlow e) feed .srvFlows ⟨["srv", "flows", "a.flow"]⟩ := by
  have found : (FileSystem.srvFlow e).entryAt? ⟨["srv", "flows", "a.flow"]⟩ = some e := FileSystem.entryAt?_holding
  cases check with
  | access => exact passes_access_srvFlows _ feed ["a.flow"]
  | length => exact ⟨by decide, (FileSystem.isOpen_holding isOpen).passable (by decide) []⟩
  | existence => exact ⟨e, found⟩
  | format => exact ⟨".flow", by decide, by cbv⟩
  | size =>
    refine ⟨100, rfl, fun e' found' => ?_⟩
    rw [found] at found'
    cases found'
    exact Int.ofNat_le.mpr short
  | content => exact ⟨e, found, text, yields⟩

theorem resolve_srvFlow : (FilePath.ofString "flows/a.flow").resolve ⟨["srv"]⟩ = ⟨["srv", "flows", "a.flow"]⟩ := by
  cbv

/-- The directory of flows is refused for its format, the first check that it fails, though it is too
large as well and no file. A flow in it is handed out. -/
theorem loadDocument_in_srvFlows :
    (⟨["srv"]⟩ : AbsolutePath).IsProper ∧ '\x00' ∉ "flows/..//flows/.".toList ∧ '\x00' ∉ "flows/a.flow".toList ∧
      (FileSystem.srvFlow (.ofText "A -> (FTP PUSH -> B)")).IsOpen ∧
      loadDocument ⟨["srv"]⟩ (.srvFlow (.ofText "A -> (FTP PUSH -> B)")) .dry .srvFlows "flows/..//flows/." =
        .error (.refused (.unsupportedFormat "")) ∧
      loadDocument ⟨["srv"]⟩ (.srvFlow (.ofText "A -> (FTP PUSH -> B)")) .dry .srvFlows "flows/a.flow" =
        .ok "A -> (FTP PUSH -> B)" := by
  have noNul : '\x00' ∉ "flows/..//flows/.".toList := by decide
  have noNul' : '\x00' ∉ "flows/a.flow".toList := by decide
  have isOpen : (FileSystem.srvFlow (.ofText "A -> (FTP PUSH -> B)")).IsOpen := FileSystem.isOpen_holding rfl
  have leads : (FilePath.ofString "flows/..//flows/.").resolve ⟨["srv"]⟩ = ⟨["srv", "flows"]⟩ := by cbv
  refine ⟨isProper_srv, noNul, noNul', isOpen, ?_, ?_⟩
  · have refused : Config.srvFlows.isAllowedFile (AbsolutePath.toFilePath ⟨["srv", "flows"]⟩) = false := by cbv
    have first : DocumentCheck.format.FailsFirst ⟨["srv"]⟩
        (.srvFlow (.ofText "A -> (FTP PUSH -> B)")) .dry .srvFlows ⟨["srv", "flows"]⟩ := by
      refine ⟨Config.isAllowedFile_iff.not.mp (Bool.eq_false_iff.mp refused), ?_⟩
      rintro (_ | _ | _ | _ | _ | _) isBefore
      · exact passes_access_srvFlows _ .dry []
      · exact ⟨by decide, isOpen.passable (by decide) []⟩
      · exact ⟨.folder true, rfl⟩
      all_goals exact absurd isBefore (by decide)
    refine ((loadDocument_by_checks isProper_srv noNul isOpen .dry .srvFlows).2.1 _).mpr ⟨.format, ?_, ?_⟩
    · rwa [leads]
    · rw [leads]
      rfl
  · refine ((loadDocument_by_checks isProper_srv noNul' isOpen .dry .srvFlows).1 _).mpr ?_
    rw [resolve_srvFlow]
    have yields : (FileEntry.ofText "A -> (FTP PUSH -> B)").content .dry ⟨["srv", "flows", "a.flow"]⟩ =
        .ok "A -> (FTP PUSH -> B)".toUTF8 := rfl
    exact ⟨passes_srvFlow rfl yields (by decide), _, FileSystem.entryAt?_holding, _, yields,
      Text.unifies_iff.mpr (Text.unifyLineBreaks_of_not_mem (by decide)).symm⟩

/-- A place in the directory of flows whose name has one byte too many. -/
def AbsolutePath.overlongFlow : AbsolutePath :=
  ⟨["srv", "flows", overlongName]⟩

theorem AbsolutePath.isProper_overlongFlow : overlongFlow.IsProper :=
  List.forall_mem_cons.mpr ⟨by decide,
    List.forall_mem_cons.mpr ⟨by decide, List.forall_mem_singleton.mpr isName_overlongName⟩⟩

/-- The text of a place has a slash before each name. -/
theorem AbsolutePath.utf8ByteSize_text_cons (name : String) {names : List String} (more : names ≠ []) :
    (text ⟨name :: names⟩).utf8ByteSize = (text ⟨names⟩).utf8ByteSize + name.utf8ByteSize + 1 := by
  obtain ⟨next, names, rfl⟩ := List.exists_cons_of_ne_nil more
  have slash : '/'.utf8Size = 1 := rfl
  rw [← String.utf8Len_toList, toList_text, ← String.utf8Len_toList, toList_text]
  simp only [List.map_cons, List.intercalate_cons_cons, String.utf8Len_cons, String.utf8Len_append,
    String.utf8Len_toList, String.utf8Len_nil, slash]
  omega

theorem AbsolutePath.utf8ByteSize_text_replicate (depth : Nat) :
    (text ⟨List.replicate depth "d" ++ ["a.flow"]⟩).utf8ByteSize = 7 + 2 * depth := by
  induction depth with
  | zero => decide
  | succ depth ih =>
    have more : List.replicate depth "d" ++ ["a.flow"] ≠ [] :=
      List.append_ne_nil_of_right_ne_nil _ (List.cons_ne_nil _ _)
    rw [List.replicate_succ, List.cons_append, utf8ByteSize_text_cons _ more, ih]
    rfl

/-- A flow below so many directories that the text of its place is too long. -/
def AbsolutePath.deepFlow : AbsolutePath :=
  ⟨List.replicate 2048 "d" ++ ["a.flow"]⟩

theorem AbsolutePath.isProper_deepFlow : deepFlow.IsProper := by
  refine List.forall_mem_append.mpr ⟨fun name member => ?_, by decide⟩
  rw [List.eq_of_mem_replicate member]
  decide

theorem AbsolutePath.utf8ByteSize_deepFlow : maxPathBytes < deepFlow.text.utf8ByteSize := by
  rw [deepFlow, utf8ByteSize_text_replicate]
  decide

theorem AbsolutePath.suffix_deepFlow : deepFlow.toFilePath.suffix = ".flow".toList := by
  rw [FilePath.suffix, toFilePath, deepFlow]
  dsimp only
  rw [List.getLast?_concat]
  cbv

/-- The file of that flow, and the directories above it. -/
def FileSystem.aroundDeepFlow : FileSystem :=
  holding .deepFlow AbsolutePath.isProper_deepFlow
    (List.append_ne_nil_of_right_ne_nil _ (List.cons_ne_nil _ _)) true
    (.ofText "A -> (FTP PUSH -> B)")

/-- Documents may stand anywhere. -/
def Config.anywhere : Config :=
  .make ⟨["srv"]⟩ (some "/") none (some 100)

/-- That flow passes every check but the one of its length. -/
theorem passes_deepFlow (check : DocumentCheck) (other : check ≠ .length) :
    check.Passes ⟨["srv"]⟩ .aroundDeepFlow .dry .anywhere .deepFlow := by
  have found : FileSystem.aroundDeepFlow.entryAt? .deepFlow = some (.ofText "A -> (FTP PUSH -> B)") :=
    FileSystem.entryAt?_holding
  cases check with
  | access =>
    have written : Config.anywhere.flowsDir.text = "/" := by cbv
    have base : (Config.anywhere.flowsDir.resolve ⟨["srv"]⟩).names = [] := by cbv
    refine ⟨by rw [written]; decide, AbsolutePath.isWithin_iff.mpr ?_⟩
    rw [base]
    exact List.nil_prefix
  | length => exact absurd rfl other
  | existence => exact ⟨_, found⟩
  | format => exact ⟨".flow", by decide, by rw [AbsolutePath.suffix_deepFlow]⟩
  | size =>
    refine ⟨100, rfl, fun e found' => ?_⟩
    rw [found] at found'
    cases found'
    decide
  | content => exact ⟨_, found, _, rfl⟩

/-- A pipe, which has no size of its own. -/
def FileEntry.pipe : FileEntry :=
  { kind := .special 0, readable := true }

/-- A text of one byte more than a flow may have. -/
def overlongText : String :=
  String.ofList (List.replicate 101 'A')

theorem toList_overlongText : overlongText.toList = List.replicate 101 'A' :=
  String.toList_ofList

/-- Where a place cannot be looked up, the five other checks do not decide: what is not there is not reported as
missing, and a document that passes them all is not handed out. What comes from a pipe is handed out however long it
is. -/
theorem loadDocument_too_long :
    (⟨["srv"]⟩ : AbsolutePath).IsProper ∧
      ('\x00' ∉ AbsolutePath.overlongFlow.text.toList ∧ (FileSystem.emptyFlows true).IsOpen ∧
        DocumentCheck.access.Passes ⟨["srv"]⟩ (.emptyFlows true) .dry .srvFlows .overlongFlow ∧
        ¬DocumentCheck.existence.Passes ⟨["srv"]⟩ (.emptyFlows true) .dry .srvFlows .overlongFlow ∧
        loadDocument ⟨["srv"]⟩ (.emptyFlows true) .dry .srvFlows AbsolutePath.overlongFlow.text =
          .error (.unreadable .nameTooLong)) ∧
      ('\x00' ∉ AbsolutePath.deepFlow.text.toList ∧ FileSystem.aroundDeepFlow.IsOpen ∧
        (∀ check : DocumentCheck, check ≠ .length →
          check.Passes ⟨["srv"]⟩ .aroundDeepFlow .dry .anywhere .deepFlow) ∧
        loadDocument ⟨["srv"]⟩ .aroundDeepFlow .dry .anywhere AbsolutePath.deepFlow.text =
          .error (.unreadable .nameTooLong)) ∧
      '\x00' ∉ "flows/a.flow".toList ∧ (FileSystem.srvFlow .pipe).IsOpen ∧
        Config.srvFlows.maxFileSize = some 100 ∧ 100 < overlongText.toUTF8.size ∧
        loadDocument ⟨["srv"]⟩ (.srvFlow .pipe) (.always overlongText) .srvFlows "flows/a.flow" =
          .ok overlongText := by
  have noNul : '\x00' ∉ "flows/a.flow".toList := by decide
  have isOpen : (FileSystem.emptyFlows true).IsOpen := FileSystem.isOpen_holding rfl
  have isOpen' : FileSystem.aroundDeepFlow.IsOpen := FileSystem.isOpen_holding rfl
  refine ⟨isProper_srv, ⟨AbsolutePath.isProper_overlongFlow.noNul_text, isOpen, ?_⟩,
    ⟨AbsolutePath.isProper_deepFlow.noNul_text, isOpen', ?_⟩, noNul,
      FileSystem.isOpen_holding rfl, rfl, by decide, ?_⟩
  · have access := passes_access_srvFlows (.emptyFlows true) .dry [overlongName]
    have nothing : (FileSystem.emptyFlows true).entryAt? .overlongFlow = none :=
      FileSystem.entryAt?_holding_of_longer (by decide)
    have tooLong : ¬(FileSystem.emptyFlows true).CanLookUp .overlongFlow := fun canLookUp =>
      canLookUp.way .nameTooLong ⟨["srv", "flows"], overlongName, .folder true, List.prefix_rfl,
        FileSystem.entryAt?_holding, rfl, FileEntry.obstacle?_overlongName⟩
    refine ⟨access, fun ⟨e, found⟩ => ?_, ?_⟩
    · rw [nothing] at found
      exact absurd found nofun
    · exact loadDocument_of_failsFirst isProper_srv AbsolutePath.isProper_overlongFlow.noNul_text
        (AbsolutePath.isProper_overlongFlow.resolve_text _) isOpen (.of_tooLong access tooLong)
  · have tooLong : ¬FileSystem.aroundDeepFlow.CanLookUp .deepFlow := fun canLookUp =>
      absurd canLookUp.whole (Nat.not_le.mpr AbsolutePath.utf8ByteSize_deepFlow)
    exact ⟨passes_deepFlow, loadDocument_of_failsFirst isProper_srv AbsolutePath.isProper_deepFlow.noNul_text
      (AbsolutePath.isProper_deepFlow.resolve_text _) isOpen' (.of_tooLong (passes_deepFlow _ nofun) tooLong)⟩
  · have yields : FileEntry.pipe.content (.always overlongText) ⟨["srv", "flows", "a.flow"]⟩ =
        .ok overlongText.toUTF8 := rfl
    have noReturn : '\r' ∉ overlongText.toList := by simp [toList_overlongText]
    have passes := passes_srvFlow rfl yields (Nat.zero_le _)
    rw [loadDocument_of_passes isProper_srv noNul resolve_srvFlow passes FileSystem.entryAt?_holding yields,
      Text.unifyLineBreaks_of_not_mem noReturn, String.ofList_toList]

end TransferFlow
