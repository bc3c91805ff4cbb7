import TransferFlow.Document
import TransferFlow.Proofs.Blanks
import TransferFlow.Proofs.BuilderNodes
import TransferFlow.Proofs.Room

namespace TransferFlow

/-- The lines of a document are its pieces that are not blank, trimmed. -/
theorem documentLines_eq (text : List Char) :
    documentLines text = ((text.splitOn '\n').filter (!Text.isBlankText ·)).map Text.trim := by
  rw [documentLines, List.filter_map]
  congr 2
  funext piece
  cases blank : Text.isBlankText piece with
  | true => simp [Text.trim_eq_nil.mpr blank]
  | false => simp [Text.solid_iff.mp blank]

theorem documentLines_append (xs ys : List Char) :
    documentLines (xs ++ '\n' :: ys) = documentLines xs ++ documentLines ys := by
  rw [documentLines, List.splitOn_append_cons_self, List.map_append, List.filter_append]
  rfl

theorem trimmed_of_mem_documentLines {text line : List Char} (member : line ∈ documentLines text) :
    Text.trim line = line ∧ Text.isBlankText line = false := by
  obtain ⟨inside, solid⟩ := List.mem_filter.mp member
  obtain ⟨piece, _, rfl⟩ := List.mem_map.mp inside
  refine ⟨Text.trim_trim piece, Text.solid_iff.mpr ?_⟩
  rw [Text.trim_trim]
  simpa using solid

/-- A pattern names an entity, so its graph has a node. -/
theorem Graph.nodes_ofSegments_ne_nil (p : Pattern) : (ofSegments p.segments).nodes ≠ [] := by
  have member : .entity (.plain p.main.entity) ∈ p.segments :=
    List.mem_append_left _ List.mem_cons_self
  obtain ⟨n, found⟩ := Option.isSome_iff_exists.mp (Builder.lookup_withNodes_isSome member)
  obtain ⟨n', inside, _⟩ := Builder.mem_of_bare (Builder.build_bare p.segments) (Builder.mem_of_lookup found).1
  exact List.ne_nil_of_mem inside

theorem Flow.nodes_ne_nil {n : Int} {line : List Char} {flow : Flow} (read : ofLine n line = .ok flow) :
    flow.nodes ≠ [] := by
  obtain ⟨p, _, rfl⟩ := map_eq_ok.mp read
  exact Graph.nodes_ofSegments_ne_nil p

theorem Flow.lineNumber_ofLine {n : Int} {line : List Char} {flow : Flow} (read : ofLine n line = .ok flow) :
    flow.lineNumber = n := by
  obtain ⟨p, _, rfl⟩ := map_eq_ok.mp read
  rfl

namespace ParseResult

/-- Lines that are numbered from `start` have left this result. -/
inductive Answers : Nat → List (List Char) → ParseResult → Prop
  | nil {start : Nat} : Answers start [] { flows := [], errors := [] }
  | flow {start : Nat} {line lines flow r} :
      Flow.ofLine start line = .ok flow → Answers (start + 1) lines r →
      Answers start (line :: lines) { r with flows := flow :: r.flows }
  | error {start : Nat} {line lines e r} :
      Flow.ofLine start line = .error e → Answers (start + 1) lines r →
      Answers start (line :: lines) { r with errors := .ofSyntaxError start e :: r.errors }

theorem parseLines_cons (start : Nat) (line : List Char) (lines : List (List Char)) :
    parseLines start (line :: lines) = (parseLines (start + 1) lines).push start (Flow.ofLine start line) := rfl

theorem answers_parseLines (start : Nat) (lines : List (List Char)) :
    Answers start lines (parseLines start lines) := by
  induction lines generalizing start with
  | nil => exact .nil
  | cons line lines ih =>
    rw [parseLines_cons]
    cases read : Flow.ofLine start line with
    | error e => exact .error read (ih (start + 1))
    | ok flow =>
      rw [push, List.isEmpty_eq_false_iff.mpr (Flow.nodes_ne_nil read), if_neg Bool.false_ne_true]
      exact .flow read (ih (start + 1))

/-- What a result holds under one number. -/
def entriesAt (r : ParseResult) (number : Int) : List (Except LineError Flow) :=
  (r.flows.filter (·.lineNumber == number)).map .ok ++ (r.errors.filter (·.lineNumber == number)).map .error

theorem entriesAt_flow (r : ParseResult) (flow : Flow) (number : Int) :
    entriesAt { r with flows := flow :: r.flows } number =
      if flow.lineNumber = number then .ok flow :: r.entriesAt number else r.entriesAt number := by
  unfold entriesAt
  by_cases here : flow.lineNumber = number
  · simp [here]
  · simp [here]

theorem entriesAt_error {r : ParseResult} {e : LineError} {number : Int}
    (fresh : e.lineNumber = number → r.entriesAt number = []) :
    entriesAt { r with errors := e :: r.errors } number =
      if e.lineNumber = number then [.error e] else r.entriesAt number := by
  unfold entriesAt at fresh ⊢
  by_cases here : e.lineNumber = number
  · obtain ⟨noFlow, noError⟩ := List.append_eq_nil_iff.mp (fresh here)
    simp [here, noFlow, noError]
  · simp [here]

section Answers

variable {start : Nat} {lines : List (List Char)} {r : ParseResult}

theorem Answers.bounds (answers : Answers start lines r) :
    (∀ flow ∈ r.flows, (start : Int) ≤ flow.lineNumber ∧ flow.lineNumber < start + lines.length) ∧
      ∀ e ∈ r.errors, (start : Int) ≤ e.lineNumber ∧ e.lineNumber < start + lines.length := by
  induction answers with
  | nil => simp
  | flow read _ ih =>
    have number := Flow.lineNumber_ofLine read
    simp only [List.length_cons, List.forall_mem_cons]
    grind
  | error read _ ih =>
    simp only [List.length_cons, List.forall_mem_cons, LineError.ofSyntaxError]
    grind

theorem Answers.entriesAt_of_outside (answers : Answers start lines r) {number : Int}
    (outside : number < start ∨ start + lines.length ≤ number) : r.entriesAt number = [] := by
  obtain ⟨flows, errors⟩ := answers.bounds
  have noFlow : r.flows.filter (·.lineNumber == number) = [] := by
    rw [List.filter_eq_nil_iff]
    intro flow member same
    have := flows flow member
    rw [beq_iff_eq] at same
    omega
  have noError : r.errors.filter (·.lineNumber == number) = [] := by
    rw [List.filter_eq_nil_iff]
    intro e member same
    have := errors e member
    rw [beq_iff_eq] at same
    omega
  rw [entriesAt, noFlow, noError]
  rfl

theorem Answers.increasing (answers : Answers start lines r) :
    (r.flows.map (·.lineNumber)).Pairwise (· < ·) ∧ (r.errors.map (·.lineNumber)).Pairwise (· < ·) := by
  induction answers with
  | nil => exact ⟨.nil, .nil⟩
  | flow read later ih =>
    refine ⟨List.pairwise_cons.mpr ⟨?_, ih.1⟩, ih.2⟩
    rw [List.forall_mem_map]
    dsimp only
    rw [Flow.lineNumber_ofLine read]
    intro flow member
    have := (later.bounds.1 flow member).1
    omega
  | error read later ih =>
    refine ⟨ih.1, List.pairwise_cons.mpr ⟨?_, ih.2⟩⟩
    rw [List.forall_mem_map]
    intro e member
    have := (later.bounds.2 e member).1
    simp only [LineError.ofSyntaxError]
    omega

theorem Answers.length (answers : Answers start lines r) : r.flows.length + r.errors.length = lines.length := by
  induction answers with
  | nil => rfl
  | flow _ _ ih | error _ _ ih =>
    simp only [List.length_cons]
    omega

/-- A line leaves what it reads as, and no other line leaves anything under its number. -/
theorem Answers.entriesAt_line (answers : Answers start lines r) {k : Nat} {line : List Char}
    (atPlace : lines[k]? = some line) :
    (∃ flow, Flow.ofLine (start + k) line = .ok flow ∧ r.entriesAt (start + k) = [.ok flow]) ∨
      ∃ e, Flow.ofLine (start + k) line = .error e ∧
        r.entriesAt (start + k) = [.error (.ofSyntaxError (start + k) e)] := by
  induction answers generalizing k with
  | nil => cases atPlace
  | @flow start first lines flow r read later ih =>
    have number := Flow.lineNumber_ofLine read
    cases k with
    | zero =>
      cases atPlace
      have none := later.entriesAt_of_outside (Or.inl (Int.ofNat_lt.mpr start.lt_succ_self))
      refine Or.inl ⟨flow, by simpa using read, ?_⟩
      simp [entriesAt_flow, number, none]
    | succ k =>
      have next : ((start + 1 : Nat) : Int) + k = start + (k + 1 : Nat) := by omega
      have other : flow.lineNumber ≠ start + (k + 1 : Nat) := by omega
      have found := ih atPlace
      rw [next] at found
      rwa [entriesAt_flow, if_neg other]
  | @error start first lines e r read later ih =>
    have fresh := later.entriesAt_of_outside (Or.inl (Int.ofNat_lt.mpr start.lt_succ_self))
    have number : (LineError.ofSyntaxError start e).lineNumber = start := rfl
    cases k with
    | zero =>
      cases atPlace
      refine Or.inr ⟨e, by simpa using read, ?_⟩
      simp [entriesAt_error, number, fresh]
    | succ k =>
      have next : ((start + 1 : Nat) : Int) + k = start + (k + 1 : Nat) := by omega
      have other : (LineError.ofSyntaxError start e).lineNumber ≠ start + (k + 1 : Nat) := by omega
      have found := ih atPlace
      rw [next] at found
      rwa [entriesAt_error fun same => absurd same other, if_neg other]

end Answers

/-- Both lists of a result, and those of another one behind them. -/
def followedBy (r later : ParseResult) : ParseResult :=
  { flows := r.flows ++ later.flows, errors := r.errors ++ later.errors }

/-- The same result with line numbers that are higher by `count`. -/
def shifted (r : ParseResult) (count : Nat) : ParseResult :=
  { flows := r.flows.map fun flow => { flow with lineNumber := flow.lineNumber + count }
    errors := r.errors.map fun e => { e with lineNumber := e.lineNumber + count } }

theorem push_followedBy (r later : ParseResult) (n : Int) (answer : Except SyntaxError Flow) :
    (r.push n answer).followedBy later = (r.followedBy later).push n answer := by
  cases answer with
  | error e => rfl
  | ok flow =>
    rw [push, push]
    split <;> rfl

theorem parseLines_append (start : Nat) (xs ys : List (List Char)) :
    parseLines start (xs ++ ys) = (parseLines start xs).followedBy (parseLines (start + xs.length) ys) := by
  induction xs generalizing start with
  | nil => rfl
  | cons x xs ih =>
    have next : start + 1 + xs.length = start + (xs.length + 1) := by omega
    rw [List.cons_append, parseLines_cons, parseLines_cons, push_followedBy, ih, next, List.length_cons]

/-- What a line reads as does not depend on its number. -/
theorem parseLines_shifted (start count : Nat) (lines : List (List Char)) :
    parseLines (start + count) lines = (parseLines start lines).shifted count := by
  induction lines generalizing start with
  | nil => rfl
  | cons line lines ih =>
    rw [parseLines_cons, parseLines_cons, Nat.add_right_comm, ih]
    unfold Flow.ofLine
    cases Pattern.read line with
    | error e => rfl
    | ok p =>
      simp only [Except.map, push, Flow.ofPattern]
      rw [List.isEmpty_eq_false_iff.mpr (Graph.nodes_ofSegments_ne_nil p), if_neg Bool.false_ne_true,
        if_neg Bool.false_ne_true]
      rfl

theorem parseDocument_append (a b : String) :
    parseDocument (a ++ "\n" ++ b) =
      (parseDocument a).followedBy ((parseDocument b).shifted (documentLines a.toList).length) := by
  have text : (a ++ "\n" ++ b).toList = a.toList ++ '\n' :: b.toList := by simp
  rw [parseDocument, text, documentLines_append, parseLines_append, parseLines_shifted]
  rfl

end ParseResult

section Room

variable {room start : Nat} {lines : List (List Char)}

theorem Flow.limited_ofLineIn (room : Nat) (n : Int) (line : List Char) :
    Limited (Pattern.TooDeep room line) (ofLineIn room n line) (ofLine n line) :=
  (Pattern.limited_readIn room line).map (ofPattern n line)

theorem Stop.answer?_liftM {α : Type} (x : Except SyntaxError α) : answer? (liftM x) = some x := by
  cases x <;> rfl

/-- By induction on the lines. One that is too deep takes the result from all of them. -/
theorem parseLinesIn_cases (room start : Nat) (lines : List (List Char)) :
    (∃ line ∈ lines, Pattern.TooDeep room line) ∧ parseLinesIn room start lines = none ∨
      (∀ line ∈ lines, ¬Pattern.TooDeep room line) ∧
        parseLinesIn room start lines = some (parseLines start lines) := by
  induction lines generalizing start with
  | nil => exact .inr ⟨List.forall_mem_nil _, rfl⟩
  | cons line lines ih =>
    rw [parseLinesIn]
    rcases Flow.limited_ofLineIn room start line with ⟨deep, stops⟩ | ⟨fits, same⟩
    · rw [stops]
      exact .inl ⟨⟨line, List.mem_cons_self, deep⟩, rfl⟩
    rw [same, Stop.answer?_liftM]
    rcases ih (start + 1) with ⟨⟨deeper, member, deep⟩, stops⟩ | ⟨each, later⟩
    · rw [stops]
      exact .inl ⟨⟨deeper, List.mem_cons_of_mem _ member, deep⟩, rfl⟩
    · rw [later]
      exact .inr ⟨List.forall_mem_cons.mpr ⟨fits, each⟩, rfl⟩

theorem parseDocumentIn_cases (room : Nat) (text : String) :
    (∃ line ∈ documentLines text.toList, Pattern.TooDeep room line) ∧ parseDocumentIn room text = none ∨
      (∀ line ∈ documentLines text.toList, ¬Pattern.TooDeep room line) ∧
        parseDocumentIn room text = some (parseDocument text) :=
  parseLinesIn_cases room 1 _

/-- A line of a document is read on its own as it is read in the document. -/
theorem limited_parseLineIn (room : Nat) {text line : List Char} (member : line ∈ documentLines text) (n : Int) :
    Limited (Pattern.TooDeep room line) (parseLineIn room (String.ofList line) n)
      ((Flow.ofLine n line).map some) := by
  obtain ⟨trimmed, solid⟩ := trimmed_of_mem_documentLines member
  rw [parseLineIn, String.toList_ofList, solid, if_neg Bool.false_ne_true, trimmed]
  exact (Flow.limited_ofLineIn room n line).map some

/-- Room for two chains inside each other is enough for every line that can be read. -/
theorem parseLineIn_eq_ok (two : 2 ≤ room) {text : String} {n : Int} {found : Option Flow} :
    parseLineIn room text n = .ok found ↔ parseLine text n = .ok found := by
  rw [parseLineIn, parseLine]
  split
  · simp
  refine ((Flow.limited_ofLineIn room n (Text.trim text.toList)).map some).eq_ok_iff fun run => ?_
  obtain ⟨flow, read, _⟩ := map_eq_ok.mp run
  obtain ⟨p, read, _⟩ := map_eq_ok.mp read
  exact Pattern.not_tooDeep_of_read two read

/-- A result in limited room for the whole is one for each half, and the other way round. -/
theorem parseDocumentIn_append (room : Nat) (a b : String) :
    parseDocumentIn room (a ++ "\n" ++ b) = (parseDocumentIn room a).bind fun r =>
      (parseDocumentIn room b).map fun later => r.followedBy (later.shifted (documentLines a.toList).length) := by
  have text : (a ++ "\n" ++ b).toList = a.toList ++ '\n' :: b.toList := by simp
  have whole := parseDocumentIn_cases room (a ++ "\n" ++ b)
  rw [text, documentLines_append, ParseResult.parseDocument_append] at whole
  rcases parseDocumentIn_cases room a with ⟨⟨line, member, deep⟩, stops⟩ | ⟨fit, first⟩
  · rw [stops, (whole.resolve_right fun fits => fits.1 line (List.mem_append_left _ member) deep).2]
    rfl
  rcases parseDocumentIn_cases room b with ⟨⟨line, member, deep⟩, stops⟩ | ⟨fit', second⟩
  · rw [first, stops, (whole.resolve_right fun fits => fits.1 line (List.mem_append_right _ member) deep).2]
    rfl
  · rw [first, second, (whole.resolve_left fun ⟨⟨line, member, deep⟩, _⟩ =>
      (List.mem_append.mp member).elim (fun inA => fit line inA deep) fun inB => fit' line inB deep).2]
    rfl

end Room

/-- A document has a result unless one of its lines is too deep. Each line that is not blank leaves one
entry in it, under its number: the flow that the line reads as, or the error that it is refused with.
The result for two documents, one behind the other, is put together from a result for each. -/
theorem lines_of_parseDocument (room : Nat) (text : String) :
    let lines := ((text.toList.splitOn '\n').filter (!Text.isBlankText ·)).map Text.trim
    (parseDocumentIn room text = none ↔ ∃ line ∈ lines, Pattern.TooDeep room line) ∧
      (∀ line ∈ lines, ∀ n, parseLineIn room (String.ofList line) n = .error .tooDeep ↔ Pattern.TooDeep room line) ∧
      (∀ r, parseDocumentIn room text = some r →
        (∀ (k : Nat) (line : List Char), lines[k]? = some line →
          (∃ flow, parseLineIn room (String.ofList line) (k + 1) = .ok (some flow) ∧
            r.entriesAt (k + 1) = [.ok flow]) ∨
            ∃ e, parseLineIn room (String.ofList line) (k + 1) = .error (.refused e) ∧
              r.entriesAt (k + 1) = [.error { lineNumber := k + 1, kind := e.kind, message := e.message }]) ∧
        (∀ number : Int, number < 1 ∨ lines.length < number → r.entriesAt number = []) ∧
        (r.flows.map (·.lineNumber)).Pairwise (· < ·) ∧ (r.errors.map (·.lineNumber)).Pairwise (· < ·) ∧
        r.flows.length + r.errors.length = lines.length ∧
        (r.isValid = true ↔ r.flows.length = lines.length)) ∧
      ∀ a b : String, parseDocumentIn room (a ++ "\n" ++ b) = (parseDocumentIn room a).bind fun r =>
        (parseDocumentIn room b).map fun later => r.followedBy (later.shifted
          ((a.toList.splitOn '\n').filter (!Text.isBlankText ·)).length) := by
  intro lines
  have whole : lines = documentLines text.toList := (documentLines_eq text.toList).symm
  have lone {line : List Char} (member : line ∈ lines) (n : Int) :
      Limited (Pattern.TooDeep room line) (parseLineIn room (String.ofList line) n)
        ((Flow.ofLine n line).map some) :=
    limited_parseLineIn room (whole ▸ member) n
  have cases := parseDocumentIn_cases room text
  rw [← whole] at cases
  refine ⟨?_, fun line member n => (lone member n).eq_tooDeep_iff, fun r run => ?_, fun a b => ?_⟩
  · rcases cases with ⟨deep, stops⟩ | ⟨fit, run⟩
    · exact iff_of_true stops deep
    · refine iff_of_false (by rw [run]; exact nofun) fun ⟨line, member, deep⟩ => fit line member deep
  · rcases cases with ⟨_, stops⟩ | ⟨fit, run'⟩
    · cases stops.symm.trans run
    cases run.symm.trans run'
    have answers : ParseResult.Answers 1 lines (parseDocument text) := by
      rw [whole]
      exact ParseResult.answers_parseLines 1 (documentLines text.toList)
    have length := answers.length
    refine ⟨fun k line atPlace => ?_, fun number outside => ?_, answers.increasing.1,
      answers.increasing.2, length, ?_⟩
    · have member := List.mem_of_getElem? atPlace
      have number : ((1 : Nat) : Int) + k = k + 1 := by omega
      have found := answers.entriesAt_line atPlace
      rw [number] at found
      rw [(lone member (k + 1)).eq_liftM (fit line member)]
      rcases found with ⟨flow, read, entries⟩ | ⟨e, read, entries⟩
      · exact Or.inl ⟨flow, by rw [read]; rfl, entries⟩
      · exact Or.inr ⟨e, by rw [read]; rfl, entries⟩
    · exact answers.entriesAt_of_outside (by omega)
    · rw [ParseResult.isValid, List.isEmpty_iff_length_eq_zero]
      omega
  · rw [parseDocumentIn_append, documentLines_eq, List.length_map]

/-- A fan-out whose one branch ends at its target. -/
def innermost : List Char := "A->(B PUSH->A)".toList

theorem nestable_innermost : Chain.Nestable innermost where
  balanced := rfl
  trimmed :=
    Text.trimmed_around ['-', '>'] (List.cons_ne_nil _ _) (Text.trimmed_singleton rfl) (List.cons_ne_nil _ _)
    (Text.trimmed_group "B PUSH->A".toList)
  line := by decide
  lone := by decide
  unmarked := by decide
  further := ⟨['A'], .arrow .forward, _, rfl⟩

/-- Five hundred chains inside each other. -/
def deepLine : String :=
  String.ofList (Chain.nest innermost 499)

theorem nestable_deepLine : Chain.Nestable deepLine.toList := by
  rw [deepLine, String.toList_ofList]
  exact Chain.nestable_nest nestable_innermost 499

theorem tooDeep_deepLine : Pattern.TooDeep 490 deepLine.toList := by
  refine Pattern.tooDeep_of_nestable nestable_deepLine ?_
  rw [deepLine, String.toList_ofList]
  exact (Chain.nests_nest nestable_innermost 499).of_le (by decide)

theorem documentLines_deepLine : documentLines deepLine.toList = [deepLine.toList] := by
  have solid : Text.isBlankText deepLine.toList = false := by
    rw [Text.solid_iff, nestable_deepLine.trimmed.trim_eq]
    exact nestable_deepLine.ne_nil
  rw [documentLines_eq, List.splitOn_eq_singleton nestable_deepLine.line, List.filter_singleton, solid]
  exact congrArg (fun line => [line]) nestable_deepLine.trimmed.trim_eq

theorem parseDocumentIn_deepLine : parseDocumentIn 490 deepLine = none := by
  refine ((parseDocumentIn_cases 490 deepLine).resolve_right fun fits => ?_).2
  rw [documentLines_deepLine] at fits
  exact fits.1 _ List.mem_cons_self tooDeep_deepLine

/-- One deep line takes the result from the lines around it, each of which can be read. -/
theorem parseDocument_around_deepLine :
    parseDocumentIn 490 ("A -> FTP PUSH -> B" ++ "\n" ++ (deepLine ++ "\n" ++ "C -> FTP PUSH -> D")) = none ∧
      (∃ flow, parseLineIn 490 "A -> FTP PUSH -> B" 1 = .ok (some flow)) ∧
      ∃ flow, parseLineIn 490 "C -> FTP PUSH -> D" 3 = .ok (some flow) := by
  have readable {line : String} {n : Int} (solid : Text.isBlankText line.toList = false)
      (read : (Pattern.read (Text.trim line.toList)).isOk = true) :
      ∃ flow, parseLineIn 490 line n = .ok (some flow) := by
    obtain ⟨p, found⟩ := ok_of_isOk read
    refine ⟨.ofPattern n (Text.trim line.toList) p, (parseLineIn_eq_ok (by decide)).mpr ?_⟩
    rw [parseLine, solid, if_neg Bool.false_ne_true, Flow.ofLine, found]
    rfl
  refine ⟨?_, readable (by cbv) (by cbv), readable (by cbv) (by cbv)⟩
  rw [parseDocumentIn_append 490 "A -> FTP PUSH -> B", parseDocumentIn_append 490 deepLine,
    parseDocumentIn_deepLine, Option.bind_none]
  cases parseDocumentIn 490 "A -> FTP PUSH -> B" <;> rfl

end TransferFlow
