import TransferFlow.Text.Blank
import TransferFlow.Token

namespace TransferFlow

namespace Token

/-- Counts a token in front of a text in which `n` closing parentheses lack their opening one. -/
def countUnopened (t : Token) (n : Nat) : Nat :=
  match t with
  | .closing => n + 1
  | .opening => n - 1
  | _ => n

/-- Closing parentheses whose opening one is missing, counted from the right. -/
def unopened (ts : List Token) : Nat :=
  ts.foldr countUnopened 0

/-- Opening parentheses whose closing one is missing, counted from the left. -/
def unclosed (ts : List Token) : Nat :=
  ts.foldl (fun n t =>
    match t with
    | .opening => n + 1
    | .closing => n - 1
    | _ => n) 0

/-- Every parenthesis has its partner. -/
def isBalanced (ts : List Token) : Bool :=
  unopened ts == 0 && unclosed ts == 0

end Token

/-- A token and what its partner depends on: how many closing parentheses behind it lack their opening
one there. -/
structure PlacedToken where
  token : Token
  unopenedBehind : Nat
  deriving DecidableEq, Repr

namespace PlacedToken

/-- Puts a token in front of placed ones; the number beside them is what lacks its opening one. -/
def place (t : Token) (behind : List PlacedToken × Nat) : List PlacedToken × Nat :=
  ({ token := t, unopenedBehind := behind.2 } :: behind.1, t.countUnopened behind.2)

/-- The tokens of a text in their places, found in one pass from the right. -/
def all (ts : List Token) : List PlacedToken :=
  (ts.foldr place ([], 0)).1

theorem foldr_place (ts : List Token) : (ts.foldr place ([], 0)).2 = Token.unopened ts := by
  induction ts with
  | nil => rfl
  | cons t after ih => rw [List.foldr_cons, place, ih, Token.unopened, Token.unopened, List.foldr_cons]

@[simp] theorem all_nil : all [] = [] := rfl

/-- Each token stands beside the count of the text behind it. -/
@[simp] theorem all_cons (t : Token) (after : List Token) :
    all (t :: after) = { token := t, unopenedBehind := Token.unopened after } :: all after := by
  rw [all, List.foldr_cons, place, foldr_place, all]

@[simp] theorem map_token_all (ts : List Token) : (all ts).map token = ts := by
  induction ts with
  | nil => rfl
  | cons t after ih => simp [ih]

/-- Whether a token is a parenthesis with a partner, when `depth` paired groups are open before it. An
opening one needs a closing one left over behind it, and a closing one an open group before it. -/
def isPaired (depth : Nat) (p : PlacedToken) : Bool :=
  match p.token with
  | .opening => 0 < p.unopenedBehind
  | .closing => 0 < depth
  | _ => false

/-- The number of paired groups open behind a token. -/
def depthBehind (depth : Nat) (p : PlacedToken) : Nat :=
  if p.isPaired depth then
    match p.token with
    | .opening => depth + 1
    | _ => depth - 1
  else depth

/-- For every token whether it is a paired parenthesis. -/
def pairing (depth : Nat) : List PlacedToken → List Bool
  | [] => []
  | p :: after => p.isPaired depth :: pairing (p.depthBehind depth) after

end PlacedToken

/-- The positions of all paired parentheses, in ascending order. -/
def Token.pairedPositions (ts : List Token) : List Nat :=
  ((PlacedToken.pairing 0 (PlacedToken.all ts)).zipIdx.filter (·.1)).map (·.2)

/-- A text cut at separators: the text before the first one, and each separator with the text
behind it. -/
structure Pieces where
  first : List Token
  rest : List (Token × List Token)
  deriving DecidableEq, Repr

namespace Pieces

/-- The texts between the separators. -/
def parts (p : Pieces) : List (List Char) :=
  Token.charsOf p.first :: p.rest.map fun (_, ts) => Token.charsOf ts

/-- The texts with the separators between them. -/
def interleaved (p : Pieces) : List (List Char) :=
  Token.charsOf p.first :: p.rest.flatMap fun (sep, ts) => [sep.chars, Token.charsOf ts]

/-- Puts one more token in front. -/
def push (t : Token) (p : Pieces) : Pieces :=
  { p with first := t :: p.first }

/-- Puts a separator in front. -/
def separate (t : Token) (p : Pieces) : Pieces :=
  { first := [], rest := (t, p.first) :: p.rest }

/-- The tokens that were cut. -/
def tokens (p : Pieces) : List Token :=
  p.first ++ p.rest.flatMap fun (sep, ts) => sep :: ts

/-- Cuts tokens that stand inside `depth` paired groups. A separator counts outside all of them, and
a parenthesis only when it is not paired. -/
def cutAt (isSeparator : Token → Bool) (depth : Nat) : List PlacedToken → Pieces
  | [] => { first := [], rest := [] }
  | p :: after =>
    let later := cutAt isSeparator (p.depthBehind depth) after
    if depth == 0 && isSeparator p.token && !p.isPaired depth then later.separate p.token
    else later.push p.token

/-- Cuts a text at the separators outside all paired groups. -/
def cut (isSeparator : Token → Bool) (cs : List Char) : Pieces :=
  cutAt isSeparator 0 (PlacedToken.all (Token.lex cs))

@[simp] theorem tokens_push (t : Token) (p : Pieces) : (p.push t).tokens = t :: p.tokens := rfl

@[simp] theorem tokens_separate (t : Token) (p : Pieces) : (p.separate t).tokens = t :: p.tokens := by
  simp [separate, tokens]

/-- A cut drops and adds no token. -/
theorem tokens_cutAt (isSeparator : Token → Bool) (depth : Nat) (ps : List PlacedToken) :
    (cutAt isSeparator depth ps).tokens = ps.map PlacedToken.token := by
  induction ps generalizing depth with
  | nil => rfl
  | cons p after ih =>
    unfold cutAt
    dsimp only
    split <;> simp [ih]

theorem flatten_interleaved (p : Pieces) : p.interleaved.flatten = Token.charsOf p.tokens := by
  obtain ⟨first, rest⟩ := p
  simp only [interleaved, tokens, List.flatten_cons, Token.charsOf_append, List.append_cancel_left_eq]
  induction rest with
  | nil => rfl
  | cons next rest ih => simp [ih]

/-- The parts of a cut and its separators, in order, are the text that was cut. -/
theorem flatten_cut (isSeparator : Token → Bool) (cs : List Char) :
    (cut isSeparator cs).interleaved.flatten = cs := by
  rw [flatten_interleaved, cut, tokens_cutAt, PlacedToken.map_token_all, Token.charsOf_lex]

/-- A text without separators of its own is its one part. -/
theorem interleaved_of_single {isSeparator : Token → Bool} {cs : List Char}
    (single : (cut isSeparator cs).rest = []) : (cut isSeparator cs).interleaved = [cs] := by
  have whole := flatten_cut isSeparator cs
  rw [interleaved, single, List.flatMap_nil, List.flatten_cons, List.flatten_nil, List.append_nil] at whole
  rw [interleaved, single, List.flatMap_nil, whole]

theorem parts_of_single {isSeparator : Token → Bool} {cs : List Char}
    (single : (cut isSeparator cs).rest = []) : (cut isSeparator cs).parts = [cs] := by
  have whole := interleaved_of_single single
  rw [interleaved, single, List.flatMap_nil] at whole
  rwa [parts, single, List.map_nil]

end Pieces

/-- The text inside one group that is the whole text: its first parenthesis is paired with its
last, and something other than blanks stands between them. -/
def groupInside? (cs : List Char) : Option (List Char) :=
  match Token.lex cs with
  | .opening :: rest =>
    match rest.getLast? with
    | some .closing =>
      let inside := Text.trim (Token.charsOf rest.dropLast)
      if Token.isBalanced rest.dropLast && !inside.isEmpty then some inside else none
    | _ => none
  | _ => none

/-- The branches of a group, cut at its own ampersands and trimmed. -/
def branchesOf (inside : List Char) : List (List Char) :=
  (Pieces.cut (·.kind == .ampersand) inside).parts.map Text.trim

end TransferFlow
