namespace TransferFlow

/-- The glyph between an entity and a step. It tells which of the two ends acts, and never which
entity comes first. -/
inductive Arrow where
  | forward
  | reverse
  deriving DecidableEq, Repr

def Arrow.text : Arrow → String
  | .forward => "->"
  | .reverse => "<-"

def Arrow.chars : Arrow → List Char
  | .forward => ['-', '>']
  | .reverse => ['<', '-']

/-- The other arrow. -/
def Arrow.flip : Arrow → Arrow
  | .forward => .reverse
  | .reverse => .forward

/-- One lexical unit: an arrow, the mark `>>` before a post-processing chain, a parenthesis, the
ampersand between the branches of a group, or other text. -/
inductive Token where
  | arrow (a : Arrow)
  | post
  | opening
  | closing
  | ampersand
  | text (cs : List Char)
  deriving DecidableEq, Repr

namespace Token

/-- What a token is, without its text. -/
inductive Kind where
  | arrow
  | post
  | opening
  | closing
  | ampersand
  | text
  deriving DecidableEq, Repr

def kind : Token → Kind
  | .arrow _ => .arrow
  | .post => .post
  | .opening => .opening
  | .closing => .closing
  | .ampersand => .ampersand
  | .text _ => .text

/-- The characters of the token as they stand in the line. -/
def chars : Token → List Char
  | .arrow a => a.chars
  | .post => ['>', '>']
  | .opening => ['(']
  | .closing => [')']
  | .ampersand => ['&']
  | .text cs => cs

def isArrow (t : Token) : Bool :=
  t.kind == .arrow

/-- The characters of several tokens in a row. -/
def charsOf (ts : List Token) : List Char :=
  ts.flatMap chars

/-- A character that no other token can start with, so that it joins the text around it. -/
def isPlain (c : Char) : Bool :=
  c != '(' && c != ')' && c != '&' && c != '<' && c != '>' && c != '-'

/-- Ends a run of plain characters, given last character first, before the tokens behind it. -/
def endRun (run : List Char) (ts : List Token) : List Token :=
  if run.isEmpty then ts else .text run.reverse :: ts

/-- The tokens of a text that stands behind a run of plain characters. An arrow head or tail that is
part of no arrow and no mark is a text of its own. -/
def lexAfter (run : List Char) : List Char → List Token
  | [] => endRun run []
  | '-' :: '>' :: rest => endRun run (.arrow .forward :: lexAfter [] rest)
  | '<' :: '-' :: rest => endRun run (.arrow .reverse :: lexAfter [] rest)
  | '>' :: '>' :: rest => endRun run (.post :: lexAfter [] rest)
  | '(' :: rest => endRun run (.opening :: lexAfter [] rest)
  | ')' :: rest => endRun run (.closing :: lexAfter [] rest)
  | '&' :: rest => endRun run (.ampersand :: lexAfter [] rest)
  | c :: rest =>
    if isPlain c then lexAfter (c :: run) rest
    else endRun run (.text [c] :: lexAfter [] rest)

/-- The tokens of a text: at each place an arrow if one stands there, else the mark `>>`, else a
sign, else the longest run of plain characters. -/
def lex (cs : List Char) : List Token :=
  lexAfter [] cs

@[simp] theorem charsOf_nil : charsOf [] = [] := rfl

@[simp] theorem charsOf_cons (t : Token) (ts : List Token) :
    charsOf (t :: ts) = t.chars ++ charsOf ts := by
  simp [charsOf]

@[simp] theorem charsOf_append (ts us : List Token) :
    charsOf (ts ++ us) = charsOf ts ++ charsOf us := by
  simp [charsOf]

@[simp] theorem charsOf_endRun (run : List Char) (ts : List Token) :
    charsOf (endRun run ts) = run.reverse ++ charsOf ts := by
  cases run <;> simp [endRun, chars]

theorem charsOf_lexAfter (run cs : List Char) :
    charsOf (lexAfter run cs) = run.reverse ++ cs := by
  fun_induction lexAfter run cs <;> simp_all [chars, Arrow.chars]

/-- Lexing loses nothing: the tokens write the text they were read from. -/
theorem charsOf_lex (cs : List Char) : charsOf (lex cs) = cs := by
  simpa [lex] using charsOf_lexAfter [] cs

/-- Whether an arrow stands anywhere in the text, inside groups too. -/
def hasArrow (cs : List Char) : Bool :=
  (lex cs).any isArrow

end Token

end TransferFlow
