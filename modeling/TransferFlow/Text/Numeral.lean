import TransferFlow.Text.Blank

namespace TransferFlow.Text

/-- The zeros of all decimal scripts; the nine digits of a script follow its zero. -/
def decimalZeros : List Nat := [
  48, 1632, 1776, 1984, 2406, 2534, 2662, 2790, 2918, 3046, 3174,
  3302, 3430, 3558, 3664, 3792, 3872, 4160, 4240, 6112, 6160, 6470,
  6608, 6784, 6800, 6992, 7088, 7232, 7248, 42528, 43216, 43264, 43472,
  43504, 43600, 44016, 65296, 66720, 68912, 69734, 69872, 69942, 70096, 70384,
  70736, 70864, 71248, 71360, 71472, 71904, 72016, 72784, 73040, 73120, 92768,
  92864, 93008, 120782, 120792, 120802, 120812, 120822, 123200, 123632, 125264, 130032]

def digitValue? (c : Char) : Option Nat :=
  (decimalZeros.find? fun base => base ≤ c.toNat && c.toNat ≤ base + 9).map (c.toNat - ·)

/-- Blanks that may surround a number: all blanks but the information separators. -/
def isNumeralBlank (c : Char) : Bool :=
  isBlank c && !(28 ≤ c.toNat && c.toNat ≤ 31)

def trimNumeral (cs : List Char) : List Char :=
  ((cs.dropWhile isNumeralBlank).reverse.dropWhile isNumeralBlank).reverse

/-- The digits of a number, most significant first. `afterDigit` tells that a digit has just been
read, so that an underscore may follow; the text may end only there. -/
def digits? (afterDigit : Bool) : List Char → Option (List Nat)
  | [] => if afterDigit then some [] else none
  | c :: cs =>
    if c = '_' then
      if afterDigit then digits? false cs else none
    else
      match digitValue? c with
      | some d => (digits? true cs).map (d :: ·)
      | none => none

/-- Numbers of more digits than this are refused. -/
def maxDigits : Nat := 4300

def ofDigits (ds : List Nat) : Nat :=
  ds.foldl (fun n d => 10 * n + d) 0

def natural? (cs : List Char) : Option Nat :=
  match digits? false cs with
  | some ds => if ds.length ≤ maxDigits then some (ofDigits ds) else none
  | none => none

/-- Reads a whole number. Blanks may surround it, but none may follow its sign. -/
def integer? (cs : List Char) : Option Int :=
  match trimNumeral cs with
  | '-' :: rest => (natural? rest).map fun n => -(n : Int)
  | '+' :: rest => (natural? rest).map fun n => (n : Int)
  | rest => (natural? rest).map fun n => (n : Int)

end TransferFlow.Text
