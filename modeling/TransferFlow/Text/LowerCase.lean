import TransferFlow.Text.CaseTable

namespace TransferFlow.Text

def inRanges (ranges : List (Nat × Nat)) (c : Char) : Bool :=
  ranges.any fun (first, last) => first ≤ c.toNat && c.toNat ≤ last

def isCased (c : Char) : Bool :=
  inRanges casedRanges c

def isCaseIgnorable (c : Char) : Bool :=
  inRanges caseIgnorableRanges c

/-- The small form of one letter, found in the run that the letter belongs to. -/
def smallLetter (c : Char) : Char :=
  let n := c.toNat
  match capitalRuns.find? fun (first, last, step, _) =>
      first ≤ n && n ≤ last && (n - first) % step == 0 with
  | some (first, _, _, image) => Char.ofNat (image + (n - first))
  | none => c

/-- The next character that case rules do not look through is a letter. -/
def meetsLetter (cs : List Char) : Bool :=
  (cs.dropWhile isCaseIgnorable).head?.any isCased

/-- A capital sigma ends a word when a letter comes before it and none comes after it. `before` is
read backwards from the sigma. -/
def sigma (before after : List Char) : Char :=
  if meetsLetter before && !meetsLetter after then 'ς' else 'σ'

/-- Lowers the text that stands behind `before`, which is given last character first. -/
def lowerAfter (before : List Char) : List Char → List Char
  | [] => []
  | c :: after =>
    let rest := lowerAfter (c :: before) after
    if c = 'Σ' then sigma before after :: rest
    else if c = 'İ' then 'i' :: '\u0307' :: rest
    else smallLetter c :: rest

def lower (cs : List Char) : List Char :=
  lowerAfter [] cs

end TransferFlow.Text
