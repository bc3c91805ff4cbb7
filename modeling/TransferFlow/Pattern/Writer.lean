import TransferFlow.Pattern

namespace TransferFlow

namespace Step

def write (s : Step) : List Char :=
  s.capability.toList

end Step

namespace Leg

/-- The leg as it follows an entity. -/
def write (l : Leg) : List Char :=
  [' '] ++ l.arrow.chars ++ [' '] ++ l.step.write ++ [' '] ++ l.arrow.chars ++ [' '] ++
    l.target.toList

end Leg

/-- Writes texts one after another with an ampersand between them. -/
def writeBranches : List (List Char) → List Char
  | [] => []
  | [cs] => cs
  | cs :: rest => cs ++ [' ', '&', ' '] ++ writeBranches rest

namespace Branch

/-- The branch of a fan-out along `a`. -/
def write (a : Arrow) (b : Branch) : List Char :=
  b.step.write ++ [' '] ++ a.chars ++ [' '] ++ b.target.toList ++ b.onward.flatMap Leg.write

end Branch

namespace Hop

/-- The hop as it follows an entity or another hop. -/
def write : Hop → List Char
  | .single leg => leg.write
  | .fanIn a steps target =>
    [' '] ++ a.chars ++ [' ', '('] ++ writeBranches (steps.map Step.write) ++ [')', ' '] ++
      a.chars ++ [' '] ++ target.toList
  | .fanOut a branches =>
    [' '] ++ a.chars ++ [' ', '('] ++ writeBranches (branches.map (Branch.write a)) ++ [')']

end Hop

namespace Chain

def write (c : Chain) : List Char :=
  c.entity.toList ++ c.hops.flatMap Hop.write

end Chain

namespace Pattern

/-- The line that describes the pattern. -/
def write (p : Pattern) : List Char :=
  p.main.write ++ p.post.flatMap fun c => [' ', '>', '>', ' '] ++ c.write

end Pattern

end TransferFlow
