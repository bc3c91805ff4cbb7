import TransferFlow.Step

namespace TransferFlow

structure Leg where
  arrow : Arrow
  step : Step
  target : String
  deriving DecidableEq, Repr

/-- A branch of a fan-out: a step to a target, and legs that continue from there. -/
structure Branch where
  step : Step
  target : String
  onward : List Leg
  deriving DecidableEq, Repr

inductive Hop where
  | single (leg : Leg)
  | fanIn (arrow : Arrow) (steps : List Step) (target : String)
  | fanOut (arrow : Arrow) (branches : List Branch)
  deriving DecidableEq, Repr

/-- An entity and the hops that lead on from it. -/
structure Chain where
  entity : String
  hops : List Hop
  deriving DecidableEq, Repr

/-- A main chain, and the post-processing chains behind it. -/
structure Pattern where
  main : Chain
  post : List Chain
  deriving DecidableEq, Repr

def Hop.leg? : Hop → Option Leg
  | .single leg => some leg
  | _ => none

/-- The hops as legs, if none of them is a group. -/
def Chain.legs? (c : Chain) : Option (List Leg) :=
  c.hops.mapM Hop.leg?

def Pattern.chains (p : Pattern) : List Chain :=
  p.main :: p.post

end TransferFlow
