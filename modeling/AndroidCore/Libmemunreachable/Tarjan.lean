import Mathlib.Logic.Function.Basic

/-!
# `AndroidCore.Libmemunreachable.Tarjan`: strongly connected components

The model of `Tarjan.h`. The nodes are of any type; `out` lists the nodes that a node refers
to, in the order of its set `references_out`. The fields `index` and `lowlink` of the nodes
are part of the state of the algorithm, and an index of `UNDEFINED_INDEX` is `none`.

`tarjan` calls itself for the nodes that a node refers to, so it takes a bound on the depth
of the calls.
-/

namespace AndroidCore.Libmemunreachable

/-- `TarjanAlgorithm`, with the fields of the nodes. -/
structure Tarjan (ν : Type) where
  indexOf : ν → Option Nat
  lowlink : ν → Nat
  index : Nat
  /-- `stack_`, with its back in front. -/
  stack : List ν
  components : List (List ν)

namespace Tarjan

variable {ν : Type} [DecidableEq ν]

/-- The start of `Execute`. -/
def start : Tarjan ν where
  indexOf _ := none
  lowlink _ := 0
  index := 0
  stack := []
  components := []

/-- A node gets its index and goes on the stack. -/
def enter (s : Tarjan ν) (v : ν) : Tarjan ν where
  indexOf := Function.update s.indexOf v (some s.index)
  lowlink := Function.update s.lowlink v s.index
  index := s.index + 1
  stack := v :: s.stack
  components := s.components

/-- `vertex->lowlink = std::min(vertex->lowlink, low)`. -/
def lower (s : Tarjan ν) (v : ν) (low : Nat) : Tarjan ν :=
  { s with lowlink := Function.update s.lowlink v (min (s.lowlink v) low) }

/-- The loop that pops a component: the component, and what is left of the stack. -/
def popUntil (v : ν) : List ν → List ν × List ν
  | [] => ([], [])
  | w :: rest =>
    if w = v then ([w], rest)
    else (w :: (popUntil v rest).1, (popUntil v rest).2)

/-- The end of `Tarjan`: a node whose `lowlink` is its index is the root of a component. -/
def leave (s : Tarjan ν) (v : ν) : Tarjan ν :=
  if s.indexOf v = some (s.lowlink v) then
    { s with
      stack := (popUntil v s.stack).2
      components := s.components ++ [(popUntil v s.stack).1] }
  else s

/-- `TarjanAlgorithm::Tarjan`; `none` also when the assertion at its start fails. -/
def tarjan (out : ν → List ν) : Nat → Tarjan ν → ν → Option (Tarjan ν)
  | 0, _, _ => none
  | fuel + 1, s, v =>
    if s.indexOf v ≠ none then none
    else do
      let s ← (out v).foldlM (fun s w =>
        if s.indexOf w = none then do
          let s ← tarjan out fuel s w
          return s.lower v (s.lowlink w)
        else if w ∈ s.stack then some (s.lower v ((s.indexOf w).getD 0))
        else some s) (s.enter v)
      return s.leave v

/-- `TarjanAlgorithm::Execute`. -/
def execute (out : ν → List ν) (bound : Nat) (graph : List ν) : Option (List (List ν)) := do
  let s ← graph.foldlM (fun s v =>
    if s.indexOf v = none then tarjan out bound s v else some s) start
  return s.components

/-- The first loop of `Execute`: the fields of a node that the graph does not list keep what an
earlier run, or nothing at all, has written to them. -/
def reset (s : Tarjan ν) (graph : List ν) : Tarjan ν where
  indexOf v := if v ∈ graph then none else s.indexOf v
  lowlink v := if v ∈ graph then 0 else s.lowlink v
  index := 0
  stack := []
  components := []

/-- `Execute` on nodes that carry values from before. -/
def executeOn (out : ν → List ν) (bound : Nat) (s : Tarjan ν) (graph : List ν) :
    Option (Tarjan ν) :=
  graph.foldlM (fun s v => if s.indexOf v = none then tarjan out bound s v else some s)
    (s.reset graph)

end Tarjan

end AndroidCore.Libmemunreachable
