import AndroidCore.Libmemunreachable.HeapWalker
import AndroidCore.Libmemunreachable.Tarjan

/-!
# `AndroidCore.Libmemunreachable.LeakFolding`: leaks that hold other leaks

The model of `LeakFolding.h` and `LeakFolding.cpp`. A leak that only other leaks refer to is
not reported on its own. The leaks and the references among them are a graph; its strongly
connected components (`SCCInfo`) form one without cycles, and the components that nothing
refers to are reported, with the number and the size of all leaks they lead to.

* A leak is known by its range, the key of `leak_map_`, and a component by its position in
  `leak_scc_`.
* A set of nodes is a set of pointers, so it is ordered by the addresses of the nodes.
  `Addresses` says which these are.
* `references_in` is modelled for the components only, since nothing reads that of a leak.
-/

namespace AndroidCore.Libmemunreachable

/-- Where the nodes of the leaks and of the components lie. -/
structure Addresses where
  leak : Range → Nat
  scc : Nat → Nat

/-- `std::set::emplace` into a set of pointers, ordered by the addresses. -/
def emplace {α : Type} (address : α → Nat) (x : α) : List α → List α
  | [] => [x]
  | y :: rest =>
    if address x < address y then x :: y :: rest
    else if address y < address x then y :: emplace address x rest
    else y :: rest

/-- `LeakFolding::SCCInfo`, with the sets of its node. -/
structure SCCInfo where
  referencesIn : List Nat
  referencesOut : List Nat
  count : Nat
  size : Nat
  cuumulativeCount : Nat
  cuumulativeSize : Nat
  dominator : Bool
  accumulator : Option Nat
  deriving DecidableEq, Repr

/-- The constructor of `SCCInfo`. -/
def SCCInfo.new : SCCInfo where
  referencesIn := []
  referencesOut := []
  count := 0
  size := 0
  cuumulativeCount := 0
  cuumulativeSize := 0
  dominator := false
  accumulator := none

/-- `LeakFolding::Leak`. -/
structure Leak where
  range : Range
  referencedCount : Nat
  referencedSize : Nat
  deriving DecidableEq, Repr

/-- `LeakFolding`: the keys of `leak_map_` in their order, `references_out` and `scc` of each
leak, and `leak_scc_` with its length. -/
structure LeakFolding where
  leaks : List Range
  references : Range → List Range
  scc : Range → Nat
  info : Nat → SCCInfo
  sccs : Nat

namespace LeakFolding

/-! ### The graph of the leaks -/

/-- The references of a leak to leaks: the loop over its words. -/
def findReferences (address : Range → Nat) (w : HeapWalker) (p : Process) (bound : Nat)
    (leak : Range) : Option (List Range) :=
  (HeapWalker.forEachPtrInRange p Prod.fst (fun (s : HeapWalker × List Range) ref =>
    if ref.2.referencedFromRoot then s else (s.1, emplace address ref.1 s.2))
    bound leak (w, [])).map Prod.snd

/-- The start of `FoldLeaks`: the leaks of a walker, and the references among them. -/
def leakGraph (address : Range → Nat) (w : HeapWalker) (p : Process) (bound : Nat) :
    Option (List (Range × List Range)) :=
  ((w.allocations.filter fun e => !e.2.referencedFromRoot).map Prod.fst).mapM fun leak => do
    let refs ← findReferences address w p bound leak
    return (leak, refs)

/-- The folding of a graph, before its components are known. -/
def ofGraph (graph : List (Range × List Range)) : LeakFolding where
  leaks := graph.map Prod.fst
  references leak := (graph.lookup leak).getD []
  scc _ := 0
  info _ := SCCInfo.new
  sccs := 0

/-! ### `ComputeDAG` -/

/-- A component changes. -/
def modify (f : LeakFolding) (i : Nat) (g : SCCInfo → SCCInfo) : LeakFolding :=
  { f with info := Function.update f.info i (g (f.info i)) }

/-- A node joins the last component. -/
def join (f : LeakFolding) (leak : Range) : LeakFolding :=
  { f with scc := Function.update f.scc leak f.sccs }.modify f.sccs fun info =>
    { info with count := info.count + 1, size := (info.size + leak.size) % addressSpace }

/-- The first loop of `ComputeDAG`: a component is made of its nodes. -/
def addComponent (f : LeakFolding) (nodes : List Range) : LeakFolding :=
  let f := nodes.foldl join f
  { f with sccs := f.sccs + 1 }

/-- `Node::Edge` between two components. -/
def edge (addresses : Addresses) (f : LeakFolding) (i j : Nat) : LeakFolding :=
  (f.modify i fun info =>
    { info with referencesOut := emplace addresses.scc j info.referencesOut }).modify j fun info =>
    { info with referencesIn := emplace addresses.scc i info.referencesIn }

/-- A reference of a leak, in the second loop of `ComputeDAG`. -/
def connect (addresses : Addresses) (leak : Range) (f : LeakFolding) (ref : Range) : LeakFolding :=
  if f.scc leak ≠ f.scc ref then f.edge addresses (f.scc leak) (f.scc ref) else f

/-- The second loop of `ComputeDAG`. -/
def connectAll (addresses : Addresses) (f : LeakFolding) : LeakFolding :=
  f.leaks.foldl (fun f leak => (f.references leak).foldl (connect addresses leak) f) f

/-- `ComputeDAG`. -/
def computeDAG (addresses : Addresses) (bound : Nat) (f : LeakFolding) : Option LeakFolding := do
  let components ← Tarjan.execute f.references bound f.leaks
  return (components.foldl addComponent f).connectAll addresses

/-! ### `AccumulateLeaks` -/

/-- The function `walk` of `AccumulateLeaks`. -/
def walk (dominator : Nat) : Nat → LeakFolding → Nat → Option LeakFolding
  | 0, _, _ => none
  | fuel + 1, f, i =>
    if (f.info i).accumulator = some dominator then some f
    else
      let f := f.modify i fun info => { info with accumulator := some dominator }
      let scc := f.info i
      let f := f.modify dominator fun info => { info with
        cuumulativeSize := (info.cuumulativeSize + scc.size) % addressSpace
        cuumulativeCount := info.cuumulativeCount + scc.count }
      scc.referencesOut.foldlM (walk dominator fuel) f

/-- The last loop of `FoldLeaks`, for one component. -/
def dominate (bound : Nat) (f : LeakFolding) (i : Nat) : Option LeakFolding :=
  if (f.info i).referencesIn.length = 0 then
    walk i bound (f.modify i fun info => { info with dominator := true }) i
  else some f

/-- `FoldLeaks` from the graph of the leaks on. -/
def foldGraph (addresses : Addresses) (bound : Nat) (graph : List (Range × List Range)) :
    Option LeakFolding := do
  let f ← computeDAG addresses bound (ofGraph graph)
  (List.range f.sccs).foldlM (dominate bound) f

/-- `FoldLeaks`. -/
def foldLeaks (addresses : Addresses) (w : HeapWalker) (p : Process) (bound : Nat) :
    Option LeakFolding := do
  let graph ← leakGraph addresses.leak w p bound
  foldGraph addresses bound graph

/-- `Leaked`: the leaks of the components that dominate. -/
def leaked (f : LeakFolding) : List Leak :=
  (f.leaks.filter fun leak => (f.info (f.scc leak)).dominator).map fun leak =>
    { range := leak
      referencedCount := (f.info (f.scc leak)).cuumulativeCount - 1
      referencedSize :=
        ((f.info (f.scc leak)).cuumulativeSize + addressSpace - leak.size) % addressSpace }

end LeakFolding

end AndroidCore.Libmemunreachable
