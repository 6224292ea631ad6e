import BarrierLowering.Func
import BarrierLowering.Graph

/-!
# Dominance

A node dominates another when every walk from the entry to the second visits the first.
The dominators are the greatest solution of an equation: those of a node other than the
entry are the node itself and what dominates all its predecessors. The computation starts
from all candidates and strikes out those that break the equation until none does.

## Main definitions

* `DomTable` — candidate dominators, one row per reachable node.
* `DomTable.strike` — one round of striking out.
* `Graph.dominators` — the table that is left at the end.
* `DomTable.isReachable`, `DomTable.dominates` — reading the table.
-/

namespace BarrierLowering

/-- Candidate dominators: each reachable node with the nodes not yet ruled out for it. -/
abbrev DomTable (ν : Type) := List (ν × List ν)

namespace DomTable

variable {ν : Type} [DecidableEq ν]

/-- The number of candidates in the table. -/
def size (t : DomTable ν) : Nat := (t.flatMap (·.2)).length

/-- Whether the table has a row for a node. -/
def isReachable (t : DomTable ν) (v : ν) : Bool := (t.lookup v).isSome

/-- Whether `d` is left as a dominator of `v`. A node that no walk reaches is dominated by
every node. -/
def dominates (t : DomTable ν) (d v : ν) : Bool :=
  match t.lookup v with
  | some row => d ∈ row
  | none => true

end DomTable

namespace Graph

variable {ν : Type} [DecidableEq ν]

/-- The reachable nodes other than the entry, each with its reachable predecessors. -/
def reachablePreds (g : Graph ν) : List (ν × List ν) :=
  let edges := g.reachable.map fun v => (v, g.succs v)
  (edges.filter fun (v, _) => g.entry ≠ some v).map fun (v, _) =>
    (v, (edges.filter fun (_, targets) => v ∈ targets).map (·.1))

/-- All candidates: only the entry for the entry, every reachable node for the others. -/
def candidates (g : Graph ν) : DomTable ν :=
  let all := g.reachable
  all.map fun v => (v, if g.entry = some v then [v] else all)

end Graph

namespace DomTable

variable {ν : Type} [DecidableEq ν]

/-- Strike out the candidates of `v` that are neither `v` itself nor candidates of all its
predecessors. -/
def strikeAt (t : DomTable ν) (v : ν) (preds : List ν) : DomTable ν :=
  let predRows := (t.filter fun (p, _) => p ∈ preds).map (·.2)
  t.map fun (w, row) =>
    (w, if w = v then row.filter fun d => d = v || predRows.all fun predRow => d ∈ predRow
      else row)

/-- Strike out the candidates of one node after another. -/
def strike (preds : List (ν × List ν)) (t : DomTable ν) : DomTable ν :=
  preds.foldl (fun t (v, ps) => strikeAt t v ps) t

/-- Strike out candidates for as long as there are any to strike out. -/
def settle (preds : List (ν × List ν)) (t : DomTable ν) : DomTable ν :=
  let struck := strike preds t
  if struck.size < t.size then settle preds struck else t
termination_by t.size

end DomTable

/-- The dominators of the reachable nodes. -/
def Graph.dominators {ν : Type} [DecidableEq ν] (g : Graph ν) : DomTable ν :=
  DomTable.settle g.reachablePreds g.candidates

/-- The control flow of a function. -/
def Func.graph (f : Func) : Graph BlockId := ⟨f.entryId?, f.blockIds, f.successors⟩

/-- The dominators of the reachable blocks. -/
def Func.dominators (f : Func) : DomTable BlockId := f.graph.dominators

end BarrierLowering
