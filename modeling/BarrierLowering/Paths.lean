import BarrierLowering.Graph

/-!
# Maximal acyclic paths

A maximal acyclic path starts at the entry, visits no node twice, and ends where it cannot
go on: at a node without successors, or before a successor that it has visited already.
Their number can grow exponentially with the size of the graph, so the walk over them is
bounded, hands them out one by one, and can be broken off.

## Main definitions

* `Path`, `PathEnd` — a path, its number and how it ended.
* `Graph.visitPaths` — show every path to a visitor, depth first.
* `Graph.enumerate` — all paths, in the order of their numbers.
-/

namespace BarrierLowering

/-- How a path ended. -/
inductive PathEnd
  /-- The last node has no successors. -/
  | exit
  /-- The next node is on the path already. -/
  | backEdge
  deriving DecidableEq

/-- A maximal acyclic path. -/
structure Path (ν : Type) where
  /-- Paths are numbered from zero in the order in which their first own edge is found. -/
  id : Nat
  nodes : List ν
  finish : PathEnd
  deriving DecidableEq

/-- Whether the path ended at a node without successors. -/
def Path.isExit {ν : Type} (p : Path ν) : Bool := p.finish = .exit

/-- The bound on the number of paths that holds where no other is given. -/
def defaultMaxPaths : Nat := 4096

/-- The message about a graph with more than `limit` paths. -/
def pathLimitText (limit : Nat) : String :=
  "control-flow path limit of " ++ toString limit ++ " exceeded"

/-- Shows a visitor one more path. It answers with its new state and, to break off, with a
reason. -/
abbrev Visitor (ν σ β : Type) := σ → Path ν → σ × Option β

/-- How a visit of the paths ended. -/
inductive VisitEnd (β : Type)
  /-- All paths were shown. -/
  | complete
  /-- The visitor broke off. -/
  | broken (reason : β)
  /-- There are more paths than the limit. -/
  | overLimit
  deriving DecidableEq

/-- A visit under way: the next path number, and the state of the visitor. -/
structure Visit (σ : Type) where
  nextId : Nat
  state : σ

/-- A step of a visit: it goes on, or it has ended in a state of the visitor. -/
abbrev VisitStep (σ β : Type) := Except (σ × VisitEnd β)

/-- Show one path. -/
def Visit.show {ν σ β : Type} (visitor : Visitor ν σ β) (path : Path ν) (v : Visit σ) :
    VisitStep σ β (Visit σ) :=
  match visitor v.state path with
  | (state, none) => .ok { v with state }
  | (state, some reason) => .error (state, .broken reason)

namespace Graph

variable {ν σ β : Type} [DecidableEq ν]

/-- Show the paths that go on from `trail` to `node`. The path numbered `id` takes the first
successor at every branch; each other successor is a new path, numbered as soon as the
branch is met. -/
def visitFrom (g : Graph ν) (limit : Nat) (visitor : Visitor ν σ β) (id : Nat) (trail : List ν)
    (node : ν) (v : Visit σ) : VisitStep σ β (Visit σ) :=
  if node ∈ trail then v.show visitor ⟨id, trail, .backEdge⟩
  else
    match _ : g.succs node with
    | [] => v.show visitor ⟨id, trail ++ [node], .exit⟩
    | first :: others =>
      if limit < v.nextId + others.length then .error (v.state, .overLimit)
      else
        ((first, id) :: others.zipIdx v.nextId).foldlM
          (fun v (succ, id) => g.visitFrom limit visitor id (trail ++ [node]) succ v)
          { v with nextId := v.nextId + others.length }
termination_by (g.outside trail).length
decreasing_by
  rename_i hsuccs _
  refine g.length_outside_append_lt ?_ ‹node ∉ trail› List.mem_cons_self
  by_cases hnode : node ∈ g.nodes
  · exact hnode
  · simp [succs, hnode] at hsuccs

/-- Show every path to a visitor, the ones through the first successor of a node first. The
visit ends at once where a branch makes the number of paths exceed the limit. -/
def visitPaths (g : Graph ν) (limit : Nat) (visitor : Visitor ν σ β) (state : σ) :
    σ × VisitEnd β :=
  match g.entry with
  | none => (state, .complete)
  | some entry =>
    if limit = 0 then (state, .overLimit)
    else
      match g.visitFrom limit visitor 0 [] entry ⟨1, state⟩ with
      | .ok v => (v.state, .complete)
      | .error ended => ended

/-- All paths, in the order of their numbers; nothing if there are more than the limit. -/
def enumerate (g : Graph ν) (limit : Nat) : Option (List (Path ν)) :=
  let collect : Visitor ν (List (Path ν)) Empty := fun paths path => (path :: paths, none)
  match g.visitPaths limit collect [] with
  | (paths, .complete) => some (paths.mergeSort fun a b => a.id ≤ b.id)
  | (_, .overLimit) => none

end Graph

end BarrierLowering
