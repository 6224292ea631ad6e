import BarrierLowering.Emit
import BarrierLowering.Region

/-!
# Loops around regions

The threads of a group run a region one after another: a loop around it counts from zero to
the size of the group, and each iteration runs the region or passes it by, as the turn
guard says. Control enters the header from the block in front of the region. The header
goes to the start of the region if it is the turn of the thread, else to the tail, where
the end of the region leads as well. The tail goes back to the header for the next turn,
and to the barrier after the last.

## Main definitions

* `TurnLoop` — the blocks and values of a generated loop.
* `TurnGuard.emit` — the test at the head of a loop.
* `Region.wrap` — build the loop around a region.
-/

namespace BarrierLowering

/-- The blocks and values of a generated loop. -/
structure TurnLoop where
  /-- The barrier that closes the region. -/
  key : InstrId
  pred : BlockId
  header : BlockId
  /-- The first block of the region. -/
  body : BlockId
  tail : BlockId
  succ : BlockId
  /-- The value in the header that counts the iterations. -/
  induction : ValueId
  /-- The slot on the stack that is set to zero before the loop. -/
  slot : ValueId
  deriving DecidableEq

/-- Append the test whether it is the turn of the thread with the given rank. -/
def TurnGuard.emit (guard : TurnGuard) (header : BlockId) (rank size zero induction : ValueId)
    (ty : Ty) : Edit EditError ValueId := do
  match guard with
  | .rankAndSize =>
    let masked ← Emit.and header rank size ty
    Emit.eq header masked zero
  | .rankEqualsIteration => Emit.eq header rank induction

/-- Close the phi node of a loop. It must still be the phi node that the header began with. -/
def closePhi (induction : ValueId) (tail : BlockId) (next : ValueId) : Edit LoweringError Unit := do
  let function := (← get).name
  ExceptT.adapt
    (fun
      | .notAPhi value | .unknownValue value => .missingPhi function value
      | cause => .edit cause)
    (Edit.addIncoming induction tail next)

/-- Build the loop around a region. The header takes over the edges to the start of the
region, the tail those to its barrier. The guard compares at the type of the group size, so
a rank of another type is converted first. -/
def Region.wrap (region : Region) (guard : TurnGuard) (plan : Plan) :
    Edit LoweringError TurnLoop := do
  let ty := plan.sizeTy
  let (zero, slot, header, tail, induction) ← Edit.lift do
    let zero ← Emit.int region.pred 0 ty
    let slot ← Emit.alloca region.pred ty
    let _ ← Emit.store region.pred slot zero
    let header ← Edit.splitLabeled region.start 0 "cg.header"
    let tail ← Edit.splitLabeled region.succ 0 "cg.tail"
    let induction ← Emit.phi header [(region.pred, zero)] ty
    return (zero, slot, header, tail, induction)
  let next ← Edit.lift do
    let rank ← if plan.rankTy = ty then pure plan.rank else Emit.cast header plan.rank ty
    let turn ← guard.emit header rank plan.size zero induction ty
    Emit.condBranch header turn region.start tail
    let one ← Emit.int tail 1 ty
    Emit.add tail induction one ty
  closePhi induction tail next
  Edit.lift do
    let done ← Emit.uge tail next plan.size
    Emit.condBranch tail done region.succ header
  return ⟨region.key, region.pred, header, region.start, tail, region.succ, induction, slot⟩

end BarrierLowering
