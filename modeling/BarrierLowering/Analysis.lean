import BarrierLowering.Stage

/-!
# Planning a kernel

The analysis only reads the kernel. It asks for the group queries in the entry block, for
one order of the barriers along all paths, for barriers outside cycles, and for values
that do not cross a barrier, and it gives the first reason that it finds against the
kernel.

## Main definitions

* `Block.findQueries` — the group queries of an entry block.
* `Func.draft` — the plan for a kernel before its values are looked at.
* `Func.plan` — the plan for a kernel, or the reason why there is none.
-/

namespace BarrierLowering

/-- A group query: its position in the block, its identifier, its result and its type. -/
structure Query where
  pos : Nat
  instr : InstrId
  value : ValueId
  ty : Ty

namespace Block

/-- The last instruction of the given kind that has a result. -/
def lastQuery? (rule : NameRule) (kind : CallKind) (blk : Block) : Option Query :=
  (blk.instrs.zipIdx.filterMap fun (i, pos) =>
    match i.result with
    | some v => if i.kind rule = kind then some ⟨pos, i.id, v, i.ty⟩ else none
    | none => none).getLast?

/-- The group queries of an entry block. No barrier may come before the last of them. -/
def findQueries (rule : NameRule) (entry : Block) : Except Rejection Queries :=
  match entry.lastQuery? rule .threadRank, entry.lastQuery? rule .groupSize with
  | none, _ => .error .noRankQuery
  | some _, none => .error .noSizeQuery
  | some rank, some size =>
    let anchor := if rank.pos < size.pos then size else rank
    match (entry.instrs.take anchor.pos).find? fun i => i.kind rule = .barrier with
    | some barrier => .error (.barrierBeforeQueries barrier.id)
    | none => .ok ⟨rank.instr, anchor.instr, rank.value, size.value, rank.ty, size.ty⟩

end Block

/-- The plan for a function, as far as its barriers are concerned: whether a value crosses
one is not looked at yet. -/
def Func.draft (config : Config) (f : Func) : Except Rejection Plan := do
  match f.entry? with
  | none => throw .noBlocks
  | some entry =>
    let barriers := f.barrierMap config.nameRule
    if barriers.isEmpty then
      throw .noBarriers
    let queries ← entry.findQueries config.nameRule
    let (order, survey) ← f.survey config.maxPaths barriers
    let records := f.barrierRecords barriers order survey
    match records.find? fun r => r.pattern ≠ .simple with
    | some bad => throw (.unsupportedPattern bad.instr bad.block bad.pattern)
    | none => return ⟨queries, order, records, survey.examined⟩

/-- The plan for lowering a function, or the reason why it is left as it is. -/
def Func.plan (config : Config) (f : Func) : Except Rejection Plan := do
  let draft ← f.draft config
  match f.crossing? ⟨draft.anchor, draft.barriers⟩ with
  | some (value, barrier) => throw (.liveAcrossBarrier value barrier)
  | none => return draft

end BarrierLowering
