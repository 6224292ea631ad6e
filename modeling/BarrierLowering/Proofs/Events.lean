import BarrierLowering.Defect
import BarrierLowering.Proofs.Flow

/-!
# What happens on a walk

A walk through a function runs the instructions of its blocks. Only the order of what happens
matters here, not the values: which instruction is reached, which value is read, and which is
written. A phi node reads on the edge into its block, and it reads the value that belongs to
the block that the edge comes from.

## Main definitions

* `Event` — an instruction is reached, a value is read, a value is written.
* `Func.events` — the events of a walk.
* `Func.ReadAfter` — on some walk a value is read when control has reached given instructions.
* `Func.Supplied`, `Func.Sound` — each value is written, or bound to a parameter, before it
  is read.

## Main results

* `Func.events_snoc` — the events of a walk that goes on.
* `Func.sound_append_iff`, `Func.sound_block_iff` — soundness block by block.
-/

namespace BarrierLowering

/-- A member of two lists in a row is in the second one or in the first. -/
theorem append_eq_append_cons {α : Type} {l l' past future : List α} {x : α}
    (h : l ++ l' = past ++ x :: future) :
    (∃ mid, past = l ++ mid ∧ l' = mid ++ x :: future) ∨
      ∃ mid, l = past ++ x :: mid ∧ future = mid ++ l' := by
  rcases List.append_eq_append_iff.1 h with ⟨mid, hpast, hmid⟩ | ⟨mid, hl, hmid⟩
  · exact Or.inl ⟨mid, hpast, hmid⟩
  · cases mid with
    | nil => exact Or.inl ⟨[], by rw [hl, List.append_nil, List.append_nil], hmid.symm⟩
    | cons y mid =>
      obtain ⟨rfl, rfl⟩ := List.cons.inj hmid
      exact Or.inr ⟨mid, hl, rfl⟩

/-- An event of a walk. -/
inductive Event
  /-- Control reaches an instruction. -/
  | reach (i : Instr)
  /-- A value is read. -/
  | read (v : ValueId)
  /-- A value is written. -/
  | write (v : ValueId)
  deriving DecidableEq

/-- The instruction that control reaches, if the event says so. -/
def Event.instr? : Event → Option Instr
  | .reach i => some i
  | _ => none

/-- The blocks a phi node names, each with the value that belongs to it. -/
def Instr.incoming (i : Instr) : List (BlockId × ValueId) :=
  match i.op with
  | .phi incoming => incoming
  | _ => []

theorem Instr.incoming_eq_nil {i : Instr} (h : i.isPhi = false) : i.incoming = [] := by
  cases hop : i.op <;> simp_all [Instr.isPhi, Instr.incoming]

theorem Instr.isPhi_of_incoming {i : Instr} {e : BlockId × ValueId} (h : e ∈ i.incoming) :
    i.isPhi = true := by
  by_contra hne
  rw [incoming_eq_nil (Bool.eq_false_iff.2 hne)] at h
  cases h

theorem Instr.mem_operands_of_incoming {i : Instr} {b : BlockId} {v : ValueId}
    (h : (b, v) ∈ i.incoming) : v ∈ i.op.operands := by
  unfold incoming at h
  cases hop : i.op with
  | phi incoming =>
    rw [hop] at h
    exact List.mem_map_of_mem h
  | _ => simp [hop] at h

/-- The events of an instruction. The reads of a phi node come before its block. -/
def Instr.events (i : Instr) : List Event :=
  .reach i :: ((if i.isPhi then [] else i.op.operands.map .read) ++ i.result.toList.map .write)

/-- The events of a block. -/
def Block.events (blk : Block) : List Event :=
  blk.instrs.flatMap Instr.events ++ blk.term.operands.map .read

/-- What the phi nodes of a block read when control comes from `source`. -/
def Block.phiReads (blk : Block) (source : BlockId) : List Event :=
  blk.instrs.flatMap fun i => (i.incoming.filter fun e => e.1 = source).map fun e => .read e.2

namespace Func

/-- The instructions of the block with the given identifier. -/
def instrsOf (f : Func) (b : BlockId) : List Instr := ((f.block? b).map (·.instrs)).getD []

/-- The instructions that a walk runs. -/
def instrsOn (f : Func) (w : List BlockId) : List Instr := w.flatMap f.instrsOf

/-- The events of the block with the given identifier. -/
def eventsOf (f : Func) (b : BlockId) : List Event := ((f.block? b).map (·.events)).getD []

/-- The events on the edge from one block to another. -/
def edgeEvents (f : Func) (a b : BlockId) : List Event :=
  ((f.block? b).map fun blk => blk.phiReads a).getD []

/-- The events of a walk. -/
def events (f : Func) : List BlockId → List Event
  | [] => []
  | [b] => f.eventsOf b
  | a :: b :: w => f.eventsOf a ++ f.edgeEvents a b ++ f.events (b :: w)

/-- The events on the way to a block, before the block itself. -/
def arrival (f : Func) (w : List BlockId) (b : BlockId) : List Event :=
  match w.getLast? with
  | some a => f.events w ++ f.edgeEvents a b
  | none => []

/-- A value is bound to a parameter, or was written. -/
def Supplied (f : Func) (past : List Event) (v : ValueId) : Prop :=
  v ∈ f.paramValues ∨ .write v ∈ past

/-- Every value that is read was supplied before. -/
def Sound (f : Func) (es : List Event) : Prop :=
  ∀ past v future, es = past ++ .read v :: future → f.Supplied past v

/-- On some walk a value is read when control has reached the given instructions. -/
def ReadAfter (f : Func) (v : ValueId) (is : List Instr) : Prop :=
  ∃ w past future, f.graph.IsWalk w ∧ f.events w = past ++ .read v :: future ∧
    past.filterMap Event.instr? = is

variable {f : Func} {a b : BlockId} {blk : Block} {v : ValueId} {w w₁ w₂ : List BlockId}

/-! ### The events of a longer walk -/

theorem eventsOf_of_block? (h : f.block? b = some blk) : f.eventsOf b = blk.events := by
  rw [eventsOf, h]
  rfl

theorem edgeEvents_of_block? (h : f.block? b = some blk) : f.edgeEvents a b = blk.phiReads a := by
  rw [edgeEvents, h]
  rfl

theorem instrsOf_of_block? (h : f.block? b = some blk) : f.instrsOf b = blk.instrs := by
  rw [instrsOf, h]
  rfl

@[simp] theorem instrsOn_nil (f : Func) : f.instrsOn [] = [] := rfl

@[simp] theorem instrsOn_cons (f : Func) (b : BlockId) (w : List BlockId) :
    f.instrsOn (b :: w) = f.instrsOf b ++ f.instrsOn w := rfl

@[simp] theorem instrsOn_append (f : Func) (w₁ w₂ : List BlockId) :
    f.instrsOn (w₁ ++ w₂) = f.instrsOn w₁ ++ f.instrsOn w₂ := List.flatMap_append

theorem exists_block_of_mem_instrsOf {i : Instr} (hi : i ∈ f.instrsOf b) :
    ∃ blk ∈ f.blocks, blk.id = b ∧ i ∈ blk.instrs := by
  rw [instrsOf] at hi
  cases hblk : f.block? b with
  | none => simp [hblk] at hi
  | some blk =>
    rw [hblk] at hi
    exact ⟨blk, (block?_mem hblk).1, (block?_mem hblk).2, hi⟩

theorem mem_instrs_of_mem_instrsOf {i : Instr} (hi : i ∈ f.instrsOf b) : i ∈ f.instrs := by
  obtain ⟨blk, hblk, -, hi⟩ := exists_block_of_mem_instrsOf hi
  exact List.mem_flatMap.2 ⟨blk, hblk, hi⟩

theorem mem_instrs_of_mem_instrsOn {i : Instr} (hi : i ∈ f.instrsOn w) : i ∈ f.instrs := by
  obtain ⟨b, -, hi⟩ := List.mem_flatMap.1 hi
  exact mem_instrs_of_mem_instrsOf hi

@[simp] theorem events_nil (f : Func) : f.events [] = [] := rfl

@[simp] theorem events_singleton (f : Func) (b : BlockId) : f.events [b] = f.eventsOf b := rfl

theorem events_cons_cons (f : Func) (a b : BlockId) (w : List BlockId) :
    f.events (a :: b :: w) = f.eventsOf a ++ f.edgeEvents a b ++ f.events (b :: w) := rfl

/-- The events of a walk, cut at an edge. -/
theorem events_append (f : Func) (w₁ : List BlockId) (a b : BlockId) (w₂ : List BlockId) :
    f.events (w₁ ++ a :: b :: w₂) =
      f.events (w₁ ++ [a]) ++ f.edgeEvents a b ++ f.events (b :: w₂) := by
  induction w₁ with
  | nil => rfl
  | cons c w₁ ih =>
    cases w₁ with
    | nil =>
      rw [List.singleton_append, events_cons_cons, events_cons_cons, List.singleton_append,
        events_cons_cons, events_singleton]
      simp only [List.append_assoc]
    | cons d w₁ =>
      simp only [List.cons_append, events_cons_cons] at ih ⊢
      rw [ih]
      simp only [List.append_assoc]

/-- The events of a walk that goes on by one block. -/
theorem events_snoc (f : Func) (w : List BlockId) (a b : BlockId) :
    f.events (w ++ [a] ++ [b]) = f.events (w ++ [a]) ++ f.edgeEvents a b ++ f.eventsOf b := by
  rw [List.append_assoc, List.singleton_append, events_append, events_singleton]

@[simp] theorem arrival_nil (f : Func) (b : BlockId) : f.arrival [] b = [] := rfl

@[simp] theorem arrival_snoc (f : Func) (w : List BlockId) (a b : BlockId) :
    f.arrival (w ++ [a]) b = f.events (w ++ [a]) ++ f.edgeEvents a b := by
  rw [arrival, List.getLast?_append, List.getLast?_singleton, Option.some_or]

theorem events_eq_arrival (f : Func) (w : List BlockId) (b : BlockId) :
    f.events (w ++ [b]) = f.arrival w b ++ f.eventsOf b := by
  induction w using List.reverseRecOn with
  | nil => rfl
  | append_singleton w a => rw [events_snoc, arrival_snoc]

/-- What happens on the first part of a walk happens first. -/
theorem events_prefix (f : Func) (w₁ w₂ : List BlockId) : f.events w₁ <+: f.events (w₁ ++ w₂) := by
  induction w₂ using List.reverseRecOn with
  | nil => exact ⟨[], by rw [List.append_nil, List.append_nil]⟩
  | append_singleton w₂ b ih =>
    refine ih.trans ?_
    rw [← List.append_assoc, events_eq_arrival]
    cases h : (w₁ ++ w₂) using List.reverseRecOn with
    | nil => exact List.nil_prefix
    | append_singleton w a =>
      rw [arrival_snoc, List.append_assoc]
      exact List.prefix_append _ _

/-! ### Reached and written -/

theorem write_mem_events_instr {i : Instr} : .write v ∈ i.events ↔ i.result = some v := by
  unfold Instr.events
  split <;> simp [Option.mem_toList]

theorem write_mem_flatMap {is : List Instr} :
    .write v ∈ is.flatMap Instr.events ↔ ∃ i ∈ is, i.result = some v := by
  simp only [List.mem_flatMap, write_mem_events_instr]

theorem write_mem_eventsOf : .write v ∈ f.eventsOf b ↔ ∃ i ∈ f.instrsOf b, i.result = some v := by
  unfold eventsOf instrsOf
  cases f.block? b with
  | none => simp
  | some blk =>
    show .write v ∈ blk.events ↔ ∃ i ∈ blk.instrs, i.result = some v
    rw [Block.events, List.mem_append, write_mem_flatMap]
    simp

theorem write_not_mem_edgeEvents : .write v ∉ f.edgeEvents a b := by
  unfold edgeEvents
  cases f.block? b with
  | none => simp
  | some blk =>
    show .write v ∉ blk.phiReads a
    simp [Block.phiReads]

/-- What was written on a walk is the result of an instruction that it ran. -/
theorem write_mem_events : .write v ∈ f.events w ↔ ∃ i ∈ f.instrsOn w, i.result = some v := by
  simp only [instrsOn, List.mem_flatMap]
  induction w using List.reverseRecOn with
  | nil => simp
  | append_singleton w b ih =>
    have harrival : .write v ∈ f.arrival w b ↔ .write v ∈ f.events w := by
      cases w using List.reverseRecOn with
      | nil => simp
      | append_singleton w a =>
        rw [arrival_snoc, List.mem_append, or_iff_left write_not_mem_edgeEvents]
    rw [events_eq_arrival, List.mem_append, harrival, ih, write_mem_eventsOf]
    simp only [List.mem_append, List.mem_singleton, or_and_right, exists_or, exists_eq_left]

/-- Control reaches no instruction on an edge. -/
theorem filterMap_edgeEvents (f : Func) (a b : BlockId) :
    (f.edgeEvents a b).filterMap Event.instr? = [] := by
  unfold edgeEvents
  cases f.block? b with
  | none => rfl
  | some blk =>
    show (blk.phiReads a).filterMap Event.instr? = []
    rw [Block.phiReads, List.filterMap_flatMap, List.flatMap_eq_nil_iff]
    intro i _
    rw [List.filterMap_map, List.filterMap_eq_nil_iff]
    exact fun _ _ => rfl

/-- Reads reach nothing. -/
theorem filterMap_reads (vs : List ValueId) : (vs.map Event.read).filterMap Event.instr? = [] := by
  rw [List.filterMap_map, List.filterMap_eq_nil_iff]
  exact fun _ _ => rfl

/-- Control reaches the instructions that it runs. -/
theorem filterMap_flatMap_events (is : List Instr) :
    (is.flatMap Instr.events).filterMap Event.instr? = is := by
  have hinstr : ∀ i : Instr, i.events.filterMap Event.instr? = [i] := by
    intro i
    rw [Instr.events, List.filterMap_cons_some (by rfl), List.filterMap_append, List.filterMap_map]
    split
    · cases i.result <;> rfl
    · rw [filterMap_reads]
      cases i.result <;> rfl
  rw [List.filterMap_flatMap]
  simp only [hinstr, List.flatMap_singleton']

/-- In a block, control reaches its instructions. -/
theorem filterMap_eventsOf (f : Func) (b : BlockId) :
    (f.eventsOf b).filterMap Event.instr? = f.instrsOf b := by
  unfold eventsOf instrsOf
  cases f.block? b with
  | none => rfl
  | some blk =>
    show blk.events.filterMap Event.instr? = blk.instrs
    rw [Block.events, List.filterMap_append, filterMap_reads, List.append_nil,
      filterMap_flatMap_events]

/-- The instructions that a walk runs are those that control reaches on it. -/
theorem instrsOn_eq_filterMap (f : Func) (w : List BlockId) :
    f.instrsOn w = (f.events w).filterMap Event.instr? := by
  induction w using List.reverseRecOn with
  | nil => rfl
  | append_singleton w b ih =>
    have hblock : f.instrsOn (w ++ [b]) = f.instrsOn w ++ f.instrsOf b := by
      rw [instrsOn_append, instrsOn_cons, instrsOn_nil, List.append_nil]
    cases w using List.reverseRecOn with
    | nil => exact hblock.trans (f.filterMap_eventsOf b).symm
    | append_singleton w a =>
      rw [hblock, ih, events_snoc, List.filterMap_append, List.filterMap_append,
        filterMap_edgeEvents, List.append_nil, filterMap_eventsOf]

theorem filterMap_arrival (f : Func) (w : List BlockId) (b : BlockId) :
    (f.arrival w b).filterMap Event.instr? = f.instrsOn w := by
  cases w using List.reverseRecOn with
  | nil => rfl
  | append_singleton w a =>
    rw [arrival_snoc, List.filterMap_append, filterMap_edgeEvents, List.append_nil,
      instrsOn_eq_filterMap]

/-! ### Reads on walks -/

/-- What is read at the end of a walk, when control has reached part of its last block. -/
theorem readAfter_of_events {future past : List Event} (hw : f.graph.IsWalk (w ++ [b]))
    (hev : f.eventsOf b = past ++ .read v :: future) :
    f.ReadAfter v (f.instrsOn w ++ past.filterMap Event.instr?) := by
  refine ⟨w ++ [b], f.arrival w b ++ past, future, hw, ?_, ?_⟩
  · rw [events_eq_arrival, hev, List.append_assoc]
  · rw [List.filterMap_append, filterMap_arrival]

/-- What a phi node reads on an edge, when control has reached all that comes before. -/
theorem readAfter_of_edge (hw : f.graph.IsWalk (w ++ [a])) (hab : f.graph.Edge a b)
    (hread : .read v ∈ f.edgeEvents a b) : f.ReadAfter v (f.instrsOn (w ++ [a])) := by
  obtain ⟨past, future, hev⟩ := List.append_of_mem hread
  have hnone := f.filterMap_edgeEvents a b
  rw [hev, List.filterMap_append, List.append_eq_nil_iff] at hnone
  refine ⟨w ++ [a] ++ [b], f.events (w ++ [a]) ++ past, future ++ f.eventsOf b, hw.snoc hab, ?_, ?_⟩
  · rw [events_snoc, hev]
    simp
  · rw [List.filterMap_append, hnone.1, List.append_nil, instrsOn_eq_filterMap]

/-- Control has reached instructions of the function only. -/
theorem ReadAfter.mem_instrs {is : List Instr} (h : f.ReadAfter v is) {i : Instr} (hi : i ∈ is) :
    i ∈ f.instrs := by
  obtain ⟨w, past, future, -, hev, rfl⟩ := h
  have hon : i ∈ f.instrsOn w := by
    rw [instrsOn_eq_filterMap, hev, List.filterMap_append]
    exact List.mem_append_left _ hi
  obtain ⟨b, -, hi⟩ := List.mem_flatMap.1 hon
  exact mem_instrs_of_mem_instrsOf hi

/-! ### Soundness, part by part -/

theorem Supplied.mono {past past' : List Event} (h : f.Supplied past v)
    (hsub : ∀ e ∈ past, e ∈ past') : f.Supplied past' v :=
  h.imp_right (hsub _)

theorem sound_nil (f : Func) : f.Sound [] := by
  intro past v future h
  simp at h

/-- Soundness of two parts, the second in the light of the first. -/
theorem sound_append_iff {es es' : List Event} : f.Sound (es ++ es') ↔ f.Sound es ∧
    ∀ past v future, es' = past ++ .read v :: future → f.Supplied (es ++ past) v := by
  constructor
  · intro h
    refine ⟨fun past v future heq => ?_, fun past v future heq => ?_⟩
    · exact h past v (future ++ es') (by rw [heq, List.append_assoc, List.cons_append])
    · exact h (es ++ past) v future (by rw [heq, List.append_assoc])
  · rintro ⟨h, h'⟩ past v future heq
    rcases append_eq_append_cons heq with ⟨mid, rfl, heq'⟩ | ⟨mid, heq', -⟩
    · exact h' mid v future heq'
    · exact h past v mid heq'

theorem Sound.of_initial {es es' : List Event} (h : f.Sound es) (hp : es' <+: es) :
    f.Sound es' := by
  obtain ⟨rest, rfl⟩ := hp
  exact (sound_append_iff.1 h).1

/-- A member of a concatenation is a member of one of its parts. -/
theorem flatMap_eq_append_cons {α β : Type} {g : α → List β} {l : List α} {past future : List β}
    {x : β} (h : l.flatMap g = past ++ x :: future) :
    ∃ l₁ c l₂ p q, l = l₁ ++ c :: l₂ ∧ g c = p ++ x :: q ∧ past = l₁.flatMap g ++ p ∧
      future = q ++ l₂.flatMap g := by
  induction l generalizing past with
  | nil => simp at h
  | cons c l ih =>
    rw [List.flatMap_cons] at h
    rcases append_eq_append_cons h with ⟨mid, rfl, hmid⟩ | ⟨mid, hc, rfl⟩
    · obtain ⟨l₁, d, l₂, p, q, rfl, hd, rfl, rfl⟩ := ih hmid
      exact ⟨c :: l₁, d, l₂, p, q, rfl, hd, by simp, rfl⟩
    · exact ⟨[], c, l, past, mid, rfl, hc, rfl, rfl⟩

/-- The reads of an instruction. -/
theorem read_split_instr {i : Instr} {past future : List Event}
    (h : i.events = past ++ .read v :: future) :
    i.isPhi = false ∧ v ∈ i.op.operands ∧ ∀ u, .write u ∉ past := by
  unfold Instr.events at h
  cases past with
  | nil => cases h
  | cons e past =>
    obtain ⟨rfl, htail⟩ := List.cons.inj h
    have hwrite : ∀ p q, i.result.toList.map Event.write ≠ p ++ .read v :: q := by
      intro p q heq
      have hmem : .read v ∈ i.result.toList.map Event.write := by simp [heq]
      simp at hmem
    cases hphi : i.isPhi with
    | true =>
      rw [hphi] at htail
      exact absurd htail (hwrite _ _)
    | false =>
      rw [hphi] at htail
      rcases append_eq_append_cons htail with ⟨mid, rfl, hmid⟩ | ⟨mid, hops, -⟩
      · exact absurd hmid (hwrite _ _)
      · have hops' : i.op.operands.map Event.read = past ++ .read v :: mid := hops
        refine ⟨rfl, ?_, fun u hu => ?_⟩
        · have hmem : .read v ∈ i.op.operands.map Event.read := by simp [hops']
          simpa using hmem
        · have hmem : .write u ∈ i.op.operands.map Event.read := by
            rw [hops']
            exact List.mem_append_left _ ((List.mem_cons.1 hu).resolve_left (by simp))
          simp at hmem

/-- An instruction that is no phi node reads its operands before it writes. -/
theorem exists_read_split {i : Instr} (hphi : i.isPhi = false) (hv : v ∈ i.op.operands) :
    ∃ past future, i.events = past ++ .read v :: future ∧ past.filterMap Event.instr? = [i] ∧
      ∀ u, .write u ∉ past := by
  obtain ⟨ops₁, ops₂, hops⟩ := List.append_of_mem hv
  refine ⟨.reach i :: ops₁.map .read, ops₂.map .read ++ i.result.toList.map .write, ?_, ?_, ?_⟩
  · simp [Instr.events, hphi, hops]
  · rw [List.filterMap_cons_some (by rfl), filterMap_reads]
  · simp

/-- What an instruction reads at the end of a walk, when control has reached it. -/
theorem readAfter_of_instr {is js : List Instr} {i : Instr} (hw : f.graph.IsWalk (w ++ [b]))
    (hb : f.block? b = some blk) (hsplit : blk.instrs = is ++ i :: js) (hphi : i.isPhi = false)
    (hv : v ∈ i.op.operands) : f.ReadAfter v (f.instrsOn w ++ (is ++ [i])) := by
  obtain ⟨p, q, hpq, hp, -⟩ := exists_read_split hphi hv
  have hev : f.eventsOf b = (is.flatMap Instr.events ++ p) ++ .read v ::
      (q ++ js.flatMap Instr.events ++ blk.term.operands.map .read) := by
    simp [eventsOf_of_block? hb, Block.events, hsplit, hpq]
  have hread := readAfter_of_events hw hev
  rwa [List.filterMap_append, filterMap_flatMap_events, hp] at hread

/-- What a terminator reads at the end of a walk. -/
theorem readAfter_of_term (hw : f.graph.IsWalk (w ++ [b])) (hb : f.block? b = some blk)
    (hv : v ∈ blk.term.operands) : f.ReadAfter v (f.instrsOn (w ++ [b])) := by
  obtain ⟨p, q, hpq⟩ := List.append_of_mem hv
  have hev : f.eventsOf b = (blk.instrs.flatMap Instr.events ++ p.map .read) ++ .read v ::
      q.map .read := by
    simp [eventsOf_of_block? hb, Block.events, hpq]
  have hread := readAfter_of_events hw hev
  rw [List.filterMap_append, filterMap_flatMap_events, filterMap_reads, List.append_nil] at hread
  rwa [instrsOn_append, instrsOn_cons, instrsOn_nil, List.append_nil, instrsOf_of_block? hb]

/-- A block is sound after what came before it if its instructions and its terminator read
only what was supplied when they are reached. -/
theorem sound_block_iff {before : List Event} :
    (∀ past v future, blk.events = past ++ .read v :: future → f.Supplied (before ++ past) v) ↔
      (∀ is i js, blk.instrs = is ++ i :: js → i.isPhi = false → ∀ v ∈ i.op.operands,
        f.Supplied (before ++ is.flatMap Instr.events) v) ∧
      ∀ v ∈ blk.term.operands, f.Supplied (before ++ blk.instrs.flatMap Instr.events) v := by
  constructor
  · intro h
    refine ⟨fun is i js hsplit hphi v hv => ?_, fun v hv => ?_⟩
    · obtain ⟨p, q, hi, -, hp⟩ := exists_read_split hphi hv
      have hev : blk.events = (is.flatMap Instr.events ++ p) ++ .read v ::
          (q ++ js.flatMap Instr.events ++ blk.term.operands.map .read) := by
        simp [Block.events, hsplit, hi]
      -- the operands of the instruction itself write nothing
      refine (h _ v _ hev).imp_right fun hw => ?_
      rw [← List.append_assoc, List.mem_append] at hw
      exact hw.resolve_right (hp v)
    · obtain ⟨ops₁, ops₂, hops⟩ := List.append_of_mem hv
      have hev : blk.events = (blk.instrs.flatMap Instr.events ++ ops₁.map .read) ++
          .read v :: ops₂.map .read := by
        simp [Block.events, hops]
      refine (h _ v _ hev).imp_right fun hw => ?_
      rw [← List.append_assoc, List.mem_append] at hw
      exact hw.resolve_right (by simp)
  · rintro ⟨hinstrs, hterm⟩ past v future hev
    rw [Block.events] at hev
    rcases append_eq_append_cons hev with ⟨mid, rfl, hmid⟩ | ⟨mid, heq, -⟩
    · have hv : v ∈ blk.term.operands := by
        have hmem : .read v ∈ blk.term.operands.map Event.read := by simp [hmid]
        simpa using hmem
      exact (hterm v hv).mono fun e he => by
        rw [← List.append_assoc]
        exact List.mem_append_left _ he
    · obtain ⟨is, i, js, p, q, hsplit, hi, rfl, -⟩ := flatMap_eq_append_cons heq
      obtain ⟨hphi, hv, -⟩ := read_split_instr hi
      exact (hinstrs is i js hsplit hphi v hv).mono fun e he => by
        rw [← List.append_assoc]
        exact List.mem_append_left _ he

/-- The reads of the phi nodes of a block on the edge from `a`. -/
theorem read_mem_phiReads : .read v ∈ blk.phiReads a ↔ ∃ i ∈ blk.instrs, (a, v) ∈ i.incoming := by
  simp only [Block.phiReads, List.mem_flatMap, List.mem_map, List.mem_filter, decide_eq_true_iff,
    Event.read.injEq, Prod.exists]
  constructor
  · rintro ⟨i, hi, _, _, ⟨hin, rfl⟩, rfl⟩
    exact ⟨i, hi, hin⟩
  · rintro ⟨i, hi, hin⟩
    exact ⟨i, hi, a, v, ⟨hin, rfl⟩, rfl⟩

end Func

end BarrierLowering
