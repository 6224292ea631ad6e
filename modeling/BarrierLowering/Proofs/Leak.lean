import BarrierLowering.Proofs.Evasion

/-!
# Values that leak

A loop lets control pass its region by. A value may then be read where its definition was passed
by, and if the group queries are known in front of each region, that is the only thing that can
go wrong.

## Main definitions

* `Func.Reads` — a block reads a value, or a phi node behind it does.
* `Func.Leaks` — a value is read at the end of a way around its definition.
* `Func.Passable` — regions that control can pass by, with the group queries known in front.

## Main results

* `Func.not_leaks_of_sound` — in a function that is sound no value leaks.
* `Func.Loopable.leaks_looped` — what leaks when regions are passed by leaks with loops.
* `Func.Loopable.sound_looped_iff` — a function with loops is sound if no value leaks.
-/

namespace BarrierLowering

namespace Func

/-- A block reads a value, or a phi node on an edge out of it does. -/
def Reads (f : Func) (x : BlockId) (v : ValueId) : Prop :=
  .read v ∈ f.eventsOf x ∨ ∃ y, f.graph.Edge x y ∧ .read v ∈ f.edgeEvents x y

/-- A value is read in another block than it is defined in, and there is a way to that block around
the definition. The way may pass regions by. -/
def Leaks (f : Func) (rs : List Region) (v : ValueId) : Prop :=
  ∃ c x, c ≠ x ∧ (∃ i ∈ f.instrsOf c, i.result = some v) ∧ f.Reads x v ∧ f.Evades rs c x

/-- Regions that control can pass by. It comes to the end of a region only through the block in
front, and the rank and the size of the group are known there. -/
structure Passable (f : Func) (plan : Plan) (rs : List Region) : Prop where
  entry : ∀ e, f.entryId? = some e → ∀ r ∈ rs, r.start ≠ e ∧ r.succ ≠ e
  exits : ∀ r ∈ rs, ¬ f.Evades rs r.pred r.exit
  reached : ∀ r ∈ rs, ∃ w, f.graph.IsWalk (w ++ [r.succ])
  queries : ∀ v, v = plan.rank ∨ v = plan.size → v ∈ f.paramValues ∨
    ∃ c, (∃ i ∈ f.instrsOf c, i.result = some v) ∧ ∀ r ∈ rs, f.Evades rs c r.pred → r.pred = c

variable {f : Func} {guard : TurnGuard} {plan : Plan} {a b c x y : BlockId} {rs : List Region}
  {ws : List Wrap} {w : Wrap} {next : Counters} {blk : Block} {v : ValueId} {is : List BlockId}
  {past : List Event}

/-! ### Reads -/

theorem read_mem_eventsOf (hb : f.block? b = some blk) : .read v ∈ f.eventsOf b ↔
    (∃ i ∈ blk.instrs, i.isPhi = false ∧ v ∈ i.op.operands) ∨ v ∈ blk.term.operands := by
  rw [eventsOf_of_block? hb, Block.events, List.mem_append, List.mem_flatMap]
  have hinstr : ∀ i : Instr, .read v ∈ i.events ↔ i.isPhi = false ∧ v ∈ i.op.operands := by
    intro i
    unfold Instr.events
    cases i.isPhi <;> simp
  simp only [hinstr]
  simp

theorem read_mem_edgeEvents (hb : f.block? b = some blk) :
    .read v ∈ f.edgeEvents a b ↔ ∃ i ∈ blk.instrs, (a, v) ∈ i.incoming := by
  rw [edgeEvents_of_block? hb, read_mem_phiReads]

theorem mem_instrsOf (hb : f.block? b = some blk) {i : Instr} :
    i ∈ f.instrsOf b ↔ i ∈ blk.instrs := by
  rw [instrsOf_of_block? hb]

/-- What is read is an operand. -/
theorem Reads.exists_operand (h : f.Reads x v) :
    ∃ blk ∈ f.blocks, v ∈ blk.instrs.flatMap (·.op.operands) ++ blk.term.operands := by
  rcases h with h | ⟨y, -, h⟩
  · cases hblk : f.block? x with
    | none => simp [eventsOf, hblk] at h
    | some blk =>
      refine ⟨blk, (block?_mem hblk).1, List.mem_append.2 ?_⟩
      refine ((read_mem_eventsOf hblk).1 h).imp_left ?_
      rintro ⟨i, hi, -, hv⟩
      exact List.mem_flatMap.2 ⟨i, hi, hv⟩
  · cases hblk : f.block? y with
    | none => simp [edgeEvents, hblk] at h
    | some blk =>
      obtain ⟨i, hi, hin⟩ := (read_mem_edgeEvents hblk).1 h
      exact ⟨blk, (block?_mem hblk).1, List.mem_append_left _
        (List.mem_flatMap.2 ⟨i, hi, Instr.mem_operands_of_incoming hin⟩)⟩

/-- A value that is read on a walk is read at the end of a walk that has reached as much. -/
theorem ReadAfter.exists_reads {js : List Instr} (h : f.ReadAfter v js) :
    ∃ w x, f.graph.IsWalk (w ++ [x]) ∧ f.Reads x v ∧ js <+: f.instrsOn (w ++ [x]) := by
  obtain ⟨w, past, future, hw, hevents, rfl⟩ := h
  induction w using List.reverseRecOn generalizing future with
  | nil => exact absurd hw.ne_nil (by simp)
  | append_singleton w b ih =>
    rw [events_eq_arrival] at hevents
    rcases append_eq_append_cons hevents with ⟨mid, rfl, hmid⟩ | ⟨mid, harrival, -⟩
    · -- the last block reads it
      refine ⟨w, b, hw, Or.inl (hmid ▸ by simp), ?_⟩
      rw [instrsOn_eq_filterMap, events_eq_arrival, hmid, ← List.append_assoc]
      exact (List.prefix_append _ _).filterMap _
    · cases w using List.reverseRecOn with
      | nil => simp at harrival
      | append_singleton w a =>
        obtain ⟨hw', hedge⟩ := Graph.isWalk_snoc.1 hw
        rw [arrival_snoc] at harrival
        rcases append_eq_append_cons harrival with ⟨mid', rfl, hedges⟩ | ⟨mid', hev, -⟩
        · -- a phi node reads it on the way to the last block, where control reaches nothing
          refine ⟨w, a, hw', Or.inr ⟨b, hedge, hedges ▸ by simp⟩, ?_⟩
          have hnone := f.filterMap_edgeEvents a b
          rw [hedges, List.filterMap_append, List.append_eq_nil_iff] at hnone
          rw [List.filterMap_append, hnone.1, List.append_nil, ← instrsOn_eq_filterMap]
        · exact ih mid' hw' hev

/-- What is written on a walk to a block that defines a value. -/
theorem write_mem_arrival_of_mem {i : Instr} (hc : c ∈ is) (hi : i ∈ f.instrsOf c)
    (hv : i.result = some v) : .write v ∈ f.arrival is x := by
  rw [write_mem_arrival, write_mem_events]
  exact ⟨i, List.mem_flatMap.2 ⟨c, hc, hi⟩, hv⟩

/-- What is read in code that is closed was supplied, if what it starts with was. -/
theorem supplied_of_closed {known : List ValueId} {js ks : List Instr} {i : Instr}
    (hclosed : Closed known (js ++ i :: ks)) (hphi : i.isPhi = false) (hv : v ∈ i.op.operands)
    (hknown : ∀ u ∈ known, f.Supplied past u) : f.Supplied (past ++ js.flatMap Instr.events) v := by
  rcases hclosed.mem hphi hv with hv | ⟨j, hj, hres⟩
  · exact (hknown v hv).mono fun e he => List.mem_append_left _ he
  · exact Or.inr (List.mem_append_right _ (write_mem_flatMap.2 ⟨j, hj, hres⟩))

/-! ### Leaks and soundness -/

/-- A value is missing on a walk around its definition. -/
theorem not_write_of_not_mem (hnd : f.results.Nodup) {i : Instr} (hi : i ∈ f.instrsOf c)
    (hv : i.result = some v) (hc : c ∉ is) : .write v ∉ f.events is := by
  obtain ⟨blk, hblk, rfl, hmem⟩ := exists_block_of_mem_instrsOf hi
  exact fun hwrite => hc (mem_of_write_mem_events hnd hwrite hblk hmem hv)

/-- In a function that is sound no value leaks. -/
theorem not_leaks_of_sound (hs : f.Shaped) (hsound : ∀ w, f.graph.IsWalk w → f.Sound (f.events w)) :
    ¬ f.Leaks [] v := by
  rintro ⟨c, x, hne, ⟨i, hi, hres⟩, hread, hevades⟩
  obtain ⟨is, hwalk, hc⟩ := evades_nil_iff.1 hevades
  have hmissing : .write v ∉ f.events (is ++ [x]) := by
    refine not_write_of_not_mem hs.results_nodup hi hres ?_
    rw [List.mem_append, not_or, List.mem_singleton]
    exact ⟨hc, hne⟩
  have hparam : v ∉ f.paramValues := hs.results_fresh v
    (List.mem_filterMap.2 ⟨i, mem_instrs_of_mem_instrsOf hi, hres⟩)
  rcases hread with hread | ⟨y, hxy, hread⟩
  · obtain ⟨p, q, hsplit⟩ := List.append_of_mem hread
    have hevents : f.events (is ++ [x]) = f.arrival is x ++ p ++ .read v :: q := by
      rw [events_eq_arrival, hsplit, List.append_assoc]
    refine (hsound _ hwalk _ v q hevents).elim hparam fun hwrite => hmissing ?_
    rw [hevents]
    exact List.mem_append_left _ hwrite
  · obtain ⟨p, q, hsplit⟩ := List.append_of_mem hread
    have hevents : f.events (is ++ [x] ++ [y]) =
        f.events (is ++ [x]) ++ p ++ .read v :: (q ++ f.eventsOf y) := by
      rw [events_snoc, hsplit]
      simp only [List.append_assoc, List.cons_append]
    refine (hsound _ (hwalk.snoc hxy) _ v _ hevents).elim hparam fun hwrite => hmissing ?_
    refine (List.mem_append.1 hwrite).resolve_right fun hp => ?_
    have hedge : .write v ∈ f.edgeEvents x y := by
      rw [hsplit]
      exact List.mem_append_left _ hp
    exact write_not_mem_edgeEvents hedge

/-- Where a way leads that may pass regions by, a walk leads. -/
theorem Evades.exists_isWalk (h : f.Evades rs c x)
    (hreached : ∀ r ∈ rs, ∃ w, f.graph.IsWalk (w ++ [r.succ])) :
    ∃ w, f.graph.IsWalk (w ++ [x]) := by
  induction h with
  | entry he => exact ⟨[], Graph.isWalk_singleton.2 he⟩
  | edge _ _ huv ih =>
    obtain ⟨w, hw⟩ := ih
    exact ⟨_, hw.snoc huv⟩
  | skip hr => exact hreached _ hr

namespace Loopable

/-! ### Reads in a function with loops -/

/-- The phi nodes of a function with loops are those from before and those of the loops. -/
theorem phi_cases (h : f.Loopable guard plan ws next) (hc : (f.looped ws next).block? c = some blk)
    {i : Instr} (hi : i ∈ blk.instrs) (hphi : i.isPhi = true) :
    (∃ w ∈ ws, c = w.code.header ∧ blk = w.header) ∨
      ∃ old, f.block? c = some old ∧ i ∈ old.instrs := by
  obtain ⟨hblk, rfl⟩ := block?_mem hc
  rcases h.mem_looped.1 hblk with ⟨w, hw, rfl | rfl⟩ | ⟨old, hold, rfl⟩
  · exact Or.inl ⟨w, hw, rfl, rfl⟩
  · obtain ⟨zero, next', phi, rest, hcode⟩ := h.regular hw
    rw [hcode.plain_back i hi] at hphi
    cases hphi
  · refine Or.inr ⟨old, block?_id h.shaped.blocks_nodup hold, ?_⟩
    refine (List.mem_append.1 hi).resolve_right fun hi => ?_
    obtain ⟨w, hw, hi⟩ := List.mem_flatMap.1 hi
    rw [h.plain_opening (List.mem_filter.1 hw).1 i hi] at hphi
    cases hphi

/-- The phi node of a loop takes one value from the block in front of the region, and another one
from the tail. -/
theorem incoming_header (h : f.Loopable guard plan ws next) (hw : w ∈ ws) :
    ∃ zero next', (∃ i ∈ w.code.opening, i.result = some zero) ∧
      (∃ i ∈ w.code.back, i.result = some next') ∧
      ∀ i ∈ w.header.instrs, ∀ e ∈ i.incoming,
        e = (w.region.pred, zero) ∨ e = (w.code.tail, next') := by
  obtain ⟨zero, next', phi, rest, hcode⟩ := h.regular hw
  refine ⟨zero, next', hcode.zero, hcode.next, fun i hi e he => ?_⟩
  have hi' : i ∈ w.code.head := hi
  rw [hcode.head] at hi'
  rcases List.mem_cons.1 hi' with rfl | hi'
  · rw [Instr.incoming, hcode.phi_op] at he
    exact List.mem_pair.1 he
  · rw [Instr.incoming_eq_nil (hcode.plain_rest i hi')] at he
    cases he

/-- The instructions from before are where they were. -/
theorem instrsOf_subset (h : f.Loopable guard plan ws next) (hb : b ∈ f.blockIds) {i : Instr}
    (hi : i ∈ f.instrsOf b) : i ∈ (f.looped ws next).instrsOf b := by
  obtain ⟨blk, hblk⟩ := mem_blockIds_iff.1 hb
  rw [mem_instrsOf hblk] at hi
  rw [mem_instrsOf (h.block?_old hblk)]
  exact List.mem_append_left _ hi

/-- The code in front of a region is in the block in front of it. -/
theorem opening_subset (h : f.Loopable guard plan ws next) (hw : w ∈ ws) {i : Instr}
    (hi : i ∈ w.code.opening) : i ∈ (f.looped ws next).instrsOf w.region.pred := by
  obtain ⟨blk, hblk⟩ := mem_blockIds_iff.1 (h.pred_mem hw)
  rw [mem_instrsOf (h.block?_old hblk)]
  refine List.mem_append_right _ (List.mem_flatMap.2 ⟨w, List.mem_filter.2 ⟨hw, ?_⟩, hi⟩)
  exact decide_eq_true (block?_mem hblk).2.symm

/-- What was read at a block before is read there still. -/
theorem reads_looped (h : f.Loopable guard plan ws next) (hx : x ∈ f.blockIds)
    (hread : f.Reads x v) : (f.looped ws next).Reads x v := by
  obtain ⟨blk, hblk⟩ := mem_blockIds_iff.1 hx
  rcases hread with hread | ⟨y, hxy, hread⟩
  · refine Or.inl ?_
    rw [read_mem_eventsOf hblk] at hread
    rw [read_mem_eventsOf (h.block?_old hblk), Block.inner, Terminator.operands_mapTargets]
    refine hread.imp_left ?_
    rintro ⟨i, hi, hphi, hv⟩
    exact ⟨i, List.mem_append_left _ hi, hphi, hv⟩
  · obtain ⟨yblk, hyblk⟩ := mem_blockIds_iff.1 (h.shaped.mem_of_edge hxy)
    obtain ⟨i, hi, hin⟩ := (read_mem_edgeEvents hyblk).1 hread
    obtain ⟨hstart, hsucc⟩ := h.not_start_or_succ_of_phi hyblk hi (Instr.isPhi_of_incoming hin)
    refine Or.inr ⟨y, (h.edge_into_old (h.shaped.mem_of_edge hxy) hstart hsucc).2 hxy, ?_⟩
    rw [read_mem_edgeEvents (h.block?_old hyblk)]
    exact ⟨i, List.mem_append_left _ hi, hin⟩

/-! ### What every walk to a loop does -/

theorem entryId?_eq (hp : f.Passable plan (ws.map (·.region))) :
    (f.looped ws next).entryId? = f.entryId? :=
  entryId?_of_ne fun e he => ⟨fun _ hw => (hp.entry e he _ (List.mem_map_of_mem hw)).1,
    fun _ hw => (hp.entry e he _ (List.mem_map_of_mem hw)).2⟩

variable (hp : f.Passable plan (ws.map (·.region))) (h : f.Loopable guard plan ws next)

include hp h

/-- A way in the function with loops is one from before that may pass regions by. -/
theorem evades_of_isWalk (hx : x ∈ f.blockIds) (hwalk : (f.looped ws next).graph.IsWalk (is ++ [x]))
    (hc : c ∉ is) : f.Evades (ws.map (·.region)) c x :=
  (h.evades_of_looped (entryId?_eq hp) (fun _ hw => hp.exits _ (List.mem_map_of_mem hw))
    (evades_nil_iff.2 ⟨is, hwalk, hc⟩)).1 hx

/-- A way to a loop is one to the block in front of its region, and goes on from there. -/
theorem evades_pred_of_isWalk (hw : w ∈ ws) (hx : x = w.code.header ∨ x = w.code.tail)
    (hwalk : (f.looped ws next).graph.IsWalk (is ++ [x])) (hc : c ∉ is) :
    f.Evades (ws.map (·.region)) c w.region.pred ∧ w.region.pred ≠ c :=
  (h.evades_of_looped (entryId?_eq hp) (fun _ hw => hp.exits _ (List.mem_map_of_mem hw))
    (evades_nil_iff.2 ⟨is, hwalk, hc⟩)).2 w hw hx

/-- Control comes to a loop from the block in front of its region. -/
theorem pred_mem_walk (hw : w ∈ ws) (hx : x = w.code.header ∨ x = w.code.tail)
    (hwalk : (f.looped ws next).graph.IsWalk (is ++ [x])) : w.region.pred ∈ is := by
  by_contra hnot
  exact (evades_pred_of_isWalk hp h hw hx hwalk hnot).2 rfl

/-- Control comes to the tail of a loop from its header. -/
theorem header_mem_walk (hw : w ∈ ws)
    (hwalk : (f.looped ws next).graph.IsWalk (is ++ [w.code.tail])) : w.code.header ∈ is := by
  obtain ⟨is₁, is₂, rfl⟩ := List.append_of_mem (pred_mem_walk hp h hw (Or.inr rfl) hwalk)
  -- from the block in front of the region, control can only go to the header
  have hahead : ∀ {b}, (f.looped ws next).graph.Edge w.region.pred b → b = w.code.header := by
    intro b hb
    obtain ⟨t, ht, rfl⟩ := (h.edge_old (h.pred_mem hw)).1 hb
    rw [((h.isRegion hw).leaves t).1 ht, detour_start h.spaced hw]
  rw [List.append_assoc] at hwalk
  cases is₂ with
  | nil => exact absurd (hahead hwalk.edge).symm (h.header_ne_tail hw hw)
  | cons b is₂ =>
    rw [hahead hwalk.edge]
    simp

/-! ### Soundness of a function with loops -/

/-- What was supplied before is supplied in the function with loops, unless it leaks. -/
theorem supplied_old (hleak : ¬ f.Leaks (ws.map (·.region)) v) (hx : x ∈ f.blockIds)
    (hv : v ∈ f.paramValues ++ f.results) (hread : f.Reads x v)
    (hsup : ∀ w, f.graph.IsWalk (w ++ [x]) → f.Supplied (f.arrival w x ++ past) v)
    (hwalk : (f.looped ws next).graph.IsWalk (is ++ [x])) :
    (f.looped ws next).Supplied ((f.looped ws next).arrival is x ++ past) v := by
  rcases List.mem_append.1 hv with hv | hv
  · exact Or.inl hv
  obtain ⟨blk, hblk, i, hi, hres⟩ := mem_results_iff.1 hv
  have hmem : i ∈ f.instrsOf blk.id := (mem_instrsOf (block?_id h.shaped.blocks_nodup hblk)).2 hi
  by_cases hc : blk.id ∈ is
  · refine Or.inr (List.mem_append_left _ (write_mem_arrival_of_mem hc ?_ hres))
    exact h.instrsOf_subset (List.mem_map_of_mem hblk) hmem
  · -- a way around the definition leads to its own block only
    have hevades := evades_of_isWalk hp h hx hwalk hc
    obtain rfl : blk.id = x := by
      by_contra hne
      exact hleak ⟨blk.id, x, hne, ⟨i, hmem, hres⟩, hread, hevades⟩
    obtain ⟨w, hw⟩ := hevades.exists_isWalk hp.reached
    obtain ⟨w₁, w₂, hsplit, hnot⟩ := List.eq_append_cons_of_mem
      (List.mem_append_right w (List.mem_singleton.2 rfl) : blk.id ∈ w ++ [blk.id])
    refine (hsup w₁ (hsplit ▸ hw).stop).imp_right fun hwrite => List.mem_append_right _ ?_
    refine (List.mem_append.1 hwrite).resolve_left fun hwrite => ?_
    exact not_write_of_not_mem h.shaped.results_nodup hmem hres hnot (write_mem_arrival.1 hwrite)

/-- What the block in front of a region computes for it is written when control comes to a loop. -/
theorem write_opening (hw : w ∈ ws) (hx : x = w.code.header ∨ x = w.code.tail)
    (hwalk : (f.looped ws next).graph.IsWalk (is ++ [x])) {i : Instr} (hi : i ∈ w.code.opening)
    (hv : i.result = some v) : .write v ∈ (f.looped ws next).arrival is x :=
  write_mem_arrival_of_mem (pred_mem_walk hp h hw hx hwalk) (h.opening_subset hw hi) hv

/-- The rank and the size of the group are known when control comes to a loop. -/
theorem supplied_query (hw : w ∈ ws) (hx : x = w.code.header ∨ x = w.code.tail)
    (hwalk : (f.looped ws next).graph.IsWalk (is ++ [x])) (hv : v = plan.rank ∨ v = plan.size) :
    (f.looped ws next).Supplied ((f.looped ws next).arrival is x) v := by
  refine (hp.queries v hv).imp_right ?_
  rintro ⟨c, ⟨i, hi, hres⟩, hevades⟩
  obtain ⟨blk, hblk, rfl, -⟩ := exists_block_of_mem_instrsOf hi
  refine write_mem_arrival_of_mem ?_ (h.instrsOf_subset (List.mem_map_of_mem hblk) hi) hres
  by_contra hc
  obtain ⟨hpred, hne⟩ := evades_pred_of_isWalk hp h hw hx hwalk hc
  exact hne (hevades _ (List.mem_map_of_mem hw) hpred)

theorem soundAt_header (hw : w ∈ ws)
    (hwalk : (f.looped ws next).graph.IsWalk (is ++ [w.code.header])) :
    (f.looped ws next).SoundAt is w.code.header w.header := by
  obtain ⟨zero, next', phi, rest, hcode⟩ := h.regular hw
  have hquery := fun v => supplied_query hp h hw (Or.inl rfl) hwalk (v := v)
  obtain ⟨z, hz, hzero⟩ := hcode.zero
  have hzero := write_opening hp h hw (Or.inl rfl) hwalk hz hzero
  have hinstrs : w.header.instrs = phi :: rest := hcode.head
  have hphiPhi : phi.isPhi = true := by rw [Instr.isPhi, hcode.phi_op]
  have hphi : .write w.code.induction ∈ phi.events := write_mem_events_instr.2 hcode.phi_result
  refine ⟨fun js i ks hsplit hi v hv => ?_, fun v hv => ?_, fun c cblk hc hcblk i hi v hin => ?_⟩
  · rw [hinstrs] at hsplit
    cases js with
    | nil =>
      obtain ⟨rfl, -⟩ := List.cons.inj hsplit
      rw [hphiPhi] at hi
      cases hi
    | cons j js =>
      obtain ⟨rfl, rfl⟩ := List.cons.inj hsplit
      rw [List.flatMap_cons, ← List.append_assoc]
      refine supplied_of_closed hcode.closed_rest hi hv ?_
      simp only [List.forall_mem_cons]
      have hmore : ∀ {v},
          (f.looped ws next).Supplied ((f.looped ws next).arrival is w.code.header) v →
          (f.looped ws next).Supplied
            ((f.looped ws next).arrival is w.code.header ++ phi.events) v :=
        fun hsup => hsup.mono fun e he => List.mem_append_left _ he
      exact ⟨hmore (hquery _ (Or.inl rfl)), hmore (hquery _ (Or.inr rfl)), hmore (Or.inr hzero),
        Or.inr (List.mem_append_right _ hphi), List.forall_mem_nil _⟩
  · obtain ⟨i, hi, hres⟩ := hcode.turn
    refine Or.inr (List.mem_append_right _ (write_mem_flatMap.2 ⟨i, ?_, ?_⟩))
    · rw [hinstrs]
      exact List.mem_cons_of_mem _ hi
    · rw [List.mem_singleton.1 hv, hres]
  · have hphi := Instr.isPhi_of_incoming hin
    rcases h.phi_cases hcblk hi hphi with ⟨w', hw', rfl, -⟩ | ⟨old, hold, hi⟩
    · rcases (h.edge_header hw).1 hc with heq | heq
      · exact absurd (h.start_mem hw) (heq ▸ h.header_not_mem hw')
      · exact absurd heq (h.header_ne_tail hw' hw)
    · rcases (h.edge_header hw).1 hc with rfl | rfl
      · exact absurd rfl ((h.not_start_or_succ_of_phi hold hi hphi).1 w hw)
      · exact absurd (mem_blockIds_iff.2 ⟨old, hold⟩) (h.tail_not_mem hw)

theorem soundAt_tail (hw : w ∈ ws)
    (hwalk : (f.looped ws next).graph.IsWalk (is ++ [w.code.tail])) :
    (f.looped ws next).SoundAt is w.code.tail w.tail := by
  obtain ⟨zero, next', phi, rest, hcode⟩ := h.regular hw
  have hsize := supplied_query hp h hw (Or.inr rfl) hwalk (Or.inr rfl)
  have hinduction : .write w.code.induction ∈ (f.looped ws next).arrival is w.code.tail := by
    refine write_mem_arrival_of_mem (header_mem_walk hp h hw hwalk) ?_ hcode.phi_result
    rw [mem_instrsOf (h.block?_header hw)]
    show phi ∈ w.code.head
    rw [hcode.head]
    exact List.mem_cons_self
  have hback : ∀ {v}, (∃ i ∈ w.code.back, i.result = some v) → (f.looped ws next).Supplied
      ((f.looped ws next).arrival is w.code.tail ++ w.tail.instrs.flatMap Instr.events) v := by
    rintro v ⟨i, hi, hres⟩
    exact Or.inr (List.mem_append_right _ (write_mem_flatMap.2 ⟨i, hi, hres⟩))
  refine ⟨fun js i ks hsplit hi v hv => ?_, fun v hv => ?_, fun c cblk hc hcblk i hi v hin => ?_⟩
  · have hclosed : Closed [plan.size, w.code.induction] w.tail.instrs := hcode.closed_back
    rw [hsplit] at hclosed
    refine supplied_of_closed hclosed hi hv ?_
    simp only [List.forall_mem_cons]
    exact ⟨hsize, Or.inr hinduction, nofun⟩
  · rw [List.mem_singleton.1 hv]
    exact hback hcode.done
  · have hphi := Instr.isPhi_of_incoming hin
    rcases h.phi_cases hcblk hi hphi with ⟨w', hw', rfl, rfl⟩ | ⟨old, hold, hi⟩
    · obtain rfl : w' = w := by
        rcases (h.edge_tail hw).1 hc with heq | heq
        · exact absurd (h.succ_mem hw) (heq ▸ h.header_not_mem hw')
        · exact h.eq_of_header hw' hw heq
      obtain ⟨zero, next', -, hnext, hcases⟩ := h.incoming_header hw
      rcases hcases i hi _ hin with heq | heq
      · exact absurd (h.pred_mem hw) ((Prod.mk.inj heq).1 ▸ h.tail_not_mem hw)
      · rw [(Prod.mk.inj heq).2]
        exact hback hnext
    · rcases (h.edge_tail hw).1 hc with rfl | rfl
      · exact absurd rfl ((h.not_start_or_succ_of_phi hold hi hphi).2 w hw)
      · exact absurd (mem_blockIds_iff.2 ⟨old, hold⟩) (h.header_not_mem hw)

omit hp in
/-- What the code in front of a region reads was computed there. -/
theorem supplied_opening {past : List Event} {p : Wrap → Bool} {js ks : List Instr} {i : Instr}
    {v : ValueId} (hcode : (ws.filter p).flatMap (·.code.opening) = js ++ i :: ks)
    (hi : i.isPhi = false) (hv : v ∈ i.op.operands) :
    (f.looped ws next).Supplied (past ++ js.flatMap Instr.events) v := by
  obtain ⟨ws₁, w, ws₂, js₁, js₂, hws, hopening, rfl, -⟩ := flatMap_eq_append_cons hcode
  have hw : w ∈ ws := (List.mem_filter.1 (hws ▸ List.mem_append_right _ List.mem_cons_self)).1
  obtain ⟨zero, next', phi, rest, hregular⟩ := h.regular hw
  have hclosed := hregular.closed_opening
  rw [hopening] at hclosed
  rcases hclosed.mem hi hv with hv | ⟨j, hj, hres⟩
  · cases hv
  · refine Or.inr (List.mem_append_right _ (write_mem_flatMap.2 ⟨j, ?_, hres⟩))
    exact List.mem_append_right _ hj

theorem soundAt_old (hsound : ∀ w, f.graph.IsWalk w → f.Sound (f.events w))
    (hleak : ∀ v, ¬ f.Leaks (ws.map (·.region)) v)
    (hb : f.block? b = some blk) (hwalk : (f.looped ws next).graph.IsWalk (is ++ [b])) :
    (f.looped ws next).SoundAt is b (blk.inner ws) := by
  have hlocal := (sound_walks_iff h.shaped.targets_exist).1 hsound
  obtain ⟨hblk, rfl⟩ := block?_mem hb
  have hold : ∀ {past v}, v ∈ f.paramValues ++ f.results → f.Reads blk.id v →
      (∀ w, f.graph.IsWalk (w ++ [blk.id]) → f.Supplied (f.arrival w blk.id ++ past) v) →
      (f.looped ws next).Supplied ((f.looped ws next).arrival is blk.id ++ past) v :=
    fun hv hread hsup => supplied_old hp h (hleak _) (List.mem_map_of_mem hblk) hv hread hsup hwalk
  obtain ⟨hinstrs, hterm⟩ := h.shaped.operands_defined blk hblk
  have hmore : ∀ {v}, (f.looped ws next).Supplied ((f.looped ws next).arrival is blk.id ++
      blk.instrs.flatMap Instr.events) v → (f.looped ws next).Supplied
      ((f.looped ws next).arrival is blk.id ++ (blk.inner ws).instrs.flatMap Instr.events) v := by
    intro v hsup
    refine hsup.mono fun e he => ?_
    rw [Block.inner, List.flatMap_append, ← List.append_assoc]
    exact List.mem_append_left _ he
  refine ⟨fun js i ks hsplit hi v hv => ?_, fun v hv => ?_, fun c cblk hc hcblk i hi v hin => ?_⟩
  · -- an instruction from before, or one that stands in front of a region
    rcases append_eq_append_cons hsplit with ⟨m, rfl, hm⟩ | ⟨m, hblkm, -⟩
    · rw [List.flatMap_append, ← List.append_assoc]
      exact supplied_opening h hm hi hv
    · have hmem : i ∈ blk.instrs := hblkm ▸ List.mem_append_right _ List.mem_cons_self
      exact hold (hinstrs i hmem v hv)
        (Or.inl ((read_mem_eventsOf hb).2 (Or.inl ⟨i, hmem, hi, hv⟩)))
        fun w hw => (hlocal w blk.id blk hw hb).instrs js i m hblkm hi v hv
  · rw [Block.inner, Terminator.operands_mapTargets] at hv
    exact hmore (hold (hterm v hv) (Or.inl ((read_mem_eventsOf hb).2 (Or.inr hv)))
      fun w hw => (hlocal w blk.id blk hw hb).term v hv)
  · have hphi := Instr.isPhi_of_incoming hin
    rcases h.phi_cases hcblk hi hphi with ⟨w, hw, rfl, rfl⟩ | ⟨old, hcold, hi⟩
    · obtain ⟨zero, next', ⟨z, hz, hres⟩, -, hcases⟩ := h.incoming_header hw
      rcases hcases i hi _ hin with heq | heq
      · obtain ⟨hpred, rfl⟩ := Prod.mk.inj heq
        refine Or.inr (List.mem_append_right _ (write_mem_flatMap.2 ⟨z, ?_, hres⟩))
        refine List.mem_append_right _ (List.mem_flatMap.2 ⟨w, List.mem_filter.2 ⟨hw, ?_⟩, hz⟩)
        exact decide_eq_true hpred.symm
      · exact absurd (List.mem_map_of_mem hblk) ((Prod.mk.inj heq).1 ▸ h.tail_not_mem hw)
    · obtain ⟨hstart, hsucc⟩ := h.not_start_or_succ_of_phi hcold hi hphi
      have hedge := (h.edge_into_old (mem_blockIds_iff.2 ⟨old, hcold⟩) hstart hsucc).1 hc
      have hval := (h.shaped.operands_defined old (block?_mem hcold).1).1 i hi v
        (Instr.mem_operands_of_incoming hin)
      exact hmore (hold hval (Or.inr ⟨c, hedge, (read_mem_edgeEvents hcold).2 ⟨i, hi, hin⟩⟩)
        fun w hw => (hlocal w blk.id blk hw hb).phis c old hedge hcold i hi v hin)

/-- What leaks when regions are passed by leaks in the function with loops. -/
theorem leaks_looped (hleak : f.Leaks (ws.map (·.region)) v) : (f.looped ws next).Leaks [] v := by
  obtain ⟨c, x, hne, ⟨i, hi, hres⟩, hread, hevades⟩ := hleak
  obtain ⟨blk, hblk, rfl, -⟩ := exists_block_of_mem_instrsOf hi
  have hc : blk.id ∈ f.blockIds := List.mem_map_of_mem hblk
  have hx := hevades.mem_blockIds h.shaped fun r hr => (h.spaced.region r hr).succ_mem h.shaped
  exact ⟨blk.id, x, hne, ⟨i, h.instrsOf_subset hc hi, hres⟩, h.reads_looped hx hread,
    h.evades_looped (entryId?_eq hp) hc hevades⟩

/-- A function with loops is sound if and only if no value leaks. -/
theorem sound_looped_iff (hsound : ∀ w, f.graph.IsWalk w → f.Sound (f.events w))
    (hshaped : (f.looped ws next).Shaped) :
    (∀ w, (f.looped ws next).graph.IsWalk w →
      (f.looped ws next).Sound ((f.looped ws next).events w)) ↔
      ∀ v, ¬ f.Leaks (ws.map (·.region)) v := by
  refine ⟨fun hall v hleak => not_leaks_of_sound hshaped hall (leaks_looped hp h hleak),
    fun hleak => ?_⟩
  rw [sound_walks_iff hshaped.targets_exist]
  intro is b blk hwalk hb
  obtain ⟨hblk, rfl⟩ := block?_mem hb
  rcases h.mem_looped.1 hblk with ⟨w, hw, rfl | rfl⟩ | ⟨old, hold, rfl⟩
  · exact soundAt_header hp h hw hwalk
  · exact soundAt_tail hp h hw hwalk
  · exact soundAt_old hp h hsound hleak (block?_id h.shaped.blocks_nodup hold) hwalk

end Loopable

end Func

end BarrierLowering
