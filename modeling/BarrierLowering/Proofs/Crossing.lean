import BarrierLowering.Proofs.Order

/-!
# Values that cross a barrier

On a walk of a planned kernel a value is lost when control comes to a barrier after the value was
defined behind the barrier before, or behind the group queries. A loop around that stretch may
pass its definition by. The kernel crosses a barrier if a lost value is read.

## Main definitions

* `Ledger`, `BarrierOrder.ledger` — the values that are lost after some instructions, and those
  that would be lost next.
* `Func.Loses`, `Func.Crosses` — a value is read on some walk when it is lost.

## Main results

* `Func.Cuts.loses_iff` — splits do not change which values are read when they are lost.
* `Func.Sequenced.leaks_iff_loses` — in a divided kernel these are the values that leak.
-/

namespace BarrierLowering

/-- What became of the values that were defined on a walk. -/
structure Ledger where
  /-- The values defined since the last barrier, or since the group queries. -/
  recent : List ValueId
  /-- The values that were recent when control came to a barrier. -/
  lost : List ValueId

namespace BarrierOrder

/-- Control reaches one more instruction. -/
def pass (o : BarrierOrder) (t : Ledger) (i : Instr) : Ledger :=
  if i.id ∈ o.barriers then ⟨[], t.lost ++ t.recent⟩
  else if i.id = o.anchor then ⟨[], t.lost⟩
  else ⟨t.recent ++ i.result.toList, t.lost⟩

/-- What became of the values after some instructions. -/
def ledger (o : BarrierOrder) (is : List Instr) : Ledger := is.foldl o.pass ⟨[], []⟩

variable {o : BarrierOrder} {t : Ledger} {is js : List Instr} {i : Instr} {v : ValueId}

theorem ledger_append : o.ledger (is ++ js) = js.foldl o.pass (o.ledger is) :=
  List.foldl_append

/-- A lost value stays lost. -/
theorem lost_foldl (h : v ∈ t.lost) : v ∈ (is.foldl o.pass t).lost := by
  induction is generalizing t with
  | nil => exact h
  | cons i is ih =>
    refine ih ?_
    unfold pass
    split
    · exact List.mem_append_left _ h
    · split <;> exact h

/-- Without barriers nothing is lost. -/
theorem lost_foldl_of_not_barrier (h : ∀ i ∈ is, i.id ∉ o.barriers) :
    (is.foldl o.pass t).lost = t.lost := by
  induction is generalizing t with
  | nil => rfl
  | cons i is ih =>
    rw [List.foldl_cons, ih fun j hj => h j (List.mem_cons_of_mem _ hj), pass,
      if_neg (h i List.mem_cons_self)]
    split <;> rfl

theorem lost_ledger_append (h : v ∈ (o.ledger is).lost) : v ∈ (o.ledger (is ++ js)).lost := by
  rw [ledger_append]
  exact lost_foldl h

/-- Between marks the results become recent. -/
theorem foldl_pass_of_not_mark (h : ∀ i ∈ is, i.id ∉ o.barriers ∧ i.id ≠ o.anchor) :
    is.foldl o.pass t = ⟨t.recent ++ is.filterMap (·.result), t.lost⟩ := by
  induction is generalizing t with
  | nil => simp
  | cons i is ih =>
    obtain ⟨hbarrier, hanchor⟩ := h i List.mem_cons_self
    rw [List.foldl_cons, pass, if_neg hbarrier, if_neg hanchor,
      ih fun j hj => h j (List.mem_cons_of_mem _ hj), List.append_assoc]
    cases hres : i.result with
    | none => rw [List.filterMap_cons_none hres]; rfl
    | some u => rw [List.filterMap_cons_some hres]; rfl

end BarrierOrder

namespace Func

/-- On some walk a value is read when it is lost. -/
def Loses (f : Func) (o : BarrierOrder) (v : ValueId) : Prop :=
  ∃ is, f.ReadAfter v is ∧ v ∈ (o.ledger is).lost

/-- A value that is lost is read on some walk. -/
def Crosses (f : Func) (o : BarrierOrder) : Prop :=
  ∃ w past v future, f.graph.IsWalk w ∧ f.events w = past ++ .read v :: future ∧
    v ∈ (o.ledger (past.filterMap Event.instr?)).lost

variable {f g : Func} {o : BarrierOrder} {rule : NameRule} {plan : Plan}
  {front first b c p x : BlockId} {regions : List Region} {r : Region} {w is : List BlockId}
  {v : ValueId}

theorem crosses_iff : f.Crosses o ↔ ∃ v, f.Loses o v := by
  constructor
  · rintro ⟨w, past, v, future, hw, hevents, hlost⟩
    exact ⟨v, _, ⟨w, past, future, hw, hevents, rfl⟩, hlost⟩
  · rintro ⟨v, _, ⟨w, past, future, hw, hevents, rfl⟩, hlost⟩
    exact ⟨w, past, v, future, hw, hevents, hlost⟩

/-- Splits change neither what is read nor what has been reached by then. -/
theorem Cuts.readAfter_iff {is : List Instr} (h : f.Cuts g) :
    g.ReadAfter v is ↔ f.ReadAfter v is := by
  constructor
  · rintro ⟨w, past, future, hw, hevents, hreached⟩
    obtain ⟨w₀, hw₀, rest, hrest⟩ := h.events_down hw
    refine ⟨w₀, past, future ++ rest, hw₀, ?_, hreached⟩
    rw [← hrest, hevents, List.append_assoc, List.cons_append]
  · rintro ⟨w, past, future, hw, hevents, hreached⟩
    obtain ⟨w', hw', heq⟩ := h.events_up hw
    exact ⟨w', past, future, hw', heq.trans hevents, hreached⟩

/-- Splits do not change which values are read when they are lost. -/
theorem Cuts.loses_iff (h : f.Cuts g) : g.Loses o v ↔ f.Loses o v :=
  exists_congr fun _ => and_congr_left fun _ => h.readAfter_iff

/-- In a block with one instruction, control reaches it before anything is read. -/
theorem reached_of_read {i : Instr} {past future : List Event} (hi : f.instrsOf b = [i])
    (hev : f.eventsOf b = past ++ .read v :: future) : past.filterMap Event.instr? = [i] := by
  have hall := f.filterMap_eventsOf b
  cases hblk : f.block? b with
  | none => rw [instrsOf, hblk] at hi; cases hi
  | some blk =>
    rw [instrsOf_of_block? hblk] at hi
    rw [hev, instrsOf_of_block? hblk, hi] at hall
    rw [eventsOf_of_block? hblk, Block.events, hi, List.flatMap_singleton, Instr.events] at hev
    cases past with
    | nil => cases hev
    | cons e past =>
      obtain ⟨rfl, -⟩ := List.cons.inj hev
      rw [List.cons_append, List.filterMap_cons_some (by rfl), List.filterMap_append] at hall
      rw [List.filterMap_cons_some (by rfl), (List.append_eq_nil_iff.1 (List.cons.inj hall).2).1]

/-- A value that is read when it is lost is read at the end of a walk. -/
theorem Loses.exists_reads (h : f.Loses o v) : ∃ w x, f.graph.IsWalk (w ++ [x]) ∧
    f.Reads x v ∧ v ∈ (o.ledger (f.instrsOn (w ++ [x]))).lost := by
  obtain ⟨is, hread, hlost⟩ := h
  obtain ⟨w, x, hw, hreads, rest, hrest⟩ := hread.exists_reads
  exact ⟨w, x, hw, hreads, hrest ▸ BarrierOrder.lost_ledger_append hlost⟩

namespace Sequenced

/-! ### The ledger of a divided kernel -/

variable (h : f.Sequenced rule plan front first regions) (hn : f.Numbered)

include h hn

/-- The marks are the last group query and the barriers. -/
theorem not_mark (hb : b ∉ first :: regions.map (·.succ)) :
    ∀ i ∈ f.instrsOf b, i.id ∉ plan.barriers ∧ i.id ≠ plan.anchor := by
  intro i hi
  refine ⟨fun hkey => hb (List.mem_cons_of_mem _ ?_), fun hanchor => hb ?_⟩
  · exact h.toDivided.mem_succs_of_barrier hn hi hkey
  · obtain ⟨label, ys, y, back, hblk, hy⟩ := h.anchored
    have hmem : y ∈ f.instrsOf first := (mem_instrsOf hblk).2 (by simp)
    rw [(eq_of_mem_instrsOf hn.instrs_nodup hi hmem (hanchor.trans hy.symm)).1]
    exact List.mem_cons_self

/-- Between marks the results become recent. -/
theorem foldl_between {t : Ledger} (his : ∀ b ∈ is, b ∉ first :: regions.map (·.succ)) :
    (f.instrsOn is).foldl (BarrierOrder.pass ⟨plan.anchor, plan.barriers⟩) t =
      ⟨t.recent ++ (f.instrsOn is).filterMap (·.result), t.lost⟩ := by
  refine BarrierOrder.foldl_pass_of_not_mark fun i hi => ?_
  obtain ⟨b, hb, hi⟩ := List.mem_flatMap.1 hi
  exact h.not_mark hn (his b hb) i hi

/-- Behind the group queries nothing is recent. -/
theorem foldl_first {t : Ledger} :
    (f.instrsOf first).foldl (BarrierOrder.pass ⟨plan.anchor, plan.barriers⟩) t = ⟨[], t.lost⟩ := by
  obtain ⟨label, ys, y, back, hblk, hy⟩ := h.anchored
  have hquiet : ∀ i ∈ ys ++ [y], i.id ∉ plan.barriers := fun i hi hkey =>
    h.first_not_mem (h.toDivided.mem_succs_of_barrier hn ((mem_instrsOf hblk).2 hi) hkey)
  have hlost := BarrierOrder.lost_foldl_of_not_barrier (o := ⟨plan.anchor, plan.barriers⟩) (t := t)
    fun i hi => hquiet i (List.mem_append_left _ hi)
  rw [instrsOf_of_block? hblk, List.foldl_append, List.foldl_cons, List.foldl_nil,
    BarrierOrder.pass, if_neg (hquiet y (by simp)), if_pos hy, hlost]

omit hn in
/-- At a barrier what was recent is lost. -/
theorem foldl_succ {t : Ledger} (hr : r ∈ regions) :
    (f.instrsOf r.succ).foldl (BarrierOrder.pass ⟨plan.anchor, plan.barriers⟩) t =
      ⟨[], t.lost ++ t.recent⟩ := by
  obtain ⟨x, hx, hid⟩ := h.instrsOf_succ hr
  have hkey : x.id ∈ plan.barriers := by
    rw [hid, ← h.keys]
    exact List.mem_map_of_mem hr
  rw [hx, List.foldl_cons, List.foldl_nil, BarrierOrder.pass, if_pos hkey]

/-- Behind a mark, and past no other one, the results of what is in between are recent. -/
theorem ledger_between {w₁ w₂ : List BlockId} (hp : p ∈ first :: regions.map (·.succ))
    (hw₂ : ∀ b ∈ w₂, b ∉ first :: regions.map (·.succ)) :
    (BarrierOrder.ledger ⟨plan.anchor, plan.barriers⟩ (f.instrsOn (w₁ ++ p :: w₂))).recent =
      (f.instrsOn w₂).filterMap (·.result) := by
  have hrecent : ∀ t : Ledger,
      ((f.instrsOf p).foldl (BarrierOrder.pass ⟨plan.anchor, plan.barriers⟩) t).recent = [] := by
    intro t
    rcases List.mem_cons.1 hp with rfl | hp
    · rw [h.foldl_first hn]
    · obtain ⟨r, hr, rfl⟩ := List.mem_map.1 hp
      rw [h.foldl_succ hr]
  rw [instrsOn, List.flatMap_append, List.flatMap_cons, BarrierOrder.ledger_append,
    List.foldl_append, ← instrsOn, ← instrsOn, h.foldl_between hn hw₂, hrecent, List.nil_append]

/-- What is recent when control comes to a barrier was defined inside its region. -/
theorem inside_of_recent (hr : r ∈ regions) (hw : f.graph.IsWalk (w ++ [r.succ]))
    (hv : v ∈ (BarrierOrder.ledger ⟨plan.anchor, plan.barriers⟩ (f.instrsOn w)).recent) :
    ∃ c, f.Inside (first :: regions.map (·.succ)) r c ∧ ∃ i ∈ f.instrsOf c, i.result = some v := by
  have hfirst : first ∈ w := by
    have hne : w ++ [r.succ] ≠ [front] := by
      intro heq
      have hmem : r.succ ∈ [front] := heq ▸ List.mem_append_right w (List.mem_singleton.2 rfl)
      rw [List.mem_singleton] at hmem
      exact h.front_not_mem (hmem ▸ List.mem_cons_of_mem _ (succ_mem hr))
    refine (List.mem_append.1 ((h.first_mem_of_isWalk hw).resolve_left hne)).resolve_right ?_
    exact fun heq => h.first_not_mem (List.mem_singleton.1 heq ▸ succ_mem hr)
  obtain ⟨w₁, p, w₂, rfl, hp, hw₂⟩ := exists_last (p := (· ∈ first :: regions.map (·.succ)))
    ⟨first, hfirst, List.mem_cons_self⟩
  -- the last mark is the block in front of the region
  obtain ⟨l, hl⟩ := h.before_succ hr hw
  have hrest : stops regions w₂ = [] :=
    stops_eq_nil fun b hb hin => hw₂ b hb (List.mem_cons_of_mem _ hin)
  have hpred : p = r.pred := by
    rcases List.mem_cons.1 hp with heq | hp
    · rw [heq] at hw hl ⊢
      have hnone : stops regions w₁ = [] := by
        refine stops_eq_nil fun b hb hin => ?_
        obtain ⟨r', hr', rfl⟩ := List.mem_map.1 hin
        obtain ⟨w₃, w₄, rfl⟩ := List.append_of_mem hb
        rw [List.append_assoc, List.append_assoc] at hw
        exact h.not_first_after hr' (Graph.transGen_of_isChain hw.rest
          (List.mem_append_right w₄ List.mem_cons_self)).to_reflTransGen
      rw [stops_append, hnone, stops_cons_of_not_mem h.first_not_mem, hrest] at hl
      have hone : [] ++ [first] = l ++ [r.pred] := hl
      exact List.singleton_inj.1 (List.append_inj_right' hone rfl)
    · rw [stops_append, stops_cons_of_mem hp, hrest, ← List.cons_append] at hl
      exact List.singleton_inj.1 (List.append_inj_right' hl rfl)
  rw [h.ledger_between hn hp hw₂] at hv
  obtain ⟨i, hi, hres⟩ := List.mem_filterMap.1 hv
  obtain ⟨c, hc, hi⟩ := List.mem_flatMap.1 hi
  refine ⟨c, ⟨w₂, ?_, hc, hw₂⟩, i, hi, hres⟩
  rw [List.append_assoc, hpred] at hw
  exact hw.rest

/-- What is lost was defined inside a region that is behind. -/
theorem exists_region_of_lost : ∀ w x, f.graph.IsWalk (w ++ [x]) →
    ∀ v ∈ (BarrierOrder.ledger ⟨plan.anchor, plan.barriers⟩ (f.instrsOn (w ++ [x]))).lost,
      ∃ r ∈ regions, ∃ c, f.Inside (first :: regions.map (·.succ)) r c ∧ f.After r x ∧
        ∃ i ∈ f.instrsOf c, i.result = some v := by
  have hsnoc : ∀ w x, f.instrsOn (w ++ [x]) = f.instrsOn w ++ f.instrsOf x := by simp
  refine Graph.IsWalk.snocInduction (fun e he v hv => ?_) fun w u x hw hux ih v hv => ?_
  · have hfront : f.graph.entry = some front := h.entry
    rw [hfront] at he
    cases he
    rw [List.nil_append, BarrierOrder.ledger, h.foldl_between hn] at hv
    · cases hv
    · intro b hb
      exact List.mem_singleton.1 hb ▸ h.front_not_mem
  · have hkeep : v ∈ (BarrierOrder.ledger ⟨plan.anchor, plan.barriers⟩
        (f.instrsOn (w ++ [u]))).lost → ∃ r ∈ regions, ∃ c,
          f.Inside (first :: regions.map (·.succ)) r c ∧ f.After r x ∧
            ∃ i ∈ f.instrsOf c, i.result = some v := by
      intro hv
      obtain ⟨r, hr, c, hinside, hafter, hdef⟩ := ih v hv
      exact ⟨r, hr, c, hinside, hafter.tail hux, hdef⟩
    rw [hsnoc, BarrierOrder.ledger_append] at hv
    by_cases hx : x ∈ first :: regions.map (·.succ)
    · rcases List.mem_cons.1 hx with rfl | hx
      · rw [h.foldl_first hn] at hv
        exact hkeep hv
      · obtain ⟨r, hr, rfl⟩ := List.mem_map.1 hx
        rw [h.foldl_succ hr] at hv
        rcases List.mem_append.1 hv with hv | hv
        · exact hkeep hv
        · obtain ⟨c, hinside, hdef⟩ := h.inside_of_recent hn hr (hw.snoc hux) hv
          exact ⟨r, hr, c, hinside, .refl, hdef⟩
    · rw [BarrierOrder.foldl_pass_of_not_mark (h.not_mark hn hx)] at hv
      exact hkeep hv

/-- A walk on which control comes to a barrier, and what its region defined is recent. -/
theorem exists_recent (hr : r ∈ regions) (hc : f.Inside (first :: regions.map (·.succ)) r c)
    (hdef : ∃ i ∈ f.instrsOf c, i.result = some v) :
    ∃ w, f.graph.IsWalk (w ++ [r.succ]) ∧
      v ∈ (BarrierOrder.ledger ⟨plan.anchor, plan.barriers⟩ (f.instrsOn w)).recent := by
  obtain ⟨is, hchain, hmem, his⟩ := hc
  obtain ⟨i, hi, hres⟩ := hdef
  obtain ⟨w, hw⟩ := h.exists_walk_pred hr
  refine ⟨w ++ r.pred :: is, ?_, ?_⟩
  · rw [List.append_assoc, List.cons_append]
    exact hw.extend hchain
  · rw [h.ledger_between hn (h.pred_mem hr) his]
    exact List.mem_filterMap.2 ⟨i, List.mem_flatMap.2 ⟨c, hmem, hi⟩, hres⟩

omit hn in
/-- What is recent when control comes to a barrier is lost behind it. -/
theorem lost_foldl_succ {t : Ledger} {is : List Instr} (hr : r ∈ regions) (hv : v ∈ t.recent)
    (his : f.instrsOf r.succ <+: is) :
    v ∈ (is.foldl (BarrierOrder.pass ⟨plan.anchor, plan.barriers⟩) t).lost := by
  obtain ⟨js, rfl⟩ := his
  rw [List.foldl_append, h.foldl_succ hr]
  exact BarrierOrder.lost_foldl (List.mem_append_right _ hv)

/-- Behind a region, what was defined inside it is lost on some walk, or about to be lost. -/
theorem exists_lost (hr : r ∈ regions) (hc : f.Inside (first :: regions.map (·.succ)) r c)
    (hdef : ∃ i ∈ f.instrsOf c, i.result = some v) (hx : f.After r x) :
    ∃ w, f.graph.IsWalk (w ++ [x]) ∧ ∀ is, f.instrsOf x <+: is ∨ x ≠ r.succ →
      v ∈ (BarrierOrder.ledger ⟨plan.anchor, plan.barriers⟩ (f.instrsOn w ++ is)).lost := by
  induction hx with
  | refl =>
    obtain ⟨w, hw, hrecent⟩ := h.exists_recent hn hr hc hdef
    refine ⟨w, hw, fun is his => ?_⟩
    rw [BarrierOrder.ledger_append]
    exact h.lost_foldl_succ hr hrecent (his.resolve_right (by simp))
  | @tail y z _ hedge ih =>
    obtain ⟨w, hw, hlost⟩ := ih
    refine ⟨w ++ [y], hw.snoc hedge, fun is _ => BarrierOrder.lost_ledger_append ?_⟩
    rw [instrsOn_append, instrsOn_cons, instrsOn_nil, List.append_nil]
    exact hlost _ (Or.inl List.prefix_rfl)

/-- In a divided kernel that is well formed, the values that leak are those that are read when they
are lost. -/
theorem leaks_iff_loses (hf : f.WellFormed) :
    f.Leaks regions v ↔ f.Loses ⟨plan.anchor, plan.barriers⟩ v := by
  constructor
  · rintro ⟨c, x, hne, hdef, hread, hevades⟩
    rcases h.evades_iff.1 hevades with hevades | ⟨r, hr, hinside, hafter⟩
    · exact absurd ⟨c, x, hne, hdef, hread, hevades⟩ (not_leaks_of_sound hf.toShaped hf.sound)
    obtain ⟨w, hw, hlost⟩ := h.exists_lost hn hr hinside hdef hafter
    rcases hread with hread | ⟨y, hedge, hread⟩
    · obtain ⟨p, q, hp⟩ := List.append_of_mem hread
      refine ⟨_, readAfter_of_events hw hp, hlost _ ((em (x = r.succ)).imp_left fun heq => ?_)⟩
      obtain ⟨i, hi, -⟩ := h.instrsOf_succ hr
      rw [← heq] at hi
      rw [hi, reached_of_read hi hp]
    · refine ⟨_, readAfter_of_edge hw hedge hread, ?_⟩
      rw [instrsOn_append, instrsOn_cons, instrsOn_nil, List.append_nil]
      exact hlost _ (Or.inl List.prefix_rfl)
  · intro hloses
    obtain ⟨w, x, hw, hread, hlost⟩ := hloses.exists_reads
    obtain ⟨r, hr, c, hinside, hafter, hdef⟩ := h.exists_region_of_lost hn w x hw v hlost
    have hne : c ≠ x := fun heq => h.not_after_of_inside hr hinside (heq ▸ hafter)
    exact ⟨c, x, hne, hdef, hread, h.evades_iff.2 (Or.inr ⟨r, hr, hinside, hafter⟩)⟩

end Sequenced

end Func

end BarrierLowering
