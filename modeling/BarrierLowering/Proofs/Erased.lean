import BarrierLowering.Proofs.Extends

/-!
# Kernels without their barriers

The barriers may be removed once the loops stand in for them. A barrier may have a result, and
the analysis lets such a result be read anywhere behind its barrier, because no loop is around a
barrier. Where something reads it, the barrier cannot be spared.

## Main definitions

* `Func.Spares` — nothing that is left reads the result of a removed instruction.

## Main results

* `Func.wellFormed_without_iff` — when a function is well formed without some instructions.
* `Func.Lowered.spares_iff` — the loops read no result of a barrier.
* `Func.lowerKernel_erased` — when a lowered kernel is well formed without its barriers.
-/

namespace BarrierLowering.Func

variable {f g : Func} {is js : List InstrId} {a b : BlockId} {blk : Block} {v : ValueId}
  {w : List BlockId}

/-- Something reads a value besides the given instructions: an instruction or a terminator. -/
def ReadBeside (f : Func) (is : List InstrId) (v : ValueId) : Prop :=
  (∃ i ∈ f.instrs, i.id ∉ is ∧ v ∈ i.op.operands) ∨ ∃ blk ∈ f.blocks, v ∈ blk.term.operands

/-- Nothing besides the given instructions reads their results. -/
def Spares (f : Func) (is : List InstrId) : Prop :=
  ∀ i ∈ f.instrs, i.id ∈ is → ∀ v ∈ i.result, ¬ f.ReadBeside is v

instance (f : Func) (is : List InstrId) (v : ValueId) : Decidable (f.ReadBeside is v) :=
  inferInstanceAs (Decidable (_ ∨ _))

instance (f : Func) (is : List InstrId) : Decidable (f.Spares is) :=
  inferInstanceAs (Decidable (∀ i ∈ f.instrs, _))

/-! ### A function without some instructions -/

/-- Only the identifiers that are removed count. -/
theorem without_congr (h : ∀ i, i ∈ is ↔ i ∈ js) : f.without is = f.without js := by
  simp only [without, h]

theorem block?_without : (f.without is).block? b =
    (f.block? b).map fun blk => { blk with instrs := blk.instrs.filter fun i => i.id ∉ is } := by
  rw [block?, without, List.find?_map]
  rfl

theorem successors_without : (f.without is).successors = f.successors := by
  funext b
  rw [successors, successors, block?_without]
  cases f.block? b <;> rfl

theorem graph_without : (f.without is).graph = f.graph := by
  have hentry : (f.without is).entryId? = f.entryId? := by
    rw [entryId?, entryId?, entry?, entry?, without, List.head?_map, Option.map_map]
    rfl
  rw [graph, graph, hentry, blockIds_without, successors_without]

theorem predecessors_without : (f.without is).predecessors b = f.predecessors b := by
  rw [predecessors, predecessors, without, List.filter_map, List.map_map]
  rfl

theorem instrsOf_without :
    (f.without is).instrsOf b = (f.instrsOf b).filter fun i => i.id ∉ is := by
  rw [instrsOf, instrsOf, block?_without]
  cases f.block? b <;> rfl

theorem instrsOn_without :
    (f.without is).instrsOn w = (f.instrsOn w).filter fun i => i.id ∉ is := by
  rw [instrsOn, instrsOn, List.filter_flatMap]
  exact List.flatMap_congr fun b _ => instrsOf_without

/-- A value that no removed instruction defines is supplied as before. -/
theorem supplied_without (hkeep : ∀ i ∈ f.instrs, i.id ∈ is → v ∉ i.result) {before : List Instr}
    (hbefore : ∀ i ∈ before, i ∈ f.instrs)
    (h : f.Supplied (f.arrival w b ++ before.flatMap Instr.events) v) :
    (f.without is).Supplied ((f.without is).arrival w b ++
      (before.filter fun i => i.id ∉ is).flatMap Instr.events) v := by
  have hstays : ∀ i ∈ f.instrs, i.result = some v → decide (i.id ∉ is) = true := fun i hi hv =>
    decide_eq_true fun hin => hkeep i hi hin hv
  refine h.imp_right fun hwrite => ?_
  rw [List.mem_append, write_mem_arrival, write_mem_events, write_mem_flatMap] at hwrite ⊢
  rw [instrsOn_without]
  refine hwrite.imp ?_ ?_
  · rintro ⟨i, hi, hv⟩
    exact ⟨i, List.mem_filter.2 ⟨hi, hstays i (mem_instrs_of_mem_instrsOn hi) hv⟩, hv⟩
  · rintro ⟨i, hi, hv⟩
    exact ⟨i, List.mem_filter.2 ⟨hi, hstays i (hbefore i hi) hv⟩, hv⟩

/-- What is left of a sound function reads what was supplied, if nothing reads what is missing. -/
theorem SoundAt.without (h : f.SoundAt w b blk) (hb : f.block? b = some blk)
    (hspares : f.Spares is) :
    (f.without is).SoundAt w b { blk with instrs := blk.instrs.filter fun i => i.id ∉ is } := by
  have hblk := (block?_mem hb).1
  have hmem : ∀ {x : Block}, x ∈ f.blocks → ∀ i ∈ x.instrs, i ∈ f.instrs := fun hx i hi =>
    List.mem_flatMap.2 ⟨_, hx, hi⟩
  have hkeep : ∀ {v}, f.ReadBeside is v → ∀ i ∈ f.instrs, i.id ∈ is → v ∉ i.result :=
    fun hread i hi hin hv => hspares i hi hin _ hv hread
  refine ⟨fun ls i rs hsplit hphi v hv => ?_, fun v hv => ?_, fun c cblk hbc hc i hi v hin => ?_⟩
  · obtain ⟨before, rest, heq, rfl, hrest⟩ := List.filter_eq_append_iff.1 hsplit
    obtain ⟨skipped, after, rfl, hskipped, hstays, -⟩ := List.filter_eq_cons_iff.1 hrest
    rw [← List.append_assoc] at heq
    have hi : i ∈ f.instrs := hmem hblk i (by simp [heq])
    have hread : f.ReadBeside is v := .inl ⟨i, hi, of_decide_eq_true hstays, hv⟩
    have hsupplied := supplied_without (hkeep hread)
      (fun j hj => hmem hblk j (heq ▸ List.mem_append_left _ hj)) (h.instrs _ i after heq hphi v hv)
    rwa [List.filter_append, List.filter_eq_nil_iff.2 hskipped, List.append_nil] at hsupplied
  · exact supplied_without (hkeep (.inr ⟨blk, hblk, hv⟩)) (hmem hblk) (h.term v hv)
  · rw [graph_without] at hbc
    obtain ⟨old, hold, rfl⟩ := Option.map_eq_some_iff.1 (block?_without.symm.trans hc)
    obtain ⟨hi, hstays⟩ := List.mem_filter.1 hi
    have hread : f.ReadBeside is v := .inl ⟨i, hmem (block?_mem hold).1 i hi,
      of_decide_eq_true hstays, Instr.mem_operands_of_incoming hin⟩
    exact supplied_without (hkeep hread) (hmem hblk) (h.phis c old hbc hold i hi v hin)

/-- What is left of a function has the right shape, if nothing reads what is missing. -/
theorem Shaped.without (h : f.Shaped) (hspares : f.Spares is) : (f.without is).Shaped := by
  have hblocks : ∀ new ∈ (f.without is).blocks, ∃ blk ∈ f.blocks,
      { blk with instrs := blk.instrs.filter fun i => i.id ∉ is } = new := fun new hnew =>
    List.mem_map.1 hnew
  have hsub : (f.without is).results.Sublist f.results := by
    rw [results, instrs_without]
    exact List.filter_sublist.filterMap _
  have hknown : ∀ {v}, f.ReadBeside is v → v ∈ f.paramValues ++ f.results →
      v ∈ (f.without is).paramValues ++ (f.without is).results := by
    intro v hread hv
    refine List.mem_append.2 ((List.mem_append.1 hv).imp_right fun hv => ?_)
    obtain ⟨i, hi, hres⟩ := List.mem_filterMap.1 hv
    rw [results, instrs_without]
    refine List.mem_filterMap.2 ⟨i, List.mem_filter.2 ⟨hi, ?_⟩, hres⟩
    exact decide_eq_true fun hin => hspares i hi hin v hres hread
  refine ⟨fun hnil => h.nonempty (List.map_eq_nil_iff.1 hnil), ?_, fun new hnew => ?_,
    h.results_nodup.sublist hsub, fun v hv => h.results_fresh v (hsub.subset hv),
    fun new hnew => ?_,
    fun new hnew i hi hphi => ?_, fun new hnew => ?_⟩
  · rw [blockIds_without]
    exact h.blocks_nodup
  · obtain ⟨blk, hblk, rfl⟩ := hblocks new hnew
    rw [blockIds_without]
    exact h.targets_exist blk hblk
  · obtain ⟨blk, hblk, rfl⟩ := hblocks new hnew
    rw [Block.phis_lead_iff]
    exact (Block.phis_lead_iff.1 (h.phis_lead blk hblk)).sublist List.filter_sublist
  · obtain ⟨blk, hblk, rfl⟩ := hblocks new hnew
    rw [predecessors_without]
    exact h.phis_match blk hblk i (List.mem_filter.1 hi).1 hphi
  · obtain ⟨blk, hblk, rfl⟩ := hblocks new hnew
    obtain ⟨hinstrs, hterm⟩ := h.operands_defined blk hblk
    refine ⟨fun i hi v hv => ?_, fun v hv => hknown (.inr ⟨blk, hblk, hv⟩) (hterm v hv)⟩
    obtain ⟨hi, hstays⟩ := List.mem_filter.1 hi
    exact hknown (.inl ⟨i, List.mem_flatMap.2 ⟨blk, hblk, hi⟩, of_decide_eq_true hstays, hv⟩)
      (hinstrs i hi v hv)

/-- **A well-formed function is well formed without some instructions if and only if nothing that
is left reads their results.** -/
theorem wellFormed_without_iff (hf : f.WellFormed) : (f.without is).WellFormed ↔ f.Spares is := by
  constructor
  · intro h i hi hin v hv hread
    have hgone : v ∉ (f.without is).paramValues ++ (f.without is).results := by
      rw [List.mem_append, not_or]
      refine ⟨hf.results_fresh v (List.mem_filterMap.2 ⟨i, hi, hv⟩), fun hres => ?_⟩
      rw [results, instrs_without] at hres
      obtain ⟨j, hj, hjv⟩ := List.mem_filterMap.1 hres
      obtain ⟨hj, hstays⟩ := List.mem_filter.1 hj
      exact of_decide_eq_true hstays (Func.eq_of_result hf.results_nodup hi hj hv hjv ▸ hin)
    rcases hread with ⟨j, hj, hstays, hjv⟩ | ⟨blk, hblk, hblkv⟩
    · obtain ⟨blk, hblk, hj⟩ := List.mem_flatMap.1 hj
      exact hgone ((h.operands_defined _ (List.mem_map_of_mem hblk)).1 j
        (List.mem_filter.2 ⟨hj, decide_eq_true hstays⟩) v hjv)
    · exact hgone ((h.operands_defined _ (List.mem_map_of_mem hblk)).2 v hblkv)
  · intro hspares
    have hshape := hf.toShaped.without hspares
    refine ⟨hshape, (sound_walks_iff hshape.targets_exist).2 fun w b new hw hnew => ?_⟩
    obtain ⟨blk, hblk, rfl⟩ := Option.map_eq_some_iff.1 (block?_without.symm.trans hnew)
    rw [graph_without] at hw
    exact ((sound_walks_iff hf.targets_exist).1 hf.sound w b blk hw hblk).without hblk hspares

/-! ### Splits and loops -/

/-- A split changes neither the instructions nor what the terminators read. -/
theorem Splittable.readBeside_iff {index : Nat} {label : String}
    (h : f.Splittable b index blk) : (f.cut b index label).ReadBeside is v ↔ f.ReadBeside is v := by
  rw [ReadBeside, Splittable.instrs_cut]
  refine or_congr_right ⟨?_, ?_⟩
  · rintro ⟨new, hnew, hv⟩
    rcases h.mem_blocks hnew with rfl | rfl | ⟨x, hx, -, rfl⟩
    · cases hv
    · exact ⟨blk, h.mem, by rwa [Terminator.operands_retarget] at hv⟩
    · exact ⟨x, hx, by rwa [Terminator.operands_retarget] at hv⟩
  · rintro ⟨x, hx, hv⟩
    have hv : v ∈ (x.term.retarget b f.fresh).operands := by rwa [Terminator.operands_retarget]
    by_cases hid : x.id = b
    · refine ⟨{ x with
        instrs := x.instrs.drop index
        term := x.term.retarget b f.fresh }, mem_expand_blocks.2 ⟨x, hx, ?_⟩, hv⟩
      rw [if_pos hid]
      exact List.mem_cons_of_mem _ List.mem_cons_self
    · refine ⟨{ x with term := x.term.retarget b f.fresh }, mem_expand_blocks.2 ⟨x, hx, ?_⟩, hv⟩
      rw [if_neg hid]
      exact List.mem_singleton.2 rfl

theorem Cuts.spares_iff (h : f.Cuts g) : g.Spares is ↔ f.Spares is := by
  have hread : ∀ v, g.ReadBeside is v ↔ f.ReadBeside is v := by
    intro v
    induction h with
    | refl => exact Iff.rfl
    | step label _ hcut ih => exact hcut.readBeside_iff.trans ih
  simp only [Spares, hread, h.same.1]

section Loops

variable {guard : TurnGuard} {config : Config} {plan : Plan} {ws : List Wrap} {next : Counters}
  {front first : BlockId}

/-- The loops read no result from before but those of the group queries. -/
theorem Loopable.readBeside_iff (h : f.Loopable guard plan ws next) (hv : v ∈ f.results)
    (hrank : plan.rank ≠ v) (hsize : plan.size ≠ v) :
    (f.looped ws next).ReadBeside is v ↔ f.ReadBeside is v := by
  have hcode : ∀ w ∈ ws, (∀ i ∈ w.code.instrs, ∀ u ∈ i.op.operands, u ≠ v) ∧
      w.code.turn ≠ v ∧ w.code.done ≠ v := by
    intro w hw
    refine h.operands_code hw hrank hsize fun i hi u hu => ?_
    rintro rfl
    have hnew := (h.emits.result_mem (List.mem_flatMap.2 ⟨w, hw, hi⟩) hu).1
    exact absurd (h.bounded.results_lt u hv) (Nat.not_lt.2 hnew)
  constructor
  · rintro (⟨i, hi, hin, hread⟩ | ⟨new, hnew, hread⟩)
    · rcases List.mem_append.1 (h.instrs_perm.mem_iff.1 hi) with hi | hi
      · exact .inl ⟨i, hi, hin, hread⟩
      · obtain ⟨w, hw, hi⟩ := List.mem_flatMap.1 hi
        exact absurd rfl ((hcode w hw).1 i hi v hread)
    · rcases h.mem_looped.1 hnew with ⟨w, hw, rfl | rfl⟩ | ⟨x, hx, rfl⟩
      · exact absurd (List.mem_singleton.1 hread).symm (hcode w hw).2.1
      · exact absurd (List.mem_singleton.1 hread).symm (hcode w hw).2.2
      · rw [Block.inner, Terminator.operands_mapTargets] at hread
        exact .inr ⟨x, hx, hread⟩
  · rintro (⟨i, hi, hin, hread⟩ | ⟨x, hx, hread⟩)
    · exact .inl ⟨i, h.instrs_perm.mem_iff.2 (List.mem_append_left _ hi), hin, hread⟩
    · refine .inr ⟨x.inner ws, h.mem_looped.2 (.inr ⟨x, hx, rfl⟩), ?_⟩
      rwa [Block.inner, Terminator.operands_mapTargets]

/-- In a lowered kernel, a result of a barrier is read where it was read before. -/
theorem Lowered.spares_iff (h : f.Lowered g config plan front first ws next)
    (hord : f.InOrder config.nameRule plan.barriers) :
    (g.looped ws next).Spares plan.barriers ↔ f.Spares plan.barriers := by
  have hloop := h.loopable
  have hsame := h.cuts.same.1
  have hnum := h.numbered
  rw [← h.cuts.spares_iff]
  -- the queries are no barriers, so that their results are other ones
  have hquery : ∀ {q u : Instr} {v}, q ∈ g.instrs → q.kind config.nameRule ≠ .barrier →
      u ∈ g.instrs → u.id ∈ plan.barriers → q.result = some v → u.result ≠ some v := by
    intro q u v hq hkind hu hin hqv huv
    obtain rfl := Func.eq_of_result hloop.shaped.results_nodup hq hu hqv huv
    exact hord.id_not_mem (hsame ▸ hnum.instrs_nodup) (hsame ▸ hq) hkind hin
  obtain ⟨q, hq, hrank, hqkind⟩ := h.sequenced.rank
  obtain ⟨s, hs, hsize, hskind⟩ := h.sequenced.size
  have hs : s ∈ g.instrs :=
    (List.mem_append.1 hs).elim mem_instrs_of_mem_instrsOf mem_instrs_of_mem_instrsOf
  have hread : ∀ i ∈ g.instrs, i.id ∈ plan.barriers → ∀ v ∈ i.result,
      ((g.looped ws next).ReadBeside plan.barriers v ↔ g.ReadBeside plan.barriers v) := by
    intro i hi hin v hv
    refine hloop.readBeside_iff (List.mem_filterMap.2 ⟨i, hi, hv⟩) ?_ ?_
    · rintro rfl
      exact hquery (mem_instrs_of_mem_instrsOf hq) (by rw [hqkind]; decide) hi hin hrank hv
    · rintro rfl
      exact hquery hs (by rw [hskind]; decide) hi hin hsize hv
  have hold : ∀ i ∈ (g.looped ws next).instrs, i.id ∈ plan.barriers → i ∈ g.instrs := by
    intro i hi hin
    refine (List.mem_append.1 (hloop.instrs_perm.mem_iff.1 hi)).resolve_right fun hi => ?_
    obtain ⟨z, hz, hid, -⟩ := hord.exists_barrier hin
    have hlt := hnum.instrs_lt z (hsame ▸ hz)
    rw [hid] at hlt
    exact absurd hlt (Nat.not_lt.2 (hloop.emits.id_mem hi).1)
  constructor
  · intro hspares i hi hin v hv hbeside
    exact hspares i (hloop.instrs_perm.mem_iff.2 (List.mem_append_left _ hi)) hin v hv
      ((hread i hi hin v hv).2 hbeside)
  · intro hspares i hi hin v hv hbeside
    have hi := hold i hi hin
    exact hspares i hi hin v hv ((hread i hi hin v hv).1 hbeside)

end Loops

/-! ### Lowered kernels -/

/-- **A lowered kernel is well formed without its barriers if and only if nothing reads their
results.** Whether they are removed changes nothing else. -/
theorem lowerKernel_erased (f g : Func) (config : Config) (loops : List TurnLoop)
    (hf : f.defects = []) (hn : f.Numbered) (hkeep : config.eraseBarriers = false)
    (h : (lowerKernel config).apply f = (.ok (.transformed loops), g)) (hg : g.defects = []) :
    (lowerKernel { config with eraseBarriers := true }).apply f =
        (.ok (.transformed loops), g.without (f.barriers config.nameRule)) ∧
      ((g.without (f.barriers config.nameRule)).defects = [] ↔
        f.Spares (f.barriers config.nameRule)) := by
  have hs := (defects_eq_nil_iff.1 hf).toShaped
  obtain ⟨plan, hplan, hout⟩ := exists_plan_of_transformed h
  have hdraft := (plan_eq_ok_iff.1 hplan).1
  have hord := inOrder_of_draft hs.blocks_nodup hdraft
  have hmem : ∀ i, i ∈ f.barriers config.nameRule ↔ i ∈ plan.barriers := fun i =>
    hord.perm.mem_iff.symm
  obtain ⟨g', front, first, ws, next, hlowered, hregions, hwraps⟩ :=
    Plan.exists_lowered hs hn hdraft
  have hkept := hlowered.apply_carryOut hs hn hdraft hregions hwraps
  have hlowered' : f.Lowered g' { config with eraseBarriers := true } plan front first ws next :=
    ⟨hlowered.cuts, hlowered.numbered, hlowered.sequenced, hlowered.loopable, hlowered.ahead⟩
  have herased := hlowered'.apply_carryOut hs hn hdraft hregions hwraps
  rw [Config.erased, hkeep, if_neg Bool.false_ne_true, without_nil] at hkept
  cases hkept.symm.trans hout
  have hspares : f.Spares plan.barriers ↔ f.Spares (f.barriers config.nameRule) := by
    simp only [Spares, ReadBeside, hmem]
  rw [without_congr hmem, ← hspares, ← hlowered.spares_iff hord, defects_eq_nil_iff]
  exact ⟨apply_lowerKernel_of_ok hplan herased,
    wellFormed_without_iff (defects_eq_nil_iff.1 hg)⟩

/-- Nothing reads what the barriers of a kernel result in whose threads only wait. -/
theorem lowerKernel_erased_waitingTwice : waitingTwice.defects = [] ∧ waitingTwice.Numbered ∧
    ∃ loops g, (lowerKernel { Config.standard with eraseBarriers := true }).apply waitingTwice =
      (.ok (.transformed loops), g) ∧ g.defects = [] := by
  obtain ⟨loops, g, happly⟩ :=
    exists_transformed defects_waitingTwice numbered_waitingTwice (plan_waitingTwice false)
  have hclean : ((lowerKernel .standard).apply waitingTwice).2.defects = [] := by cbv
  replace hclean : g.defects = [] := (congrArg (·.2.defects) happly).symm.trans hclean
  obtain ⟨herased, hiff⟩ := lowerKernel_erased _ _ _ _ defects_waitingTwice numbered_waitingTwice
    rfl happly hclean
  exact ⟨defects_waitingTwice, numbered_waitingTwice, _, _, herased, hiff.2 (by decide)⟩

/-- A kernel that returns what its barrier results in. -/
def awaited : Func where
  name := "awaited"
  convention := .kernel
  returnTy := .i32
  params := []
  blocks :=
    [⟨⟨0⟩, "entry",
      [⟨⟨0⟩, some ⟨0⟩, .call "__hip_cg_thread_rank" [], .i32⟩,
        ⟨⟨1⟩, some ⟨1⟩, .call "__hip_cg_group_size" [], .i32⟩,
        ⟨⟨2⟩, some ⟨2⟩, .call "__hip_cg_sync" [], .i32⟩],
      .ret (some ⟨2⟩)⟩]
  next := ⟨1, 3, 3⟩

/-- Without its barrier the lowered kernel returns a value that nothing defines. -/
theorem defects_awaited : awaited.defects = [] ∧ awaited.Numbered ∧ ∃ loops g g',
    (lowerKernel .standard).apply awaited = (.ok (.transformed loops), g) ∧ g.defects = [] ∧
      (lowerKernel { Config.standard with eraseBarriers := true }).apply awaited =
        (.ok (.transformed loops), g') ∧ g'.defects = [.undefinedValue ⟨0⟩ ⟨2⟩] := by
  have hkept : ((lowerKernel .standard).apply awaited).1 =
      .ok (.transformed [⟨⟨2⟩, ⟨2⟩, ⟨5⟩, ⟨3⟩, ⟨6⟩, ⟨4⟩, ⟨5⟩, ⟨4⟩⟩]) := by cbv
  have herased : ((lowerKernel { Config.standard with eraseBarriers := true }).apply awaited).1 =
      .ok (.transformed [⟨⟨2⟩, ⟨2⟩, ⟨5⟩, ⟨3⟩, ⟨6⟩, ⟨4⟩, ⟨5⟩, ⟨4⟩⟩]) := by cbv
  refine ⟨by cbv, ⟨by decide, by decide, by decide, by decide, by decide⟩, _, _, _,
    Prod.ext hkept rfl, ?_, Prod.ext herased rfl, ?_⟩
  · cbv
  · cbv

end BarrierLowering.Func
