import BarrierLowering.Proofs.Leak

/-!
# One region on its own

A region need not come from a division of a kernel. It can have a loop built around it if it has
one way in and one way out and there are no phi nodes in the way, wherever control goes behind it,
be it back to its front. What the function must be like for the loop to leave it well formed is
said by dominators: the queries are known in front of the region, and what is read behind it was
defined in front of it or behind it.

## Main definitions

* `Func.Enclosed` — a region with one way in and one way out, and values that do not cross it.

## Main results

* `Func.Evades.single_cases` — a way that may pass one region by, and a walk.
* `Func.Enclosed.not_leaks` — no value leaks when the region is passed by.
* `Func.defects_wrap_eq_nil_iff` — a loop around the region leaves the function without defects
  exactly if the entry of the function is neither the start of the region nor the block behind it.
-/

namespace BarrierLowering

namespace Region

/-- A test against zero reads in the header what is computed in front of the region. -/
theorem exists_zero (r : Region) (plan : Plan) (c : Counters) :
    ∃ v, (∃ i ∈ (r.code .rankAndSize plan c).opening, i.result = some v) ∧
      ∃ i ∈ (r.code .rankAndSize plan c).head, i.isPhi = false ∧ v ∈ i.op.operands := by
  have hlast : ∀ {i j k : Instr} {is : List Instr}, i ∈ k :: (is ++ [j, i]) := by simp
  exact ⟨⟨c.value⟩, ⟨_, List.mem_cons_self, rfl⟩, _, hlast, rfl, List.mem_pair.2 (Or.inr rfl)⟩

/-- The tail counts on from the number that the header holds. -/
theorem exists_induction (r : Region) (guard : TurnGuard) (plan : Plan) (c : Counters) :
    ∃ v, (∃ i ∈ (r.code guard plan c).head, i.result = some v) ∧
      ∃ i ∈ (r.code guard plan c).back, i.isPhi = false ∧ v ∈ i.op.operands :=
  ⟨⟨c.value + 2⟩, ⟨_, List.mem_cons_self, rfl⟩, _,
    List.mem_cons_of_mem _ List.mem_cons_self, rfl, List.mem_pair.2 (Or.inl rfl)⟩

end Region

namespace Func

/-- A region that control enters and leaves in one place only, in a function where no value that is
read behind the region is defined inside it. -/
structure Enclosed (f : Func) (plan : Plan) (r : Region) : Prop where
  pred_ne_start : r.pred ≠ r.start
  pred_ne_succ : r.pred ≠ r.succ
  start_ne_succ : r.start ≠ r.succ
  leaves : f.successors r.pred = [r.start]
  enters : f.predecessors r.start = [r.pred]
  closes : f.predecessors r.succ = [r.exit]
  plain_start : ∀ blk, f.block? r.start = some blk → ∀ i ∈ blk.instrs, i.isPhi = false
  plain_succ : ∀ blk, f.block? r.succ = some blk → ∀ i ∈ blk.instrs, i.isPhi = false
  reached : r.exit ∈ f.graph.reachable
  dominates : f.graph.Dominates r.start r.exit
  /-- The rank and the size of the group are known in front of the region. -/
  queries : ∀ v, v = plan.rank ∨ v = plan.size → v ∈ f.paramValues ∨
    ∃ c, (∃ i ∈ f.instrsOf c, i.result = some v) ∧ f.graph.Dominates c r.pred
  /-- What is read behind the region was defined in front of it or behind it. -/
  reads : ∀ x, Relation.ReflTransGen f.graph.Edge r.succ x → ∀ v, f.Reads x v → ∀ c,
    (∃ i ∈ f.instrsOf c, i.result = some v) →
      f.graph.Dominates c r.pred ∨ f.graph.Dominates r.succ c

variable {f : Func} {guard : TurnGuard} {plan : Plan} {r : Region} {rs : List Region}
  {c x y : BlockId} {v : ValueId}

/-! ### Ways past one region -/

/-- A way that goes on along edges, around the same block. -/
theorem Evades.along (h : f.Evades rs c x)
    (hxy : Relation.ReflTransGen (fun a b => a ≠ c ∧ f.graph.Edge a b) x y) : f.Evades rs c y := by
  induction hxy with
  | refl => exact h
  | tail _ hab ih => exact .edge ih hab.1 hab.2

/-- A way that may pass one region by is a walk, or comes to the front of the region and goes on
behind it. -/
theorem Evades.single_cases (h : f.Evades [r] c x) : f.Evades [] c x ∨
    (f.Evades [] c r.pred ∧ r.pred ≠ c) ∧
      Relation.ReflTransGen (fun a b => a ≠ c ∧ f.graph.Edge a b) r.succ x := by
  induction h with
  | entry he => exact Or.inl (.entry he)
  | edge _ hne huv ih =>
    rcases ih with hu | ⟨hpred, hu⟩
    · exact Or.inl (.edge hu hne huv)
    · exact Or.inr ⟨hpred, hu.tail ⟨hne, huv⟩⟩
  | skip hr _ hne ih =>
    obtain rfl := List.mem_singleton.1 hr
    exact Or.inr ⟨⟨ih.elim id fun hpred => hpred.1.1, hne⟩, .refl⟩

namespace Enclosed

/-! ### The region -/

theorem isRegion (h : f.Enclosed plan r) (hs : f.Shaped) : f.IsRegion r := by
  refine ⟨fun b => ?_, fun a => ?_, fun a => ?_, h.plain_start, h.plain_succ, h.start_ne_succ⟩
  · rw [Graph.Edge, succs_graph, h.leaves, List.mem_singleton]
  · rw [← mem_predecessors_iff_edge hs.blocks_nodup, h.enters, List.mem_singleton]
  · rw [← mem_predecessors_iff_edge hs.blocks_nodup, h.closes, List.mem_singleton]

theorem spaced (h : f.Enclosed plan r) (hs : f.Shaped) : f.Spaced [r] where
  region := List.forall_mem_singleton.2 (h.isRegion hs)
  pred_ne_start := List.forall_mem_singleton.2 h.pred_ne_start
  pred_ne_succ := List.forall_mem_singleton.2 h.pred_ne_succ
  starts := List.nodup_singleton _
  succs := List.nodup_singleton _
  disjoint := List.forall_mem_singleton.2 (List.forall_mem_singleton.2 h.start_ne_succ)

theorem exists_walk_succ (h : f.Enclosed plan r) (hs : f.Shaped) :
    ∃ w, f.graph.IsWalk (w ++ [r.succ]) := by
  obtain ⟨w, hw⟩ := (mem_reachable_iff.1 h.reached).1
  exact ⟨_, hw.snoc (((h.isRegion hs).closes _).2 rfl)⟩

/-- Control comes to the end of the region through the block in front of it. -/
theorem not_evades_exit (h : f.Enclosed plan r) (hs : f.Shaped)
    (hstart : f.entryId? ≠ some r.start) : ¬ f.Evades [r] r.pred r.exit := by
  intro hevades
  have hexit := hevades.single_cases.resolve_right fun hback => hback.1.2 rfl
  obtain ⟨w, hw, hpred⟩ := evades_nil_iff.1 (hexit.to_dominator h.dominates)
  cases w using List.reverseRecOn with
  | nil => exact hstart (Graph.isWalk_singleton.1 hw)
  | append_singleton w a =>
    obtain rfl := ((h.isRegion hs).enters a).1 (Graph.isWalk_snoc.1 hw).2
    exact hpred (List.mem_append_right _ (List.mem_singleton.2 rfl))

/-- Control can pass the region by, if the entry is elsewhere. -/
theorem passable (h : f.Enclosed plan r) (hs : f.Shaped) (hstart : f.entryId? ≠ some r.start)
    (hsucc : f.entryId? ≠ some r.succ) : f.Passable plan [r] where
  entry e he := List.forall_mem_singleton.2
    ⟨fun heq => hstart (heq ▸ he), fun heq => hsucc (heq ▸ he)⟩
  exits := List.forall_mem_singleton.2 (h.not_evades_exit hs hstart)
  reached := List.forall_mem_singleton.2 (h.exists_walk_succ hs)
  queries v hv := by
    refine (h.queries v hv).imp_right ?_
    rintro ⟨c, hdef, hdom⟩
    refine ⟨c, hdef, List.forall_mem_singleton.2 fun hevades => ?_⟩
    have hwalk : f.Evades [] c r.pred := hevades.single_cases.elim id fun hback => hback.1.1
    exact (hwalk.eq_of_dominates hdom).symm

/-- The rank and the size of the group are values of the function. -/
theorem query_mem (h : f.Enclosed plan r) (hv : v = plan.rank ∨ v = plan.size) :
    v ∈ f.paramValues ++ f.results := by
  refine List.mem_append.2 ((h.queries v hv).imp_right ?_)
  rintro ⟨c, ⟨i, hi, hres⟩, -⟩
  exact List.mem_filterMap.2 ⟨i, mem_instrs_of_mem_instrsOf hi, hres⟩

/-- No value leaks when the region is passed by. -/
theorem not_leaks (h : f.Enclosed plan r) (hwf : f.WellFormed) : ¬ f.Leaks [r] v := by
  rintro ⟨c, x, hne, hdef, hread, hevades⟩
  have hwalk : ¬ f.Evades [] c x := fun hwalk =>
    not_leaks_of_sound hwf.toShaped hwf.sound ⟨c, x, hne, hdef, hread, hwalk⟩
  obtain ⟨⟨hpred, hpred_ne⟩, hback⟩ := hevades.single_cases.resolve_left hwalk
  have hreach : Relation.ReflTransGen f.graph.Edge r.succ x := hback.lift id fun _ _ hab => hab.2
  rcases h.reads x hreach v hread c hdef with hdom | hdom
  · -- what is defined in front of the region cannot be evaded on the way there
    exact hpred_ne (hpred.eq_of_dominates hdom).symm
  · -- a walk through the region does as well as a way past it
    obtain ⟨w, hw⟩ := h.exists_walk_succ hwf.toShaped
    exact hwalk ((evades_of_dominates hdom hw).along hback)

/-! ### The loop -/

/-- The region with the code of a loop. -/
theorem loopable (h : f.Enclosed plan r) (hs : f.Shaped) (hb : f.Bounded) (guard : TurnGuard) :
    f.Loopable guard plan [⟨r, r.code guard plan f.next⟩] (r.code guard plan f.next).next :=
  (Loopable.nil hs hb).snoc (h.spaced hs)

/-- Building the loop succeeds. -/
theorem apply_wrap (h : f.Enclosed plan r) (hs : f.Shaped) (hb : f.Bounded) (guard : TurnGuard) :
    (r.wrap guard plan).apply f = (.ok (r.loop (r.code guard plan f.next)),
      f.looped [⟨r, r.code guard plan f.next⟩] (r.code guard plan f.next).next) := by
  have hnil : f.Loopable guard plan [] f.next := Loopable.nil hs hb
  have hwrappable := hnil.wrappable (h.spaced hs)
  have hlooped := hnil.wrapped_looped (h.spaced hs) (r.code guard plan f.next)
  rw [looped_nil] at hwrappable hlooped
  rw [Region.apply_wrap hwrappable, hlooped, List.nil_append]

/-- Where no value leaks, the loop leaves no defects. -/
theorem defects_looped (h : f.Enclosed plan r) (hwf : f.WellFormed) (hb : f.Bounded)
    (hstart : f.entryId? ≠ some r.start) (hsucc : f.entryId? ≠ some r.succ) :
    (f.looped [⟨r, r.code guard plan f.next⟩] (r.code guard plan f.next).next).defects = [] := by
  have hloop := h.loopable hwf.toShaped hb guard
  have hshaped := hloop.shaped_looped (h.query_mem (Or.inl rfl)) (h.query_mem (Or.inr rfl))
  have hpassable := h.passable hwf.toShaped hstart hsucc
  exact defects_eq_nil_iff.2 ⟨hshaped,
    (Loopable.sound_looped_iff hpassable hloop hwf.sound hshaped).2 fun _ => h.not_leaks hwf⟩

end Enclosed

/-! ### A loop at the entry -/

/-- What the entry reads and another block defines leaks. -/
theorem leaks_of_entry {i j : Instr} (he : f.entryId? = some x) (hne : c ≠ x)
    (hi : i ∈ f.instrsOf c) (hres : i.result = some v) (hj : j ∈ f.instrsOf x)
    (hphi : j.isPhi = false) (hv : v ∈ j.op.operands) : f.Leaks rs v := by
  obtain ⟨blk, hblk⟩ := mem_blockIds_iff.1 (entryId?_mem he)
  rw [mem_instrsOf hblk] at hj
  exact ⟨c, x, hne, ⟨i, hi, hres⟩,
    Or.inl ((read_mem_eventsOf hblk).2 (Or.inl ⟨j, hj, hphi, hv⟩)), .entry he⟩

namespace Loopable

variable {ws : List Wrap} {w : Wrap} {next : Counters}

/-- If control starts with a region, a value leaks from the block in front of it. -/
theorem exists_leak_of_start (h : f.Loopable .rankAndSize plan ws next) (hw : w ∈ ws)
    (hentry : f.entryId? = some w.region.start) : ∃ v, (f.looped ws next).Leaks [] v := by
  obtain ⟨c, hcode⟩ := h.code w hw
  obtain ⟨v, ⟨i, hi, hres⟩, j, hj, hphi, hv⟩ := w.region.exists_zero plan c
  rw [← hcode] at hi hj
  have he : (f.looped ws next).entryId? = some w.code.header := by
    rw [entryId?_looped, hentry, Option.map_some, detour_start h.spaced hw]
  refine ⟨v, leaks_of_entry he (fun heq => h.header_not_mem hw (heq ▸ h.pred_mem hw))
    (h.opening_subset hw hi) hres ?_ hphi hv⟩
  exact (mem_instrsOf (h.block?_header hw)).2 hj

/-- If control starts behind a region, a value leaks from the header of the loop. -/
theorem exists_leak_of_succ (h : f.Loopable guard plan ws next) (hw : w ∈ ws)
    (hentry : f.entryId? = some w.region.succ) : ∃ v, (f.looped ws next).Leaks [] v := by
  obtain ⟨c, hcode⟩ := h.code w hw
  obtain ⟨v, ⟨i, hi, hres⟩, j, hj, hphi, hv⟩ := w.region.exists_induction guard plan c
  rw [← hcode] at hi hj
  have he : (f.looped ws next).entryId? = some w.code.tail := by
    rw [entryId?_looped, hentry, Option.map_some, detour_succ h.spaced hw]
  exact ⟨v, leaks_of_entry he (h.header_ne_tail hw hw)
    ((mem_instrsOf (h.block?_header hw)).2 hi) hres ((mem_instrsOf (h.block?_tail hw)).2 hj)
      hphi hv⟩

end Loopable

/-! ### The main result -/

/-- **A region of its own can be wrapped.**  Building a loop around a region that is entered and
left in one place succeeds. If no value that is read behind the region is defined inside it, the
result has no defects, whatever the guard is, unless control starts with the region or behind it;
then there is a guard that leaves a defect. -/
theorem defects_wrap_eq_nil_iff (f : Func) (plan : Plan) (r : Region) (hf : f.defects = [])
    (hb : f.Bounded) (h : f.Enclosed plan r) :
    (∀ guard, ∃ loop, ((r.wrap guard plan).apply f).1 = .ok loop) ∧
      ((∀ guard, ((r.wrap guard plan).apply f).2.defects = []) ↔
        f.entryId? ≠ some r.start ∧ f.entryId? ≠ some r.succ) := by
  have hwf := defects_eq_nil_iff.1 hf
  have hs := hwf.toShaped
  simp only [h.apply_wrap hs hb]
  refine ⟨fun guard => ⟨_, rfl⟩, fun hclean => ?_, fun hentry guard =>
    h.defects_looped hwf hb hentry.1 hentry.2⟩
  have hnone : ∀ guard v,
      ¬ (f.looped [⟨r, r.code guard plan f.next⟩] (r.code guard plan f.next).next).Leaks [] v :=
    fun guard v => not_leaks_of_sound (defects_eq_nil_iff.1 (hclean guard)).toShaped
      (defects_eq_nil_iff.1 (hclean guard)).sound
  constructor
  · intro hstart
    obtain ⟨v, hleak⟩ := (h.loopable hs hb .rankAndSize).exists_leak_of_start
      List.mem_cons_self hstart
    exact hnone _ v hleak
  · intro hsucc
    obtain ⟨v, hleak⟩ := (h.loopable hs hb .rankAndSize).exists_leak_of_succ
      List.mem_cons_self hsucc
    exact hnone _ v hleak

/-- A kernel that goes round in two loops, one behind the other. All that it reads is known in its
entry, where the first loop starts. -/
def circling : Func where
  name := "circling"
  convention := .kernel
  returnTy := .void
  params := []
  blocks :=
    [⟨⟨0⟩, "first",
        [⟨⟨0⟩, some ⟨0⟩, .call "__hip_cg_thread_rank" [], .i32⟩,
          ⟨⟨1⟩, some ⟨1⟩, .call "__hip_cg_group_size" [], .i32⟩,
          ⟨⟨2⟩, some ⟨2⟩, .const (.bool true), .bool⟩],
        .condBranch ⟨2⟩ ⟨2⟩ ⟨1⟩⟩,
      ⟨⟨1⟩, "again", [], .branch ⟨0⟩⟩,
      ⟨⟨2⟩, "between", [], .branch ⟨3⟩⟩,
      ⟨⟨3⟩, "front", [], .branch ⟨4⟩⟩,
      ⟨⟨4⟩, "second", [⟨⟨3⟩, some ⟨3⟩, .cast ⟨0⟩ .i64, .i64⟩], .branch ⟨5⟩⟩,
      ⟨⟨5⟩, "back", [], .condBranch ⟨2⟩ ⟨3⟩ ⟨6⟩⟩,
      ⟨⟨6⟩, "exit", [], .ret none⟩]
  next := ⟨7, 4, 4⟩

/-- Where the queries of `circling` are. -/
def circlingPlan : Plan where
  rankQuery := ⟨0⟩
  anchor := ⟨1⟩
  rank := ⟨0⟩
  size := ⟨1⟩
  rankTy := .i32
  sizeTy := .i32
  barriers := []
  records := []
  pathsExamined := 0

theorem clean_circling : circling.defects = [] ∧ circling.Bounded :=
  ⟨by cbv, by decide, by decide, by decide, by decide⟩

/-- The first loop, which starts with the entry. -/
def circlingFirst : Region := ⟨⟨2⟩, ⟨1⟩, ⟨0⟩, ⟨0⟩, ⟨2⟩⟩

/-- The second loop. Control comes back to its front. -/
def circlingSecond : Region := ⟨⟨3⟩, ⟨3⟩, ⟨4⟩, ⟨4⟩, ⟨5⟩⟩

/-- What surrounds a block of `circling` in the right way is a region of its own. -/
theorem enclosed_circling (hne : r.pred ≠ r.start ∧ r.pred ≠ r.succ ∧ r.start ≠ r.succ)
    (hedges : circling.successors r.pred = [r.start] ∧ circling.predecessors r.start = [r.pred] ∧
      circling.predecessors r.succ = [r.exit]) {w : List BlockId}
    (hw : circling.graph.IsWalk (w ++ [r.exit])) (hexit : r.start = r.exit) :
    circling.Enclosed circlingPlan r := by
  have hplain : ∀ blk ∈ circling.blocks, ∀ i ∈ blk.instrs, i.isPhi = false := by decide
  have hentry : ∀ x, circling.graph.Dominates ⟨0⟩ x := fun x => dominates_entry rfl
  have hdef : ∀ read ∈ circling.blocks, ∀ v ∈ read.instrs.flatMap (·.op.operands) ++
      read.term.operands, ∀ blk ∈ circling.blocks, ∀ i ∈ blk.instrs, i.result = some v →
        blk.id = ⟨0⟩ := by decide
  refine ⟨hne.1, hne.2.1, hne.2.2, hedges.1, hedges.2.1, hedges.2.2,
    fun blk hblk => hplain blk (block?_mem hblk).1, fun blk hblk => hplain blk (block?_mem hblk).1,
    mem_reachable_iff.2 ⟨⟨w, hw⟩, ?_⟩, ?_, ?_, ?_⟩
  · exact mem_blockIds_of_isWalk (by decide) hw
  · rw [hexit]
    exact fun w _ => List.mem_append_right _ (List.mem_singleton.2 rfl)
  · rintro v (rfl | rfl)
    · exact Or.inr ⟨⟨0⟩, ⟨_, List.mem_cons_self, rfl⟩, hentry _⟩
    · exact Or.inr ⟨⟨0⟩, ⟨_, List.mem_cons_of_mem _ List.mem_cons_self, rfl⟩, hentry _⟩
  · rintro x - v hread c ⟨i, hi, hres⟩
    obtain ⟨read, hreadblk, hv⟩ := hread.exists_operand
    obtain ⟨blk, hblk, rfl, hmem⟩ := exists_block_of_mem_instrsOf hi
    rw [hdef read hreadblk v hv blk hblk i hmem hres]
    exact Or.inl (hentry _)

/-- Control starts with the first loop, and the header in front of it reads what is only known
behind it. -/
theorem defects_wrap_circlingFirst : circling.defects = [] ∧ circling.Bounded ∧
    circling.Enclosed circlingPlan circlingFirst ∧
    ((circlingFirst.wrap .rankAndSize circlingPlan).apply circling).2.defects ≠ [] := by
  refine ⟨clean_circling.1, clean_circling.2, ?_, fun hnil => ?_⟩
  · exact enclosed_circling (w := []) (by decide) (by decide) (Graph.isWalk_singleton.2 rfl) rfl
  · have hlength : ((circlingFirst.wrap .rankAndSize circlingPlan).apply
        circling).2.defects.length = 6 := by cbv
    rw [hnil] at hlength
    cases hlength

/-- A loop around the second one, whose front control comes back to, leaves no defects. -/
theorem defects_wrap_circlingSecond : circling.defects = [] ∧ circling.Bounded ∧
    circling.Enclosed circlingPlan circlingSecond ∧
    circling.graph.Edge circlingSecond.succ circlingSecond.pred ∧
    ∀ guard, ((circlingSecond.wrap guard circlingPlan).apply circling).2.defects = [] := by
  have henclosed : circling.Enclosed circlingPlan circlingSecond :=
    enclosed_circling (w := [⟨0⟩, ⟨2⟩, ⟨3⟩]) (by decide) (by decide) ⟨⟨_, rfl, rfl⟩, by decide⟩ rfl
  have hwrap := defects_wrap_eq_nil_iff _ _ _ clean_circling.1 clean_circling.2 henclosed
  exact ⟨clean_circling.1, clean_circling.2, henclosed, by decide,
    hwrap.2.2 ⟨by decide, by decide⟩⟩

end Func

end BarrierLowering
