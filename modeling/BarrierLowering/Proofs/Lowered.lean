import BarrierLowering.Lower
import BarrierLowering.Proofs.Crossing

/-!
# Lowered kernels

A planned kernel can always be lowered: no edit fails on the way. The result is well formed
unless some value crosses a barrier. The analysis is meant to rule that out, but it settles how
many barriers are behind a block by one way to the block, and there may be others.

## Main definitions

* `Func.Lowered` — a kernel that was divided into regions, with loops around the regions.
* `Func.Crossed` — a kernel with a plan in which a value crosses a barrier nevertheless.

## Main results

* `Plan.apply_carryOut` — a planned kernel can be lowered.
* `Func.Lowered.wellFormed_iff` — when the result is well formed.
* `Program.lower_eq_ok_iff` — when the lowering of a program succeeds.
-/

namespace BarrierLowering

/-! ### One kernel -/

/-- A kernel that was divided into regions, with loops around the regions. -/
structure Func.Lowered (f g : Func) (config : Config) (plan : Plan) (front first : BlockId)
    (ws : List Wrap) (next : Counters) : Prop where
  cuts : f.Cuts g
  numbered : g.Numbered
  sequenced : g.Sequenced config.nameRule plan front first (ws.map (·.region))
  loopable : g.Loopable config.turnGuard plan ws next
  /-- What stood in front of the last query of the rank is the entry now. -/
  ahead : ∃ entry, f.entry? = some entry ∧ g.instrsOf front = entry.ahead config.nameRule

open Func in
/-- A drafted kernel can be divided into regions, and each region can be wrapped. -/
theorem Plan.exists_lowered {f : Func} {config : Config} {plan : Plan} (hshape : f.Shaped)
    (hn : f.Numbered) (hdraft : f.draft config = .ok plan) :
    ∃ g front first ws next, f.Lowered g config plan front first ws next ∧
      plan.buildRegions.apply f = (.ok (ws.map Wrap.region), g) ∧
      ((ws.map Wrap.region).mapM fun region : Region => region.wrap config.turnGuard plan).apply g =
        (.ok (ws.map Wrap.loop), g.looped ws next) := by
  obtain ⟨g, front, first, regions, hregions, hcuts, hseq, -, entry, hentry, hqueries⟩ :=
    Plan.exists_sequenced hshape hn hdraft
  have hnumbered := hcuts.numbered hn
  have hnil : g.Loopable config.turnGuard plan [] g.next :=
    .nil (hcuts.shaped hshape) hnumbered.bounded
  obtain ⟨ws, next, hwraps, hloopable, rfl⟩ := hnil.apply_wraps hseq.spaced
  rw [looped_nil] at hwraps
  exact ⟨g, front, first, ws, next,
    ⟨hcuts, hnumbered, hseq, hloopable, entry, hentry, hqueries.ahead⟩, hregions, hwraps⟩

/-- A plan is carried out by dividing the kernel and wrapping each region. -/
theorem Plan.apply_carryOut_of_wraps {f g g' : Func} {config : Config} {plan : Plan}
    {regions : List Region} {loops : List TurnLoop} (hkeep : config.eraseBarriers = false)
    (hregions : plan.buildRegions.apply f = (.ok regions, g))
    (hwraps : (regions.mapM fun region : Region => region.wrap config.turnGuard plan).apply g =
      (.ok loops, g')) : (plan.carryOut config).apply f = (.ok loops, g') := by
  unfold Plan.carryOut
  refine (Edit.apply_bind_ok hregions).trans ((Edit.apply_bind_ok hwraps).trans ?_)
  rw [hkeep]
  rfl

open Func in
/-- A drafted kernel can be lowered. -/
theorem Plan.apply_carryOut {f : Func} {config : Config} {plan : Plan} (hshape : f.Shaped)
    (hn : f.Numbered) (hdraft : f.draft config = .ok plan) (hkeep : config.eraseBarriers = false) :
    ∃ g front first ws next, f.Lowered g config plan front first ws next ∧
      (plan.carryOut config).apply f = (.ok (ws.map Wrap.loop), g.looped ws next) := by
  obtain ⟨g, front, first, ws, next, hlowered, hregions, hwraps⟩ :=
    Plan.exists_lowered hshape hn hdraft
  exact ⟨g, front, first, ws, next, hlowered, apply_carryOut_of_wraps hkeep hregions hwraps⟩

namespace Func

variable {f g : Func} {config : Config} {plan : Plan} {front first : BlockId} {ws : List Wrap}
  {next : Counters}

/-- The rank and the size of the group are results of queries. -/
theorem Lowered.query_mem (h : f.Lowered g config plan front first ws next) :
    plan.rank ∈ g.results ∧ plan.size ∈ g.results := by
  have hresult : ∀ {b i v}, i ∈ g.instrsOf b → i.result = some v → v ∈ g.results := fun hi hres =>
    List.mem_filterMap.2 ⟨_, mem_instrs_of_mem_instrsOf hi, hres⟩
  obtain ⟨i, hi, hrank, -⟩ := h.sequenced.rank
  obtain ⟨j, hj, hsize, -⟩ := h.sequenced.size
  exact ⟨hresult hi hrank, (List.mem_append.1 hj).elim (hresult · hsize) (hresult · hsize)⟩

/-- A lowered kernel has the right shape. -/
theorem Lowered.shaped (h : f.Lowered g config plan front first ws next) :
    (g.looped ws next).Shaped :=
  h.loopable.shaped_looped (List.mem_append_right _ h.query_mem.1)
    (List.mem_append_right _ h.query_mem.2)

/-- A lowered kernel is well formed if and only if no value crosses a barrier. -/
theorem Lowered.wellFormed_iff (h : f.Lowered g config plan front first ws next)
    (hf : f.WellFormed) :
    (g.looped ws next).WellFormed ↔ ¬ f.Crosses ⟨plan.anchor, plan.barriers⟩ := by
  have hg := h.cuts.wellFormed hf
  have hsound := Loopable.sound_looped_iff h.sequenced.passable h.loopable hg.sound h.shaped
  simp only [h.sequenced.leaks_iff_loses h.numbered hg, h.cuts.loses_iff,
    ← not_exists, ← crosses_iff] at hsound
  exact ⟨fun hwf => hsound.1 hwf.sound, fun hcross => ⟨h.shaped, hsound.2 hcross⟩⟩

/-- A value that is read when it is lost leaks in the lowered kernel. -/
theorem Lowered.leaks (h : f.Lowered g config plan front first ws next) (hf : f.WellFormed)
    {v : ValueId} (hv : f.Loses ⟨plan.anchor, plan.barriers⟩ v) :
    (g.looped ws next).Leaks [] v := by
  refine Loopable.leaks_looped h.sequenced.passable h.loopable ?_
  rw [h.sequenced.leaks_iff_loses h.numbered (h.cuts.wellFormed hf), h.cuts.loses_iff]
  exact hv

/-- A kernel with a plan in which a value crosses a barrier nevertheless. -/
def Crossed (config : Config) (f : Func) : Prop :=
  ∃ plan, f.plan config = .ok plan ∧ f.Crosses ⟨plan.anchor, plan.barriers⟩

/-! ### All kernels -/

/-- What a run should leave behind of a kernel: the report names it, and if it was lowered, it has
no defects. -/
def Fits (f : Func) (report : FuncReport) : Prop :=
  report.name = f.name ∧ (report.outcome.isTransformed = true → f.defects = [])

/-- A kernel without a plan is left as it is. -/
theorem apply_lowerKernel_of_error {reason : Rejection} (h : f.plan config = .error reason) :
    (lowerKernel config).apply f = (.ok (.skipped reason), f) := by
  unfold lowerKernel
  rw [Edit.apply_bind, Edit.apply_get]
  dsimp only
  rw [h]
  rfl

/-- A kernel with a plan is lowered as planned. -/
theorem apply_lowerKernel_of_ok {loops : List TurnLoop} (h : f.plan config = .ok plan)
    (hcarry : (plan.carryOut config).apply f = (.ok loops, g)) :
    (lowerKernel config).apply f = (.ok (.transformed loops), g) := by
  unfold lowerKernel
  rw [Edit.apply_bind, Edit.apply_get]
  dsimp only
  rw [h]
  exact Edit.apply_bind_ok hcarry

/-- A kernel that was lowered had a plan, which was carried out. -/
theorem exists_plan_of_transformed {loops : List TurnLoop}
    (h : (lowerKernel config).apply f = (.ok (.transformed loops), g)) :
    ∃ plan, f.plan config = .ok plan ∧ (plan.carryOut config).apply f = (.ok loops, g) := by
  cases hplan : f.plan config with
  | error reason =>
    rw [apply_lowerKernel_of_error hplan] at h
    cases h
  | ok plan =>
    unfold lowerKernel at h
    rw [Edit.apply_bind, Edit.apply_get] at h
    dsimp only at h
    rw [hplan] at h
    dsimp only at h
    rw [Edit.apply_bind] at h
    rcases hcarry : (plan.carryOut config).apply f with ⟨error | loops', g'⟩
    · rw [hcarry] at h
      cases h
    · rw [hcarry] at h
      cases h
      exact ⟨plan, rfl, hcarry⟩

/-- A kernel that was lowered is checked if asked for. -/
theorem apply_lowerAndVerify_of_ok {outcome : Outcome}
    (h : (lowerKernel config).apply f = (.ok outcome, g)) :
    (lowerAndVerify config).apply f =
      (if outcome.isTransformed && config.verifyAfter && !g.defects.isEmpty then
        .error (.invalid ⟨g.name, g.defects⟩) else .ok outcome, g) := by
  unfold lowerAndVerify
  rw [Edit.apply_bind_ok h]
  cases houtcome : outcome.isTransformed && config.verifyAfter with
  | false => rfl
  | true =>
    rw [if_pos rfl, Edit.apply_bind, Edit.apply_get]
    dsimp only
    cases hdefects : g.defects.isEmpty with
    | false => simp [verify, hdefects]
    | true => simp [verify, hdefects]

/-- A kernel is lowered and fits its report unless a value crosses a barrier. -/
theorem apply_lowerAndVerify (hf : f.defects = []) (hn : f.Numbered)
    (hkeep : config.eraseBarriers = false) :
    ∃ result g, (lowerAndVerify config).apply f = (result, g) ∧ g.convention = f.convention ∧
      ((∃ outcome, result = .ok outcome ∧ g.Fits ⟨g.name, outcome⟩) ↔ ¬ f.Crossed config) := by
  have hwf := defects_eq_nil_iff.1 hf
  cases hplan : f.plan config with
  | error reason =>
    refine ⟨_, _, apply_lowerAndVerify_of_ok (apply_lowerKernel_of_error hplan), rfl, ?_⟩
    refine iff_of_true ⟨_, rfl, rfl, nofun⟩ ?_
    rintro ⟨plan, hok, -⟩
    rw [hplan] at hok
    cases hok
  | ok plan =>
    obtain ⟨g, front, first, ws, next, hlowered, hcarry⟩ :=
      Plan.apply_carryOut hwf.toShaped hn (plan_eq_ok_iff.1 hplan).1 hkeep
    have hiff := hlowered.wellFormed_iff hwf
    rw [← defects_eq_nil_iff] at hiff
    have hcrossed : f.Crossed config ↔ f.Crosses ⟨plan.anchor, plan.barriers⟩ := by
      constructor
      · rintro ⟨plan', hok, hcross⟩
        rw [hplan] at hok
        exact Except.ok.inj hok ▸ hcross
      · exact fun hcross => ⟨plan, hplan, hcross⟩
    refine ⟨_, _, apply_lowerAndVerify_of_ok (apply_lowerKernel_of_ok hplan hcarry),
      hlowered.cuts.convention, ?_⟩
    rw [hcrossed, ← hiff]
    constructor
    · rintro ⟨outcome, hresult, -, hclean⟩
      split at hresult
      · cases hresult
      · exact hclean (by rw [← Except.ok.inj hresult]; rfl)
    · intro hclean
      refine ⟨.transformed (ws.map Wrap.loop), ?_, rfl, fun _ => hclean⟩
      rw [hclean, List.isEmpty_nil, Bool.not_true, Bool.and_false, if_neg Bool.false_ne_true]

end Func

section

variable {config : Config} {f g : Func} {rest : List Func}

/-- A function that is no kernel is left as it is. -/
theorem lowerFuncs_cons_of_not_kernel (h : f.isKernel = false) :
    lowerFuncs config (f :: rest) =
      ((lowerFuncs config rest).1, f :: (lowerFuncs config rest).2) := by
  rw [lowerFuncs, h]
  rfl

/-- An error ends the run. -/
theorem lowerFuncs_cons_of_error {e : LoweringError} (hkernel : f.isKernel = true)
    (h : (lowerAndVerify config).apply f = (.error e, g)) :
    lowerFuncs config (f :: rest) = (.error e, g :: rest) := by
  rw [lowerFuncs, hkernel, h]
  rfl

/-- A kernel that was lowered is reported. -/
theorem lowerFuncs_cons_of_ok {outcome : Outcome} (hkernel : f.isKernel = true)
    (h : (lowerAndVerify config).apply f = (.ok outcome, g)) :
    lowerFuncs config (f :: rest) =
      ((lowerFuncs config rest).1.map (⟨g.name, outcome⟩ :: ·),
        g :: (lowerFuncs config rest).2) := by
  rw [lowerFuncs, hkernel, h]
  rfl

end

/-- The kernels of a list of functions are lowered and fit their reports unless a value crosses a
barrier. -/
theorem lowerFuncs_eq_ok_iff {config : Config} (hkeep : config.eraseBarriers = false) :
    ∀ fs : List Func, (∀ f ∈ fs, f.defects = [] ∧ f.Numbered) →
      ((∃ reports, (lowerFuncs config fs).1 = .ok reports ∧
          List.Forall₂ Func.Fits ((lowerFuncs config fs).2.filter (·.isKernel)) reports) ↔
        ∀ f ∈ fs, f.isKernel = true → ¬ f.Crossed config) := by
  intro fs
  induction fs with
  | nil => exact fun _ => iff_of_true ⟨[], rfl, .nil⟩ nofun
  | cons f rest ih =>
    intro hfs
    obtain ⟨hf, hn⟩ := hfs f List.mem_cons_self
    have hrest := ih fun g hg => hfs g (List.mem_cons_of_mem _ hg)
    rw [List.forall_mem_cons, ← hrest]
    cases hkernel : f.isKernel with
    | false =>
      rw [lowerFuncs_cons_of_not_kernel hkernel, List.filter_cons_of_neg (by simp [hkernel])]
      simp
    | true =>
      obtain ⟨result, g, happly, hconvention, hiff⟩ := Func.apply_lowerAndVerify hf hn hkeep
      have hkernel' : g.isKernel = true := by
        rw [← hkernel, Func.isKernel, hconvention, Func.isKernel]
      cases result with
      | error e =>
        rw [lowerFuncs_cons_of_error hkernel happly]
        refine iff_of_false ?_ fun h => ?_
        · rintro ⟨reports, hok, -⟩
          cases hok
        · obtain ⟨outcome, hok, -⟩ := hiff.2 (h.1 rfl)
          cases hok
      | ok outcome =>
        have hfits : g.Fits ⟨g.name, outcome⟩ ↔ ¬ f.Crossed config := by
          rw [← hiff]
          constructor
          · exact fun h => ⟨outcome, rfl, h⟩
          · rintro ⟨outcome', hok, h⟩
            exact Except.ok.inj hok ▸ h
        rw [lowerFuncs_cons_of_ok hkernel happly, List.filter_cons_of_pos hkernel', ← hfits]
        constructor
        · rintro ⟨reports, hok, hall⟩
          cases htail : (lowerFuncs config rest).1 with
          | error e => rw [htail] at hok; cases hok
          | ok tail =>
            rw [htail] at hok
            cases hok
            obtain ⟨hfirst, hall⟩ := List.forall₂_cons.1 hall
            exact ⟨fun _ => hfirst, tail, rfl, hall⟩
        · rintro ⟨hfirst, tail, htail, hall⟩
          exact ⟨⟨g.name, outcome⟩ :: tail, by rw [htail]; rfl, .cons (hfirst rfl) hall⟩

/-- **The lowering of a program succeeds if and only if no value crosses a barrier.** A kernel
with a plan may still read a value behind a barrier that its definition does not reach any more:
then the kernel has a defect after it was lowered, and with the check switched on the run fails. -/
theorem Program.lower_eq_ok_iff (p : Program) (config : Config)
    (hfuncs : ∀ f ∈ p.funcs, f.defects = [] ∧ f.Numbered) (hkeep : config.eraseBarriers = false) :
    (∃ report, (p.lower config).1 = .ok report ∧
        List.Forall₂ Func.Fits ((p.lower config).2.funcs.filter (·.isKernel)) report.functions) ↔
      ∀ f ∈ p.funcs, f.isKernel = true → ∀ plan, f.plan config = .ok plan →
        ¬ f.Crosses ⟨plan.anchor, plan.barriers⟩ := by
  have hall := lowerFuncs_eq_ok_iff hkeep p.funcs hfuncs
  have hcrossed : (∀ f ∈ p.funcs, f.isKernel = true → ¬ f.Crossed config) ↔
      ∀ f ∈ p.funcs, f.isKernel = true → ∀ plan, f.plan config = .ok plan →
        ¬ f.Crosses ⟨plan.anchor, plan.barriers⟩ := by
    simp only [Func.Crossed, not_exists, not_and]
  have hlower : p.lower config = ((lowerFuncs config p.funcs).1.map Report.mk,
      { p with funcs := (lowerFuncs config p.funcs).2 }) := rfl
  rw [← hcrossed, ← hall, hlower]
  constructor
  · rintro ⟨report, hok, hfits⟩
    dsimp only at hok hfits
    cases hreports : (lowerFuncs config p.funcs).1 with
    | error e => rw [hreports] at hok; cases hok
    | ok reports =>
      rw [hreports] at hok
      cases hok
      exact ⟨reports, rfl, hfits⟩
  · rintro ⟨reports, hok, hfits⟩
    exact ⟨⟨reports⟩, by rw [hok]; rfl, hfits⟩

/-- In a kernel whose threads wait once, no value crosses a barrier. -/
theorem Program.lower_eq_ok_iff_waiting :
    (∀ f ∈ [Func.waiting], f.defects = [] ∧ f.Numbered) ∧ Config.standard.eraseBarriers = false ∧
      ∃ plan, Func.waiting.plan .standard = .ok plan ∧
        ¬ Func.waiting.Crosses ⟨plan.anchor, plan.barriers⟩ := by
  have hfuncs : ∀ f ∈ [Func.waiting], f.defects = [] ∧ f.Numbered := by
    intro f hf
    obtain rfl := List.mem_singleton.1 hf
    exact ⟨by cbv, ⟨by decide, by decide, by decide, by decide, by decide⟩⟩
  have hplan : Func.waiting.plan .standard =
      .ok ⟨⟨⟨0⟩, ⟨1⟩, ⟨0⟩, ⟨1⟩, .i32, .i32⟩, [⟨3⟩], [⟨⟨3⟩, ⟨2⟩, .simple⟩], 2⟩ := by cbv
  have hclean : ((lowerKernel .standard).apply Func.waiting).2.defects = [] := by cbv
  have hok : ((lowerKernel .standard).apply Func.waiting).1.toBool = true := by cbv
  have hkernel : ((lowerKernel .standard).apply Func.waiting).2.isKernel = true := by cbv
  refine ⟨hfuncs, rfl, _, hplan, ?_⟩
  refine (Program.lower_eq_ok_iff ⟨"main", [Func.waiting]⟩ .standard hfuncs rfl).1 ?_ _
    List.mem_cons_self rfl _ hplan
  cases happly : (lowerKernel .standard).apply Func.waiting with
  | mk result g =>
    rw [happly] at hclean hok hkernel
    cases result with
    | error e => cases hok
    | ok outcome =>
      have hverified := Func.apply_lowerAndVerify_of_ok happly
      rw [hclean, List.isEmpty_nil, Bool.not_true, Bool.and_false,
        if_neg Bool.false_ne_true] at hverified
      refine ⟨⟨[⟨g.name, outcome⟩]⟩, ?_, ?_⟩
      · rw [Program.lower, lowerFuncs_cons_of_ok rfl hverified]
        rfl
      · rw [Program.lower, lowerFuncs_cons_of_ok rfl hverified]
        show List.Forall₂ Func.Fits ([g].filter (·.isKernel)) _
        rw [List.filter_cons_of_pos hkernel]
        exact .cons ⟨rfl, fun _ => hclean⟩ .nil

/-- A kernel with a trap that control enters before or behind the barrier, and never leaves. -/
def Func.trapped : Func where
  name := "trapped"
  convention := .kernel
  returnTy := .void
  params := []
  blocks :=
    [⟨⟨0⟩, "entry",
        [⟨⟨0⟩, some ⟨0⟩, .call "__hip_cg_thread_rank" [], .i32⟩,
          ⟨⟨1⟩, some ⟨1⟩, .call "__hip_cg_group_size" [], .i32⟩,
          ⟨⟨2⟩, some ⟨2⟩, .const (.bool true), .bool⟩],
        .condBranch ⟨2⟩ ⟨2⟩ ⟨1⟩⟩,
      ⟨⟨1⟩, "left", [⟨⟨3⟩, none, .call "__hip_cg_sync" [], .void⟩], .branch ⟨3⟩⟩,
      ⟨⟨2⟩, "right", [], .branch ⟨3⟩⟩,
      ⟨⟨3⟩, "trap", [], .condBranch ⟨2⟩ ⟨3⟩ ⟨3⟩⟩]
  next := ⟨4, 3, 4⟩

/-- Behind the loop the condition of the trap has no definition any more. -/
theorem Func.lowerAndVerify_trapped : ∃ g,
    (lowerAndVerify .standard).apply trapped = (.error (.invalid ⟨g.name, g.defects⟩), g) ∧
      g.defects = [.notDominated ⟨3⟩ ⟨2⟩] := by
  have hdefects : ((lowerKernel .standard).apply trapped).2.defects = [.notDominated ⟨3⟩ ⟨2⟩] := by
    cbv
  have htransformed : ((lowerKernel .standard).apply trapped).1.toOption.map
      (·.isTransformed) = some true := by cbv
  rcases happly : (lowerKernel .standard).apply trapped with ⟨error | outcome, g⟩
  · rw [happly] at htransformed
    cases htransformed
  · rw [happly] at htransformed hdefects
    have houtcome : outcome.isTransformed = true := Option.some.inj htransformed
    have hdefects : g.defects = [.notDominated ⟨3⟩ ⟨2⟩] := hdefects
    refine ⟨g, ?_, hdefects⟩
    rw [apply_lowerAndVerify_of_ok happly, houtcome, hdefects]
    rfl

/-- The condition of the trap crosses the barrier, and the run fails. -/
theorem Program.lower_trapped :
    (∀ f ∈ [Func.trapped], f.defects = [] ∧ f.Numbered) ∧ Config.standard.eraseBarriers = false ∧
      ∃ cause, ((⟨"main", [Func.trapped]⟩ : Program).lower .standard).1 =
        .error (.invalid cause) := by
  have hfuncs : ∀ f ∈ [Func.trapped], f.defects = [] ∧ f.Numbered := by
    intro f hf
    obtain rfl := List.mem_singleton.1 hf
    exact ⟨by cbv, ⟨by decide, by decide, by decide, by decide, by decide⟩⟩
  obtain ⟨g, hfail, -⟩ := Func.lowerAndVerify_trapped
  refine ⟨hfuncs, rfl, ⟨g.name, g.defects⟩, ?_⟩
  rw [Program.lower, lowerFuncs_cons_of_error rfl hfail]
  rfl

end BarrierLowering
