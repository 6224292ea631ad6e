import BarrierLowering.Proofs.Lowered
import BarrierLowering.Proofs.Turns

/-!
# Each thread runs each region once

With a guard that compares the rank of a thread with the number of the iteration, a lowered kernel
does for each thread of the group what the kernel did: the same choices take the thread to the same
end, and on the way it runs the same instructions, with the same data.

## Main definitions

* `Thread.Agrees` — two threads that know the same about given values.
* `Machine.Recalls` — the results of the queries are known.
* `Func.InStep` — a thread of a kernel, and the same thread of the kernel with loops.

## Main results

* `Func.Turning.ends_looped` — a thread of a kernel with loops ends as in the kernel.
* `Func.runs_lowered` — a thread of a lowered kernel does what it did before.
-/

namespace BarrierLowering

variable {width : Nat} {δ : Type} {m : Machine width δ}

/-! ### Threads that agree -/

/-- Two threads with the same record that know the same about the values below a bound. -/
structure Thread.Agrees (bound : Nat) (t t' : Thread width δ) : Prop where
  trace : t'.trace = t.trace
  env : ∀ v : ValueId, v.index < bound → t'.env v = t.env v

namespace Machine

variable {bound : Nat} {i : Instr} {is js : List Instr} {source source' : Option BlockId}
  {entry entry' : ValueId → Datum width δ} {t t' : Thread width δ}

/-- Threads that agree run a given instruction in the same way. -/
theorem exec_agrees (h : t.Agrees bound t') (hgiven : i.id.index < m.given.instr)
    (hread : ∀ v ∈ i.op.operands, v.index < bound)
    (hphi : i.isPhi = true →
      source' = source ∧ ∀ v : ValueId, v.index < bound → entry' v = entry v) :
    (m.exec source entry t i).Agrees bound (m.exec source' entry' t' i) := by
  have hreads : m.reads source' entry' t'.env i = m.reads source entry t.env i := by
    unfold reads
    split
    · next hisPhi =>
      obtain ⟨rfl, hentry⟩ := hphi hisPhi
      unfold select
      split
      · next e he =>
        obtain ⟨b, v⟩ := e
        rw [hentry v (hread v (Instr.mem_operands_of_incoming (List.mem_of_find?_eq_some he)))]
      · rfl
    · exact List.map_congr_left fun v hv => h.env v (hread v hv)
  unfold exec
  rw [if_pos hgiven, if_pos hgiven]
  dsimp only
  rw [hreads, h.trace]
  refine ⟨rfl, fun v hv => ?_⟩
  cases i.result with
  | none => exact h.env v hv
  | some u =>
    show Function.update t'.env u _ v = Function.update t.env u _ v
    rw [Function.update_apply, Function.update_apply, h.env v hv]

/-- Threads that agree run given code in the same way. -/
theorem run_agrees (h : t.Agrees bound t') (hgiven : ∀ i ∈ is, i.id.index < m.given.instr)
    (hread : ∀ i ∈ is, ∀ v ∈ i.op.operands, v.index < bound)
    (hsource : source' = source ∨ ∀ i ∈ is, i.isPhi = false) :
    (m.run source t is).Agrees bound (m.run source' t' is) := by
  unfold run
  have hentry := h.env
  revert hentry
  generalize t.env = entry
  generalize t'.env = entry'
  intro hentry
  induction is generalizing t t' with
  | nil => exact h
  | cons i is ih =>
    rw [List.foldl_cons, List.foldl_cons]
    refine ih (m.exec_agrees h (hgiven i List.mem_cons_self) (hread i List.mem_cons_self) ?_)
      (fun j hj => hgiven j (List.mem_cons_of_mem _ hj))
      (fun j hj => hread j (List.mem_cons_of_mem _ hj))
      (hsource.imp_right fun hplain j hj => hplain j (List.mem_cons_of_mem _ hj))
    intro hphi
    rcases hsource with rfl | hplain
    · exact ⟨rfl, hentry⟩
    · rw [hplain i List.mem_cons_self] at hphi
      cases hphi

/-! ### Queries -/

/-- The results of the queries among some instructions are known. -/
def Recalls (m : Machine width δ) (is : List Instr) (env : ValueId → Datum width δ) : Prop :=
  ∀ i ∈ is, ∀ v, i.result = some v →
    (i.kind m.rule = .threadRank → env v = .int m.rank) ∧
      (i.kind m.rule = .groupSize → env v = .int m.size)

/-- What was asked stays known: no other instruction defines the same value. -/
theorem recalls_foldl (h : m.Recalls is t.env) (hgiven : ∀ j ∈ js, j.id.index < m.given.instr)
    (hunique : ∀ i ∈ is ++ js, ∀ j ∈ is ++ js, ∀ v, i.result = some v → j.result = some v → i = j) :
    m.Recalls (is ++ js) (js.foldl (m.exec source entry) t).env := by
  induction js generalizing is t with
  | nil => rwa [List.append_nil]
  | cons j js ih =>
    rw [List.append_cons] at hunique ⊢
    rw [List.foldl_cons]
    refine ih (fun i hi v hv => ?_) (fun i hi => hgiven i (List.mem_cons_of_mem _ hi)) hunique
    have hj : j ∈ is ++ [j] := List.mem_append_right _ List.mem_cons_self
    rw [exec, if_pos (hgiven j List.mem_cons_self)]
    dsimp only
    by_cases hjv : j.result = some v
    · obtain rfl : i = j :=
        hunique i (List.mem_append_left _ hi) j (List.mem_append_left _ hj) v hv hjv
      rw [hjv]
      show (_ → Function.update t.env v _ v = _) ∧ (_ → Function.update t.env v _ v = _)
      rw [Function.update_self]
      exact ⟨fun hkind => by rw [result, hkind], fun hkind => by rw [result, hkind]⟩
    · have hkeep : ∀ d : Datum width δ, assign t.env j.result d v = t.env v := fun d =>
        assign_of_ne hjv
      rw [hkeep]
      refine h i ((List.mem_append.1 hi).resolve_right fun hij => hjv ?_) v hv
      rwa [← List.mem_singleton.1 hij]

/-- Where control goes depends on what the terminator reads. -/
theorem follow_congr {env env' : ValueId → Datum width δ} {blk : Block} {choices : List Nat}
    (h : ∀ v ∈ blk.term.operands, env' v = env v) :
    m.follow blk env' choices = m.follow blk env choices := by
  unfold follow
  cases hterm : blk.term with
  | condBranch condition onTrue onFalse =>
    rw [hterm] at h
    dsimp only
    rw [h condition List.mem_cons_self]
  | _ => rfl

end Machine

namespace Func

variable {f : Func} {rule : NameRule} {plan : Plan} {front first : BlockId} {ws : List Wrap}
  {w w' : Wrap} {next : Counters} {walk : List BlockId} {p p' : Point width δ} {blk : Block}
  {i j : Instr} {v : ValueId}

/-- Behind the group queries the rank and the size are known. -/
theorem Sequenced.knows {env : ValueId → Datum width δ} {regions : List Region}
    (hs : f.Sequenced rule plan front first regions) (hrule : m.rule = rule)
    (hwalk : f.graph.IsWalk walk) (hfirst : first ∈ walk)
    (hrecalls : m.Recalls (f.instrsOn walk) env) : m.Knows plan env := by
  obtain ⟨i, hi, hrank, hkind⟩ := hs.rank
  obtain ⟨j, hj, hsize, hkind'⟩ := hs.size
  have hfront : front ∈ walk := by
    obtain ⟨e, he, hhead⟩ := hwalk.start
    rw [show f.graph.entry = some front from hs.entry] at he
    exact Option.some.inj he ▸ List.mem_of_mem_head? hhead
  have hmem : j ∈ f.instrsOn walk := by
    rcases List.mem_append.1 hj with hj | hj
    · exact List.mem_flatMap.2 ⟨front, hfront, hj⟩
    · exact List.mem_flatMap.2 ⟨first, hfirst, hj⟩
  exact ⟨(hrecalls i (List.mem_flatMap.2 ⟨first, hfirst, hi⟩) _ hrank).1 (hrule ▸ hkind),
    (hrecalls j hmem _ hsize).2 (hrule ▸ hkind')⟩

/-- A thread of a function, and the same thread of the function with loops. It is in front of the
same block, and where it is inside a region the loop has come to its turn. -/
structure InStep (f : Func) (m : Machine width δ) (ws : List Wrap) (walk : List BlockId)
    (p p' : Point width δ) : Prop where
  block : p'.block = p.block
  choices : p'.choices = p.choices
  agrees : p.thread.Agrees f.next.value p'.thread
  source : p'.source = p.source ∨ ∀ i ∈ f.instrsOf p.block, i.isPhi = false
  turns : ∀ w ∈ ws, w.region.pred ∈ walk → w.region.succ ∉ walk ++ [p.block] →
    p'.thread.env w.code.induction = .int m.rank

namespace Turning

/-! ### The values of the loops -/

/-- A value of a loop is in one loop only. -/
theorem eq_of_result (h : f.Turning plan ws next m) (hw : w ∈ ws) (hw' : w' ∈ ws)
    (hi : i ∈ w.code.instrs) (hj : j ∈ w'.code.instrs) (hiv : i.result = some v)
    (hjv : j.result = some v) : w = w' := by
  by_contra hne
  have hnd := h.emits.nodup_results
  rw [List.filterMap_flatMap, List.nodup_flatMap] at hnd
  have hsymm : Std.Symm (Function.onFun List.Disjoint
      fun w : Wrap => w.code.instrs.filterMap (·.result)) := ⟨fun _ _ => List.disjoint_symm⟩
  exact hnd.2.forall hw hw' hne (List.mem_filterMap.2 ⟨i, hi, hiv⟩)
    (List.mem_filterMap.2 ⟨j, hj, hjv⟩)

/-- The blocks in front of the regions do not count. -/
theorem opening_ne (h : f.Turning plan ws next m) (hw : w ∈ ws) (hw' : w' ∈ ws)
    (hi : i ∈ w'.code.opening) : i.result ≠ some w.code.induction := by
  intro hres
  obtain ⟨phi, hphi, hres'⟩ := h.exists_phi hw
  obtain rfl := h.eq_of_result hw' hw (w'.code.mem_instrs.1 i hi) (w.code.mem_instrs.2.1 phi hphi)
    hres hres'
  have hnd := h.emits.nodup_results
  rw [List.filterMap_flatMap, List.nodup_flatMap] at hnd
  have hcode := hnd.1 w' hw'
  rw [LoopCode.instrs, List.filterMap_append, List.nodup_append] at hcode
  exact hcode.2.2 _ (List.mem_filterMap.2 ⟨i, hi, hres⟩) _
    (List.mem_filterMap.2 ⟨phi, List.mem_append_left _ hphi, hres'⟩) rfl

/-- The other loops do not count. -/
theorem loop_ne (h : f.Turning plan ws next m) (hw : w ∈ ws) (hw' : w' ∈ ws) (hne : w ≠ w')
    (hi : i ∈ w'.code.head ++ w'.code.back) : i.result ≠ some w.code.induction := by
  intro hres
  obtain ⟨phi, hphi, hres'⟩ := h.exists_phi hw
  exact hne (h.eq_of_result hw hw' (w.code.mem_instrs.2.1 phi hphi) (List.mem_append_right _ hi)
    hres' hres)

theorem induction_ge (h : f.Turning plan ws next m) (hw : w ∈ ws) :
    f.next.value ≤ w.code.induction.index := by
  obtain ⟨phi, hphi, hres⟩ := h.exists_phi hw
  exact h.result_ge hw (w.code.mem_instrs.2.1 phi hphi) hres

/-- A loop keeps what is given. -/
theorem agrees_of_keeps (h : f.Turning plan ws next m) (hw : w ∈ ws) {t t' t'' : Thread width δ}
    (hagrees : t.Agrees f.next.value t') (hkeeps : w.Keeps t' t'') : t.Agrees f.next.value t'' := by
  refine ⟨hkeeps.trace.trans hagrees.trace, fun v hv => ?_⟩
  rw [hkeeps.env v fun i hi => h.result_ne_of_lt hw hv (List.mem_append_right _ hi),
    hagrees.env v hv]

/-! ### One block -/

/-- The given instructions of a block do the same as before. What comes after them leaves no record
and changes only new values. -/
theorem run_inner (h : f.Turning plan ws next m) (hstep : f.InStep m ws walk p p')
    (hblk : f.block? p.block = some blk) :
    ∃ t', m.run p'.source p'.thread (blk.inner ws).instrs = t' ∧
      (m.run p.source p.thread blk.instrs).Agrees f.next.value t' ∧
      (∀ w ∈ ws, t'.env w.code.induction = p'.thread.env w.code.induction) ∧
      ∀ w ∈ ws, w.region.pred = p.block → ∃ t₀,
        (m.run p.source p.thread blk.instrs).Agrees f.next.value t₀ ∧
          t' = m.run none t₀ w.code.opening := by
  obtain ⟨hmem, hid⟩ := block?_mem hblk
  have hin : ∀ i ∈ blk.instrs, i ∈ f.instrs := fun i hi => List.mem_flatMap.2 ⟨blk, hmem, hi⟩
  have hvalue : ∀ v ∈ f.paramValues ++ f.results, v.index < f.next.value := fun v hv =>
    (List.mem_append.1 hv).elim (h.bounded.params_lt v) (h.bounded.results_lt v)
  let t₀ := m.run p'.source p'.thread blk.instrs
  have hagrees : (m.run p.source p.thread blk.instrs).Agrees f.next.value t₀ := by
    refine Machine.run_agrees hstep.agrees (fun i hi => ?_) (fun i hi v hv => ?_) ?_
    · exact h.instr_given ▸ h.bounded.instrs_lt i (hin i hi)
    · exact hvalue v ((h.shaped.operands_defined blk hmem).1 i hi v hv)
    · have hsource := hstep.source
      rwa [instrsOf_of_block? hblk] at hsource
  have hopening : ∀ i ∈ (ws.filter fun w => w.region.pred = blk.id).flatMap (·.code.opening),
      ∃ w ∈ ws, i ∈ w.code.opening := by
    intro i hi
    obtain ⟨w, hw, hi⟩ := List.mem_flatMap.1 hi
    exact ⟨w, (List.mem_filter.1 hw).1, hi⟩
  refine ⟨m.run none t₀ ((ws.filter fun w => w.region.pred = blk.id).flatMap (·.code.opening)), ?_,
    ⟨?_, fun v hv => ?_⟩, fun w hw => ?_, fun w hw hpred => ⟨t₀, hagrees, ?_⟩⟩
  · refine Machine.run_append fun i hi => ?_
    obtain ⟨w, hw, hi⟩ := hopening i hi
    exact h.plain_opening hw i hi
  · refine (Machine.trace_foldl fun i hi => ?_).trans hagrees.trace
    obtain ⟨w, hw, hi⟩ := hopening i hi
    exact h.generated hw (w.code.mem_instrs.1 i hi)
  · refine (Machine.env_foldl fun i hi => ?_).trans (hagrees.env v hv)
    obtain ⟨w, hw, hi⟩ := hopening i hi
    exact h.result_ne_of_lt hw hv (w.code.mem_instrs.1 i hi)
  · refine (Machine.env_foldl fun i hi => ?_).trans (Machine.env_foldl fun i hi hres => ?_)
    · obtain ⟨w', hw', hi⟩ := hopening i hi
      exact h.opening_ne hw hw' hi
    · have hlt := h.bounded.results_lt _ (List.mem_filterMap.2 ⟨i, hin i hi, hres⟩)
      exact absurd hlt (Nat.not_lt.2 (h.induction_ge hw))
  · rw [hid, ← hpred, h.filter_pred hw, List.flatMap_singleton]

/-- Where a thread is inside a region after a block, the loop has come to its turn, unless the
thread has just come to the region. -/
theorem turns_snoc (h : f.Turning plan ws next m) (hstep : f.InStep m ws walk p p')
    {t' : Thread width δ} {y : BlockId} (hedge : f.graph.Edge p.block y)
    (hind : ∀ w ∈ ws, t'.env w.code.induction = p'.thread.env w.code.induction) (hw : w ∈ ws)
    (hpred : w.region.pred ∈ walk ++ [p.block]) (hstart : w.region.start ≠ y)
    (hsucc : w.region.succ ∉ walk ++ [p.block] ++ [y]) :
    t'.env w.code.induction = .int m.rank := by
  rw [hind w hw]
  refine hstep.turns w hw ((List.mem_append.1 hpred).resolve_right fun heq => ?_) fun hmem =>
    hsucc (List.mem_append_left _ hmem)
  rw [← List.mem_singleton.1 heq, (h.isRegion hw).leaves] at hedge
  exact hstart hedge.symm

/-- The results of the queries are known after a block. -/
theorem recalls_snoc (h : f.Turning plan ws next m) (hblk : f.block? p.block = some blk)
    (hrecalls : m.Recalls (f.instrsOn walk) p.thread.env) :
    m.Recalls (f.instrsOn (walk ++ [p.block])) (m.run p.source p.thread blk.instrs).env := by
  have hsplit : f.instrsOn (walk ++ [p.block]) = f.instrsOn walk ++ blk.instrs := by
    rw [instrsOn, List.flatMap_append, List.flatMap_singleton, instrsOf_of_block? hblk]
    rfl
  have hin : ∀ i ∈ blk.instrs, i ∈ f.instrs := fun i hi =>
    List.mem_flatMap.2 ⟨blk, (block?_mem hblk).1, hi⟩
  rw [hsplit]
  refine Machine.recalls_foldl hrecalls (fun j hj => ?_) fun i hi j hj v hiv hjv => ?_
  · exact h.instr_given ▸ h.bounded.instrs_lt j (hin j hj)
  · rw [← hsplit] at hi hj
    exact Func.eq_of_result h.shaped.results_nodup (mem_instrs_of_mem_instrsOn hi)
      (mem_instrs_of_mem_instrsOn hj) hiv hjv

/-- What a loop needs to know is known to a thread that agrees. -/
theorem knows_of_agrees (h : f.Turning plan ws next m) {t t' : Thread width δ}
    (hagrees : t.Agrees f.next.value t') (hknown : m.Knows plan t.env) : m.Knows plan t'.env :=
  ⟨(hagrees.env _ h.rank_lt).trans hknown.1, (hagrees.env _ h.size_lt).trans hknown.2⟩

/-! ### From one block to the next -/

section Steps

variable {x y : BlockId} {t t₀ t' : Thread width δ} (choices : List Nat)

/-- A thread that enters a region goes round until it is its turn. -/
theorem steps_start (h : f.Turning plan ws next m) (hw : w ∈ ws)
    (hagrees : t.Agrees f.next.value t') (hagrees₀ : t.Agrees f.next.value t₀)
    (ht' : t' = m.run none t₀ w.code.opening) (hknown : m.Knows plan t.env)
    (hturns : ∀ w' ∈ ws, w'.region.pred ∈ walk ++ [w.region.pred] →
      w'.region.start ≠ w.region.start →
        w'.region.succ ∉ walk ++ [w.region.pred] ++ [w.region.start] →
        t'.env w'.code.induction = .int m.rank) :
    ∃ p', (f.looped ws next).Leads m
        ⟨detour ws w.region.start, some w.region.pred, t', choices⟩ p' ∧
      f.InStep m ws (walk ++ [w.region.pred])
        ⟨w.region.start, some w.region.pred, t, choices⟩ p' := by
  obtain ⟨t'', hkeeps, hcount, hleads⟩ := h.leads_start hw none choices
    (h.knows_of_agrees hagrees₀ hknown)
  rw [← ht'] at hkeeps hleads
  rw [detour_start h.spaced hw]
  refine ⟨_, hleads, rfl, rfl, h.agrees_of_keeps hw hagrees hkeeps, Or.inr ?_,
    fun w' hw' hpred hsucc => ?_⟩
  · obtain ⟨blk, hblk⟩ := mem_blockIds_iff.1 (h.start_mem hw)
    rw [instrsOf_of_block? hblk]
    exact (h.isRegion hw).plain_start blk hblk
  · by_cases heq : w' = w
    · exact heq ▸ hcount
    · refine (hkeeps.env _ fun i hi => h.loop_ne hw' hw heq hi).trans ?_
      exact hturns w' hw' hpred (fun hsame => heq (h.eq_of_start hw' hw hsame)) hsucc

/-- A thread that comes to the end of a region goes round until all had their turns. -/
theorem steps_succ (h : f.Turning plan ws next m) (hw : w ∈ ws) (hagrees : t.Agrees f.next.value t')
    (hknown : m.Knows plan t.env) (hcount : t'.env w.code.induction = .int m.rank)
    (hturns : ∀ w' ∈ ws, w'.region.pred ∈ walk → w'.region.succ ∉ walk ++ [w.region.succ] →
      t'.env w'.code.induction = .int m.rank) :
    ∃ p', (f.looped ws next).Leads m ⟨detour ws w.region.succ, some x, t', choices⟩ p' ∧
      f.InStep m ws walk ⟨w.region.succ, some x, t, choices⟩ p' := by
  obtain ⟨t'', hkeeps, hleads⟩ := h.leads_succ hw (some x) choices
    (h.knows_of_agrees hagrees hknown) hcount
  rw [detour_succ h.spaced hw]
  refine ⟨_, hleads, rfl, rfl, h.agrees_of_keeps hw hagrees hkeeps, Or.inr ?_,
    fun w' hw' hpred hsucc => ?_⟩
  · obtain ⟨blk, hblk⟩ := mem_blockIds_iff.1 (h.succ_mem hw)
    rw [instrsOf_of_block? hblk]
    exact (h.isRegion hw).plain_succ blk hblk
  · have hne : w' ≠ w := by
      rintro rfl
      exact hsucc (List.mem_append_right _ (List.mem_singleton.2 rfl))
    refine (hkeeps.env _ fun i hi => h.loop_ne hw' hw hne hi).trans ?_
    exact hturns w' hw' hpred hsucc

/-- A thread in step stays in step when it goes on to the next block. -/
theorem steps (h : f.Turning plan ws next m)
    (hs : f.Sequenced rule plan front first (ws.map (·.region))) (hrule : m.rule = rule)
    (hstep : f.InStep m ws walk p p') (hwalk : f.graph.IsWalk (walk ++ [p.block]))
    (hedge : f.graph.Edge p.block y) (hrecalls : m.Recalls (f.instrsOn (walk ++ [p.block])) t.env)
    (hagrees : t.Agrees f.next.value t')
    (hind : ∀ w ∈ ws, t'.env w.code.induction = p'.thread.env w.code.induction)
    (hopen : ∀ w ∈ ws, w.region.pred = p.block → ∃ t₀, t.Agrees f.next.value t₀ ∧
      t' = m.run none t₀ w.code.opening) :
    ∃ p'', (f.looped ws next).Leads m ⟨detour ws y, some p.block, t', choices⟩ p'' ∧
      f.InStep m ws (walk ++ [p.block]) ⟨y, some p.block, t, choices⟩ p'' := by
  have hregions : ∀ {w}, w ∈ ws → w.region ∈ ws.map (·.region) := fun hw => List.mem_map_of_mem hw
  have hturns : ∀ w ∈ ws, w.region.pred ∈ walk ++ [p.block] → w.region.start ≠ y →
      w.region.succ ∉ walk ++ [p.block] ++ [y] → t'.env w.code.induction = .int m.rank :=
    fun w hw => h.turns_snoc hstep hedge hind hw
  rcases start_or_succ_or_not ws y with ⟨w, hw, rfl⟩ | ⟨w, hw, rfl⟩ | ⟨hstart, hsucc⟩
  · have hpred : p.block = w.region.pred := ((h.isRegion hw).enters _).1 hedge
    obtain ⟨t₀, hagrees₀, ht'⟩ := hopen w hw hpred.symm
    rw [hpred] at hwalk hrecalls hturns ⊢
    have hfirst := hs.first_mem_of_pred (hregions hw) hwalk
      (List.mem_append_right _ (List.mem_singleton.2 rfl))
    exact h.steps_start choices hw hagrees hagrees₀ ht' (hs.knows hrule hwalk hfirst hrecalls)
      hturns
  · have hexit : p.block = w.region.exit := ((h.isRegion hw).closes _).1 hedge
    have hpred : w.region.pred ∈ walk := hs.pred_mem_of_exit (hregions hw) (hexit ▸ hwalk)
    have hfirst := hs.first_mem_of_pred (hregions hw) hwalk (List.mem_append_left _ hpred)
    -- control was inside the region, so its loop has come to the turn of the thread
    have hcount : t'.env w.code.induction = .int m.rank := by
      rw [hind w hw]
      exact hstep.turns w hw hpred (hs.succ_not_mem (hregions hw) (hwalk.snoc hedge))
    exact h.steps_succ choices hw hagrees (hs.knows hrule hwalk hfirst hrecalls) hcount
      fun w' hw' hpred' => hturns w' hw' hpred' (h.spaced.disjoint _ (hregions hw') _ (hregions hw))
  · rw [detour_of_ne hstart hsucc]
    exact ⟨_, fun _ he => he, rfl, rfl, hagrees, Or.inl rfl, fun w hw hpred =>
      hturns w hw hpred (hstart w hw)⟩

end Steps

/-! ### All blocks -/

/-- **A thread of a kernel with loops ends as in the kernel.** -/
theorem ends_looped {e : Ending width δ} (h : f.Turning plan ws next m)
    (hs : f.Sequenced rule plan front first (ws.map (·.region))) (hrule : m.rule = rule)
    (hends : f.Ends m p e) : ∀ walk p', f.graph.IsWalk (walk ++ [p.block]) →
      m.Recalls (f.instrsOn walk) p.thread.env → f.InStep m ws walk p p' →
      (f.looped ws next).Ends m p' e := by
  have hvalue : ∀ v ∈ f.paramValues ++ f.results, v.index < f.next.value := fun v hv =>
    (List.mem_append.1 hv).elim (h.bounded.params_lt v) (h.bounded.results_lt v)
  induction hends with
  | @stop p blk t hblk hrun hstop =>
    intro walk p' _ _ hstep
    obtain ⟨t', hrun', hagrees, -, -⟩ := h.run_inner hstep hblk
    rw [hrun] at hagrees
    have hterm : (blk.inner ws).term = blk.term := Terminator.mapTargets_eq_self hstop
    have hblk' := h.block?_old hblk
    rw [← hstep.block] at hblk'
    have hlast := Ends.stop (f := f.looped ws next) (m := m) hblk' hrun' (hterm ▸ hstop)
    have hdata : blk.term.operands.map t'.env = blk.term.operands.map t.env :=
      List.map_congr_left fun v hv => hagrees.env v
        (hvalue v ((h.shaped.operands_defined blk (block?_mem hblk).1).2 v hv))
    rw [hterm, hdata, hagrees.trace, hstep.block, hstep.choices] at hlast
    exact hlast
  | @go p blk t y choices e hblk hrun hfollow _ ih =>
    intro walk p' hwalk hrecalls hstep
    obtain ⟨t', hrun', hagrees, hind, hopen⟩ := h.run_inner hstep hblk
    rw [hrun] at hagrees hopen
    have hblk' := h.block?_old hblk
    rw [← hstep.block] at hblk'
    have hfollow' : m.follow (blk.inner ws) t'.env p'.choices = some (detour ws y, choices) := by
      refine Machine.follow_mapTargets ?_
      rw [hstep.choices, ← hfollow]
      exact Machine.follow_congr fun v hv => hagrees.env v
        (hvalue v ((h.shaped.operands_defined blk (block?_mem hblk).1).2 v hv))
    have hedge : f.graph.Edge p.block y :=
      edge_iff.2 ⟨blk, hblk, Machine.mem_targets_of_follow hfollow⟩
    have hrecalls' := h.recalls_snoc hblk hrecalls
    rw [hrun] at hrecalls'
    obtain ⟨p'', hleads, hstep'⟩ := h.steps choices hs hrule hstep hwalk hedge hrecalls'
      hagrees hind
      hopen
    rw [← hstep.block] at hleads
    exact .go hblk' hrun' hfollow' (hleads e (ih _ p'' (hwalk.snoc hedge) hrecalls' hstep'))

end Turning

/-- The loops of a lowered kernel are ready for a machine that knows the kernel from before. -/
theorem Lowered.turning {g : Func} {config : Config}
    (h : f.Lowered g config plan front first ws next)
    (hguard : config.turnGuard = .rankEqualsIteration) (hgiven : m.given = f.next)
    (hwidth : plan.sizeTy.width? = some width) (hturn : m.rank < m.size) :
    g.Turning plan ws next m := by
  have hloopable := h.loopable
  rw [hguard] at hloopable
  refine ⟨hloopable, ?_, ?_, hwidth, hloopable.bounded.results_lt _ h.query_mem.1,
    hloopable.bounded.results_lt _ h.query_mem.2, hturn⟩
  · rw [hgiven]
    exact h.cuts.blockIds_subset.2
  · rw [hgiven]
    exact h.cuts.same.2.2.2.2.symm

/-- A thread of a lowered kernel runs as before. -/
theorem Lowered.runs {g : Func} {config : Config} {env : ValueId → Datum width δ}
    {choices : List Nat} {e : Ending width δ} (h : f.Lowered g config plan front first ws next)
    (hguard : config.turnGuard = .rankEqualsIteration) (hgiven : m.given = f.next)
    (hrule : m.rule = config.nameRule) (hwidth : plan.sizeTy.width? = some width)
    (hturn : m.rank < m.size) (hruns : f.Runs m env choices e) :
    (g.looped ws next).Runs m env choices e := by
  have hturning := h.turning hguard hgiven hwidth hturn
  obtain ⟨b, hb, hends⟩ := h.cuts.runs (hgiven ▸ Nat.le_refl _) hruns
  have hentry : g.graph.IsWalk ([] ++ [b]) := Graph.isWalk_singleton.2 hb
  refine ⟨b, (Loopable.entryId?_eq h.sequenced.passable).trans hb, ?_⟩
  exact hturning.ends_looped h.sequenced hrule hends [] _ hentry nofun
    ⟨rfl, rfl, ⟨rfl, fun _ _ => rfl⟩, Or.inl rfl, fun _ _ hmem => absurd hmem List.not_mem_nil⟩

/-- **A thread of a lowered kernel does what it did before.** The guard gives each iteration to one
thread. For each thread of a group, the choices that take it to an end of the kernel take it to the
same end of the lowered kernel, and only there. On the way it runs the same given instructions, in
the same order and with the same data. -/
theorem runs_lowered (f : Func) (config : Config) (plan : Plan) (hf : f.defects = [])
    (hn : f.Numbered) (hplan : f.plan config = .ok plan)
    (hguard : config.turnGuard = .rankEqualsIteration) (hkeep : config.eraseBarriers = false) :
    ∃ loops g, (lowerKernel config).apply f = (.ok (.transformed loops), g) ∧
      ∀ {width : Nat} {δ : Type} (m : Machine width δ), m.given = f.next →
        m.rule = config.nameRule → plan.sizeTy.width? = some width → m.rank < m.size →
          ∀ env choices e, f.Runs m env choices e →
            g.Runs m env choices e ∧ ∀ e', g.Runs m env choices e' → e' = e := by
  obtain ⟨g, front, first, ws, next, hlowered, hcarry⟩ := Plan.apply_carryOut
    (defects_eq_nil_iff.1 hf).toShaped hn (plan_eq_ok_iff.1 hplan).1 hkeep
  refine ⟨ws.map Wrap.loop, g.looped ws next, apply_lowerKernel_of_ok hplan hcarry, ?_⟩
  intro width δ m hgiven hrule hwidth hturn env choices e hruns
  have hlooped := hlowered.runs hguard hgiven hrule hwidth hturn hruns
  exact ⟨hlooped, fun e' he' => he'.unique hlooped⟩

/-- The second of three threads, which finds that everything it asks for is true. -/
def second : Machine 32 Unit where
  given := waiting.next
  rule := .intrinsics
  rank := 1
  size := 3
  answer _ _ _ := .bool true
  junk := .other ()

/-- The second of three threads goes round the loop of a kernel once, and waits once. -/
theorem runs_lowered_waiting : waiting.defects = [] ∧ waiting.Numbered ∧ ∃ plan,
    waiting.plan .corrected = .ok plan ∧ plan.sizeTy.width? = some 32 ∧ second.rank < second.size ∧
      ∃ loops g e, (lowerKernel .corrected).apply waiting = (.ok (.transformed loops), g) ∧
        g.Runs second (fun _ => .other ()) [0, 0, 1] e ∧ e.block = ⟨2⟩ ∧
          e.trace.map (·.1.id) = [⟨0⟩, ⟨1⟩, ⟨2⟩, ⟨3⟩] := by
  have hf : waiting.defects = [] := by cbv
  have hn : waiting.Numbered := ⟨by decide, by decide, by decide, by decide, by decide⟩
  have hplan : waiting.plan .corrected =
      .ok ⟨⟨⟨0⟩, ⟨1⟩, ⟨0⟩, ⟨1⟩, .i32, .i32⟩, [⟨3⟩], [⟨⟨3⟩, ⟨2⟩, .simple⟩], 2⟩ := by cbv
  have hturn : second.rank < second.size := by decide
  obtain ⟨loops, g, happly, hruns⟩ := runs_lowered waiting .corrected _ hf hn hplan rfl rfl
  have hwaiting : waiting.Runs second (fun _ => .other ()) [0, 0, 1] _ :=
    ⟨⟨0⟩, rfl, .go rfl rfl rfl (.go rfl rfl rfl (.go rfl rfl rfl (.stop rfl rfl rfl)))⟩
  exact ⟨hf, hn, _, hplan, rfl, hturn, loops, g, _, happly,
    (hruns second rfl rfl rfl hturn _ _ _ hwaiting).1, rfl, rfl⟩

end Func

end BarrierLowering
