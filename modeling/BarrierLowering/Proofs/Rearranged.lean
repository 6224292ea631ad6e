import BarrierLowering.Proofs.Sequence
import BarrierLowering.Proofs.WellFormed

/-!
# Functions with their blocks in another order

The blocks of a function are addressed by their identifiers, and only the entry by its place.
Where identifiers are distinct, no lookup and no search sees in which order the other blocks are
listed, and so the analysis of a kernel comes to the same verdict whatever that order is.

## Main definitions

* `Func.Rearranged` — two functions that differ in the order of the blocks behind the entry.
* `Graph.Same` — two graphs that differ in the order of their nodes.
* `Plan.SameVerdict` — two results of the analysis that differ in the order of the records.

## Main results

* `Func.Rearranged.block?_eq`, `Func.Rearranged.predecessors_perm` — lookups and edges.
* `Graph.Same.spread_eq`, `Graph.Same.visitPaths_eq` — the searches find the same.
* `Func.Rearranged.sameVerdict` — the analysis comes to the same verdict.
-/

namespace BarrierLowering

/-! ### Searches in a list -/

/-- A search finds the same in lists of the same members, if there is only one thing to find. -/
theorem findSome?_eq_of_perm {α β : Type} {φ : α → Option β} {l l' : List α} (h : l.Perm l')
    (hunique : ∀ a ∈ l, ∀ b ∈ l, ∀ x y, φ a = some x → φ b = some y → x = y) :
    l.findSome? φ = l'.findSome? φ := by
  cases hl : l.findSome? φ with
  | none =>
    rw [List.findSome?_eq_none_iff] at hl
    exact (List.findSome?_eq_none_iff.2 fun a ha => hl a (h.mem_iff.2 ha)).symm
  | some x =>
    obtain ⟨a, ha, hx⟩ := List.exists_of_findSome?_eq_some hl
    cases hl' : l'.findSome? φ with
    | none =>
      rw [List.findSome?_eq_none_iff.1 hl' a (h.mem_iff.1 ha)] at hx
      cases hx
    | some y =>
      obtain ⟨b, hb, hy⟩ := List.exists_of_findSome?_eq_some hl'
      rw [hunique a ha b (h.mem_iff.2 hb) x y hx hy]

theorem find?_eq_of_perm {α : Type} {p : α → Bool} {l l' : List α} (h : l.Perm l')
    (hunique : ∀ a ∈ l, ∀ b ∈ l, p a = true → p b = true → a = b) : l.find? p = l'.find? p := by
  rw [List.find?_eq_findSome?_guard, List.find?_eq_findSome?_guard]
  refine findSome?_eq_of_perm h fun a ha b hb x y hx hy => ?_
  obtain ⟨rfl, hpa⟩ := Option.guard_eq_some_iff.1 hx
  obtain ⟨rfl, hpb⟩ := Option.guard_eq_some_iff.1 hy
  exact hunique _ ha _ hb hpa hpb

theorem foldlM_congr {m : Type → Type} [Monad m] [LawfulMonad m] {α σ : Type} {l : List α}
    {step step' : σ → α → m σ} (h : ∀ a ∈ l, ∀ s, step s a = step' s a) (s : σ) :
    l.foldlM step s = l.foldlM step' s := by
  induction l generalizing s with
  | nil => rfl
  | cons a l ih =>
    rw [List.foldlM_cons, List.foldlM_cons, h a List.mem_cons_self]
    exact bind_congr fun s' => ih (fun b hb => h b (List.mem_cons_of_mem _ hb)) s'

/-! ### Searches in a graph -/

namespace Graph

variable {ν σ β α : Type} [DecidableEq ν]

/-- Two graphs with the same entry, nodes and successors. The nodes may be listed in another
order. -/
structure Same (g g' : Graph ν) : Prop where
  entry : g'.entry = g.entry
  nodes : ∀ v, v ∈ g'.nodes ↔ v ∈ g.nodes
  succs : ∀ v, g'.succs v = g.succs v

namespace Same

variable {g g' : Graph ν} (h : g.Same g')

include h

theorem discover_eq (known : List ν) (v : ν) : g'.discover known v = g.discover known v := by
  simp only [discover, h.succs, h.nodes]

/-- A breadth-first search visits the same nodes in the same order. -/
theorem spread_eq (pass : ν → α → α) (done queue : List (ν × α)) :
    g'.spread pass done queue = g.spread pass done queue := by
  fun_induction spread g pass done queue with
  | case1 done => rw [spread]
  | case2 done v a rest found ih => rw [spread, h.discover_eq, ih]

theorem onCycle_eq (v : ν) : g'.onCycle v = g.onCycle v := by
  have hedge : g'.Edge = g.Edge := by
    funext u w
    rw [Edge, Edge, h.succs]
  rw [← Bool.coe_iff_coe, onCycle_iff, onCycle_iff, OnCycle, OnCycle, hedge]

/-- A depth-first search shows the same paths with the same numbers. -/
theorem visitFrom_eq {limit : Nat} {visitor : Visitor ν σ β} (trail : List ν) (node : ν) :
    ∀ id v, g'.visitFrom limit visitor id trail node v =
      g.visitFrom limit visitor id trail node v := by
  refine completionInduction g (motive := fun trail node => ∀ id v,
    g'.visitFrom limit visitor id trail node v = g.visitFrom limit visitor id trail node v)
    ?_ ?_ ?_ trail node
  · intro trail node hmem id v
    rw [visitFrom_of_mem hmem, visitFrom_of_mem hmem]
  · intro trail node hmem hs id v
    rw [visitFrom_of_exit hmem hs, visitFrom_of_exit hmem ((h.succs node).trans hs)]
  · intro trail node hmem hs ih id v
    obtain ⟨first, others, hcons⟩ := List.exists_cons_of_ne_nil hs
    rw [visitFrom_of_succs hmem hcons, visitFrom_of_succs hmem ((h.succs node).trans hcons)]
    -- the search goes on in the same way from each successor
    rw [foldlM_congr fun x hx v => ih x.1 (edge_of_mem_numbered hcons hx) x.2 v]

theorem visitPaths_eq (limit : Nat) (visitor : Visitor ν σ β) (state : σ) :
    g'.visitPaths limit visitor state = g.visitPaths limit visitor state := by
  simp only [visitPaths, h.entry, h.visitFrom_eq]

end Same

end Graph

/-! ### Functions -/

namespace Func

/-- The position of an instruction in a block is one where it stands. -/
theorem exists_of_position {blk : Block} {i : InstrId} {x : BlockId × Nat}
    (h : (blk.instrs.findIdx? fun j => j.id = i).map (fun index => (blk.id, index)) = some x) :
    ∃ j ∈ blk.instrs, j.id = i := by
  obtain ⟨index, hindex, -⟩ := Option.map_eq_some_iff.1 h
  obtain ⟨hlt, hid, -⟩ := List.findIdx?_eq_some_iff_getElem.1 hindex
  exact ⟨_, List.getElem_mem hlt, of_decide_eq_true hid⟩

/-- Only an instruction of the function is located. -/
theorem exists_of_locate? {f : Func} {i : InstrId} {x : BlockId × Nat} (h : f.locate? i = some x) :
    ∃ j ∈ f.instrs, j.id = i := by
  obtain ⟨blk, hblk, hx⟩ := List.exists_of_findSome?_eq_some h
  obtain ⟨j, hj, hid⟩ := exists_of_position hx
  exact ⟨j, List.mem_flatMap.2 ⟨blk, hblk, hj⟩, hid⟩

/-- The functions differ at most in the order of the blocks behind the entry. -/
structure Rearranged (f f' : Func) : Prop where
  /-- Apart from the blocks, the functions are the same. -/
  same : f' = { f with blocks := f'.blocks }
  entry : f'.entry? = f.entry?
  perm : f'.blocks.Perm f.blocks

namespace Rearranged

variable {f f' : Func} {b : BlockId} {v : ValueId} {i : InstrId} {rule : NameRule}
  (h : f.Rearranged f')

include h

theorem next_eq : f'.next = f.next := by rw [h.same]

theorem name_eq : f'.name = f.name := by rw [h.same]

theorem params_eq : f'.params = f.params := by rw [h.same]

theorem entryId?_eq : f'.entryId? = f.entryId? := by
  rw [entryId?, entryId?, h.entry]

theorem blockIds_perm : f'.blockIds.Perm f.blockIds := h.perm.map _

theorem instrs_perm : f'.instrs.Perm f.instrs := h.perm.flatMap_right _

/-- A block branches to `b` in both functions or in none. -/
theorem predecessors_perm : (f'.predecessors b).Perm (f.predecessors b) := (h.perm.filter _).map _

/-- A value has the same definition, if it has one only. -/
theorem definition?_eq (hresults : f.results.Nodup) : f'.definition? v = f.definition? v := by
  refine (find?_eq_of_perm h.instrs_perm.symm fun i hi j hj hiv hjv => ?_).symm
  exact eq_of_result hresults hi hj (of_decide_eq_true hiv) (of_decide_eq_true hjv)

variable (hids : f.blockIds.Nodup)

include hids

/-- With distinct identifiers, looking a block up finds the same block. -/
theorem block?_eq : f'.block? b = f.block? b := by
  refine (find?_eq_of_perm h.perm.symm fun blk hblk blk' hblk' hid hid' => ?_).symm
  exact List.inj_on_of_nodup_map hids hblk hblk'
    ((of_decide_eq_true hid).trans (of_decide_eq_true hid').symm)

/-- An instruction is located in the same block, if no other one has its identifier. -/
theorem locate?_eq (hinstrs : (f.instrs.map (·.id)).Nodup) : f'.locate? i = f.locate? i := by
  refine (findSome?_eq_of_perm h.perm.symm fun blk hblk blk' hblk' x y hx hy => ?_).symm
  obtain ⟨j, hj, hid⟩ := exists_of_position hx
  obtain ⟨j', hj', hid'⟩ := exists_of_position hy
  rw [← instrsOf_of_block? (block?_id hids hblk)] at hj
  rw [← instrsOf_of_block? (block?_id hids hblk')] at hj'
  have hsame := (eq_of_mem_instrsOf hinstrs hj hj' (hid.trans hid'.symm)).1
  rw [List.inj_on_of_nodup_map hids hblk hblk' hsame] at hx
  exact Option.some.inj (hx.symm.trans hy)

theorem successors_eq : f'.successors b = f.successors b := by
  rw [successors, successors, h.block?_eq hids]

theorem graph_same : f.graph.Same f'.graph where
  entry := h.entryId?_eq
  nodes := fun _ => h.blockIds_perm.mem_iff
  succs := fun b => by rw [succs_graph, succs_graph, h.successors_eq hids]

/-! ### The analysis -/

theorem barriersOf_eq : f'.barriersOf rule = f.barriersOf rule := by
  funext b
  rw [barriersOf, barriersOf, instrsOf, instrsOf, h.block?_eq hids]

theorem barrierMap_perm : (f'.barrierMap rule).Perm (f.barrierMap rule) := by
  rw [barrierMap_eq hids, barrierMap_eq (h.blockIds_perm.nodup_iff.2 hids), h.barriersOf_eq hids]
  exact ((h.perm.filter _).map _).map _

/-- One more path is looked at in the same way. -/
theorem visit_eq : Survey.visit (f'.barrierMap rule) = Survey.visit (f.barrierMap rule) := by
  have hids' := h.blockIds_perm.nodup_iff.2 hids
  have hholds : (f'.barrierMap rule).holds = (f.barrierMap rule).holds := by
    funext b
    rw [holds_barrierMap hids, holds_barrierMap hids', h.barriersOf_eq hids]
  have hof : (f'.barrierMap rule).barriersOf = (f.barrierMap rule).barriersOf := by
    funext b
    rw [barriersOf_barrierMap hids, barriersOf_barrierMap hids', h.barriersOf_eq hids]
  funext s path
  simp only [Survey.visit, hholds, hof, (h.barrierMap_perm hids).length_eq]

theorem survey_eq {maxPaths : Nat} : f'.survey maxPaths (f'.barrierMap rule) =
    f.survey maxPaths (f.barrierMap rule) := by
  rw [survey, survey, (h.graph_same hids).visitPaths_eq, h.visit_eq hids]

theorem barrierRecords_perm (rule : NameRule) (order : List InstrId) (s : Survey) :
    (f'.barrierRecords (f'.barrierMap rule) order s).Perm
      (f.barrierRecords (f.barrierMap rule) order s) := by
  have hids' := h.blockIds_perm.nodup_iff.2 hids
  refine (h.blockIds_perm.flatMap_right _).trans
    (List.Perm.of_eq (List.flatMap_congr fun b _ => ?_))
  rw [barriersOf_barrierMap hids, barriersOf_barrierMap hids', h.barriersOf_eq hids]
  simp only [pattern, (h.graph_same hids).onCycle_eq]

theorem crossing?_eq (o : BarrierOrder) : f'.crossing? o = f.crossing? o := by
  have hstage : f'.endStage o = f.endStage o := by
    funext b s
    rw [endStage, endStage, h.block?_eq hids]
  have hstarts : f'.startStages o = f.startStages o := by
    rw [startStages, startStages, hstage, h.entryId?_eq, (h.graph_same hids).spread_eq]
  simp only [crossing?, stagedDefinitions, stagedUses, hstage, hstarts, h.block?_eq hids]

end Rearranged

end Func

/-! ### The verdict -/

/-- The records of the barriers with a wrong pattern, once all paths were looked at. -/
def Func.badRecords (f : Func) (config : Config) : List BarrierRecord :=
  match f.survey config.maxPaths (f.barrierMap config.nameRule) with
  | .error _ => []
  | .ok (order, s) =>
    (f.barrierRecords (f.barrierMap config.nameRule) order s).filter fun r => r.pattern ≠ .simple

/-- Two analyses come to the same verdict: plans with the same records in some order, or the same
reason against the kernel. Only of the records in `bad` each may name another. -/
inductive Plan.SameVerdict (bad : List BarrierRecord) :
    Except Rejection Plan → Except Rejection Plan → Prop
  | planned {plan : Plan} {records : List BarrierRecord} :
      plan.records.Perm records → SameVerdict bad (.ok plan) (.ok { plan with records })
  | rejected (reason : Rejection) : SameVerdict bad (.error reason) (.error reason)
  | unsupported {r r' : BarrierRecord} : r ∈ bad → r' ∈ bad →
      SameVerdict bad (.error (.unsupportedPattern r.instr r.block r.pattern))
        (.error (.unsupportedPattern r'.instr r'.block r'.pattern))

namespace Func.Rearranged

open Plan (SameVerdict)

variable {f f' : Func} (h : f.Rearranged f') (hids : f.blockIds.Nodup) (config : Config)

include h hids

theorem draft_sameVerdict :
    SameVerdict (f.badRecords config) (f.draft config) (f'.draft config) := by
  unfold draft
  rw [h.entry]
  cases f.entry? with
  | none => exact .rejected _
  | some entry =>
    dsimp only
    rw [(h.barrierMap_perm hids).isEmpty_eq]
    split
    · exact .rejected _
    · cases entry.findQueries config.nameRule with
      | error reason => exact .rejected _
      | ok queries =>
        rw [h.survey_eq hids]
        cases hsurvey : f.survey config.maxPaths (f.barrierMap config.nameRule) with
        | error reason => exact .rejected _
        | ok found =>
          obtain ⟨order, s⟩ := found
          have hrecords := h.barrierRecords_perm hids config.nameRule order s
          have hbadRecords : f.badRecords config = (f.barrierRecords
              (f.barrierMap config.nameRule) order s).filter fun r => r.pattern ≠ .simple := by
            rw [badRecords, hsurvey]
          rw [hbadRecords]
          simp only [bind, Except.bind]
          -- there is a bad record in the one list if there is one in the other
          cases hbad : List.find? _ (f.barrierRecords (f.barrierMap config.nameRule) order s) with
          | none =>
            rw [List.find?_eq_none] at hbad
            rw [List.find?_eq_none.2 fun r hr => hbad r (hrecords.mem_iff.1 hr)]
            exact .planned hrecords.symm
          | some r =>
            have hr := List.mem_of_find?_eq_some hbad
            have hwrong := List.find?_some hbad
            cases hbad' : List.find? _ (f'.barrierRecords _ order s) with
            | none => exact absurd hwrong (List.find?_eq_none.1 hbad' r (hrecords.mem_iff.2 hr))
            | some r' =>
              have hr' := hrecords.mem_iff.1 (List.mem_of_find?_eq_some hbad')
              have hwrong' := List.find?_some hbad'
              exact .unsupported (List.mem_filter.2 ⟨hr, hwrong⟩) (List.mem_filter.2 ⟨hr', hwrong'⟩)

/-- **The analysis does not depend on the order of the blocks.**  It comes to the same verdict if
the blocks behind the entry are listed in another order. -/
theorem plan_sameVerdict : SameVerdict (f.badRecords config) (f.plan config) (f'.plan config) := by
  have hdraft := h.draft_sameVerdict hids config
  unfold plan
  generalize f.draft config = d, f'.draft config = d' at hdraft
  cases hdraft with
  | rejected reason => exact .rejected reason
  | unsupported hr hr' => exact .unsupported hr hr'
  | planned hrecords =>
    simp only [bind, Except.bind, h.crossing?_eq hids]
    split
    · exact .rejected _
    · exact .planned hrecords

end Func.Rearranged

end BarrierLowering
