import BarrierLowering.Proofs.Locality

/-!
# Stages count barriers

Where the barriers run in one order, the stage at which control comes to an instruction tells how
many barriers have run: behind the anchor it is one more than twice their number. So a block is
not reached again at the same stage when a barrier has run in between, and a value that crosses a
barrier crosses the one that the analysis names.

## Main definitions

* `BarrierOrder.passed` — the barriers among some instructions.

## Main results

* `BarrierOrder.endStage_of_passed` — what passing barriers does to the stage.
* `Func.Traced.endStage_eq` — the stage on a traced walk.
* `Func.Crossing.barrier_eq`, `Func.Crossing.result_ne` — which barrier a value crosses, and that it
  is not defined again behind it.
-/

namespace BarrierLowering

/-! ### Passing barriers -/

namespace BarrierOrder

variable {o : BarrierOrder} {is js : List Instr} {i : InstrId} {k : Nat}

/-- The barriers among some instructions. -/
def passed (o : BarrierOrder) (is : List Instr) : List InstrId :=
  (is.map (·.id)).filter (· ∈ o.barriers)

@[simp] theorem passed_nil : o.passed [] = [] := rfl

@[simp] theorem passed_append : o.passed (is ++ js) = o.passed is ++ o.passed js := by
  rw [passed, List.map_append, List.filter_append]
  rfl

theorem passed_cons_of_mem {x : Instr} (h : x.id ∈ o.barriers) :
    o.passed (x :: is) = x.id :: o.passed is :=
  List.filter_cons_of_pos (decide_eq_true h)

theorem passed_cons_of_not_mem {x : Instr} (h : x.id ∉ o.barriers) :
    o.passed (x :: is) = o.passed is :=
  List.filter_cons_of_neg (by rwa [decide_eq_true_iff])

theorem passed_eq_nil (h : ∀ x ∈ is, x.id ∉ o.barriers) : o.passed is = [] := by
  rw [passed, List.filter_eq_nil_iff]
  intro i hi
  obtain ⟨x, hx, rfl⟩ := List.mem_map.1 hi
  simpa using h x hx

/-- The number of a barrier is its place in the order. -/
theorem number?_of_getElem? (hnd : o.barriers.Nodup) (h : o.barriers[k]? = some i) :
    o.number? i = some (k + 1) := by
  cases hn : o.number? i with
  | none => exact absurd (List.mem_of_getElem? h) (number?_eq_none_iff.1 hn)
  | some n =>
    have hmem := List.mem_reverse.1 (mem_of_lookup hn)
    obtain ⟨hle, hget⟩ := List.mk_mem_zipIdx_iff_le_and_getElem?_sub.1 hmem
    have hlt : k < o.barriers.length := (List.getElem?_eq_some_iff.1 h).1
    have hk : k = n - 1 := (List.getElem?_inj hlt hnd).1 (h.trans hget.symm)
    rw [hk, Nat.sub_add_cancel hle]

/-- Behind the anchor, each barrier of the order raises the stage by two. -/
theorem endStage_of_passed (hnd : o.barriers.Nodup) (hanchor : ∀ x ∈ is, x.id ≠ o.anchor)
    (h : o.barriers.take k ++ o.passed is <+: o.barriers) :
    o.endStage (2 * k + 1) is = 2 * (k + (o.passed is).length) + 1 := by
  induction is generalizing k with
  | nil => rfl
  | cons x is ih =>
    have hrest : ∀ y ∈ is, y.id ≠ o.anchor := fun y hy => hanchor y (List.mem_cons_of_mem _ hy)
    rw [endStage_cons, stageAfter]
    by_cases hx : x.id ∈ o.barriers
    · -- the next barrier of the order
      rw [passed_cons_of_mem hx] at h ⊢
      have hget : o.barriers[k]? = some x.id := by
        obtain ⟨rest, hsplit⟩ := h
        rw [List.append_assoc] at hsplit
        have hdrop := List.append_cancel_left (hsplit.trans (List.take_append_drop k _).symm)
        rw [← List.head?_drop, ← hdrop]
        rfl
      have htake : o.barriers.take (k + 1) = o.barriers.take k ++ [x.id] := by
        rw [List.take_add_one, hget]
        rfl
      rw [number?_of_getElem? hnd hget]
      dsimp only
      rw [ih hrest (by rwa [htake, List.append_assoc, List.singleton_append]), List.length_cons]
      omega
    · rw [passed_cons_of_not_mem hx] at h ⊢
      rw [number?_eq_none_iff.2 hx]
      dsimp only
      rw [if_neg (hanchor x List.mem_cons_self), ih hrest h]

end BarrierOrder

/-! ### The stage on a walk -/

namespace Func

variable {f : Func} {rule : NameRule} {o : BarrierOrder} {w : List BlockId} {x : BlockId}
  {is as : List Instr} {v : ValueId}

/-- Among the instructions of a function, what the order lists are the barriers. -/
theorem InOrder.passed_eq (h : f.InOrder rule o.barriers) (hids : (f.instrs.map (·.id)).Nodup)
    (his : ∀ i ∈ is, i ∈ f.instrs) :
    o.passed is = (is.filter fun i => i.kind rule = .barrier).map (·.id) := by
  rw [BarrierOrder.passed, List.filter_map]
  refine congrArg _ (List.filter_congr fun i hi => decide_eq_decide.2 ?_)
  constructor
  · intro hmem
    by_contra hkind
    exact h.id_not_mem hids (his i hi) hkind hmem
  · intro hkind
    exact h.perm.mem_iff.2 (List.mem_map_of_mem
      (List.mem_filter.2 ⟨his i hi, decide_eq_true hkind⟩))

/-- On a walk the barriers are passed in order. -/
theorem InOrder.passed_prefix (h : f.InOrder rule o.barriers)
    (hids : (f.instrs.map (·.id)).Nodup) (hw : f.graph.IsWalk (w ++ [x]))
    (his : is <+: f.instrsOf x) : o.passed (f.instrsOn w ++ is) <+: o.barriers := by
  have hinitial : f.instrsOn w ++ is <+: f.instrsOn (w ++ [x]) := by
    rw [instrsOn_append, instrsOn_cons, instrsOn_nil, List.append_nil]
    exact (List.prefix_append_right_inj _).2 his
  have hall : o.passed (f.instrsOn (w ++ [x])) <+: o.barriers := by
    rw [h.passed_eq hids fun i => mem_instrs_of_mem_instrsOn]
    exact h.onWalk _ hw
  obtain ⟨rest, hrest⟩ := hinitial
  rw [← hrest, BarrierOrder.passed_append] at hall
  exact (List.prefix_append _ _).trans hall

/-- **Behind the anchor, the stage on a traced walk is one more than twice the number of barriers
that have run.** -/
theorem Traced.endStage_eq (h : f.Traced o (w ++ [x])) (hids : (f.instrs.map (·.id)).Nodup)
    (hopens : f.Opens o) (hord : f.InOrder rule o.barriers) (his : is <+: f.instrsOf x)
    (has : as <+: f.instrsOn w ++ is) (hanchor : ∃ y ∈ as, y.id = o.anchor) :
    o.endStage 0 as = 2 * (o.passed as).length + 1 := by
  obtain ⟨pre, y, rest, hopening, hy, hpre, hrest⟩ := h.exists_opening hids hopens
  have hquiet : o.anchor ∉ o.barriers := by
    obtain ⟨_, pre, z, _, -, -, hz, hquiet⟩ := hopens
    exact hz ▸ hquiet z (List.mem_append_right _ (List.mem_singleton.2 rfl))
  have hpassed : o.passed as <+: o.barriers := by
    obtain ⟨rest, hrest⟩ := has
    have hall := hord.passed_prefix hids h.walk his
    rw [← hrest, BarrierOrder.passed_append] at hall
    exact (List.prefix_append _ _).trans hall
  obtain ⟨tail, htail⟩ : as <+: pre ++ y :: rest := by
    rw [← hopening, instrsOn_append, instrsOn_cons, instrsOn_nil, List.append_nil]
    exact has.trans ((List.prefix_append_right_inj _).2 his)
  rcases append_eq_append_cons htail with ⟨mid, rfl, -⟩ | ⟨mid, rfl, rfl⟩
  · obtain ⟨z, hz, hid⟩ := hanchor
    exact absurd hid (hpre z (List.mem_append_left _ hz)).2
  · have hnil : o.passed pre = [] := BarrierOrder.passed_eq_nil fun i hi => (hpre i hi).1
    rw [BarrierOrder.passed_append, hnil, List.nil_append,
      BarrierOrder.passed_cons_of_not_mem (hy ▸ hquiet)] at hpassed ⊢
    have hone : o.stageAfter 0 y = 2 * 0 + 1 := by
      rw [BarrierOrder.stageAfter, BarrierOrder.number?_eq_none_iff.2 (hy ▸ hquiet)]
      exact if_pos hy
    rw [BarrierOrder.endStage_append, BarrierOrder.endStage_of_not_mark hpre,
      BarrierOrder.endStage_cons, hone, BarrierOrder.endStage_of_passed (k := 0) (hord.nodup hids)
        (fun i hi => hrest i (List.mem_append_left _ hi)) hpassed, Nat.zero_add]

namespace Crossing

theorem barrier_mem_instrs (c : f.Crossing o v) : c.barrier ∈ f.instrs := by
  have hmem : c.barrier ∈ f.instrsOn c.walk ++ c.front := by
    rw [c.reached]
    simp
  rcases List.mem_append.1 hmem with hmem | hmem
  · exact mem_instrs_of_mem_instrsOn hmem
  · exact mem_instrs_of_mem_instrsOf (c.initial.subset hmem)

/-- The stages at which the definition and what follows it are reached. -/
theorem endStage_eq (c : f.Crossing o v) (hids : (f.instrs.map (·.id)).Nodup) (hopens : f.Opens o)
    (hord : f.InOrder rule o.barriers) (has : c.before <+: as)
    (hinitial : as <+: f.instrsOn c.walk ++ c.front) :
    o.endStage 0 as = 2 * (o.passed as).length + 1 := by
  obtain ⟨y, hy, hid⟩ := c.anchor_mem
  exact c.traced.endStage_eq hids hopens hord c.initial hinitial ⟨y, has.subset hy, hid⟩

/-- The barrier that comes behind the definition is the one that closes its stage. -/
theorem barrier_eq (c : f.Crossing o v) (hids : (f.instrs.map (·.id)).Nodup) (hopens : f.Opens o)
    (hord : f.InOrder rule o.barriers) :
    o.barriers[o.endStage 0 c.before / 2]? = some c.barrier.id := by
  have hpassed := hord.passed_prefix hids c.traced.walk c.initial
  have hquiet : o.passed (c.definition :: c.between) = [] := BarrierOrder.passed_eq_nil c.quiet
  rw [c.reached, ← List.cons_append, BarrierOrder.passed_append, BarrierOrder.passed_append, hquiet,
    List.nil_append, BarrierOrder.passed_cons_of_mem c.barrier_mem] at hpassed
  obtain ⟨rest, hrest⟩ := hpassed
  rw [c.endStage_eq hids hopens hord List.prefix_rfl ⟨_, c.reached.symm⟩, ← hrest,
    List.append_assoc, show (2 * (o.passed c.before).length + 1) / 2 = (o.passed c.before).length by
      omega, List.getElem?_append_right le_rfl, Nat.sub_self]
  rfl

/-- The value is not defined again behind the barrier: its definition would be reached at another
stage there. -/
theorem result_ne (c : f.Crossing o v) (hnd : f.results.Nodup)
    (hids : (f.instrs.map (·.id)).Nodup) (hopens : f.Opens o) (hord : f.InOrder rule o.barriers) :
    ∀ i ∈ c.after, i.result ≠ some v := by
  intro i hi hv
  obtain ⟨cs, cs', hafter⟩ := List.append_of_mem hi
  have hagain : f.instrsOn c.walk ++ c.front =
      (c.before ++ c.definition :: (c.between ++ c.barrier :: cs)) ++ i :: cs' := by
    rw [c.reached, hafter]
    simp
  -- the block reaches the instruction at one stage, but the barrier has raised it
  obtain ⟨b, s, ks, hb, hks, hstage⟩ := c.traced.stage_of_split c.initial c.reached
  obtain ⟨b', s', ks', hb', hks', hstage'⟩ := c.traced.stage_of_split c.initial hagain
  obtain ⟨rfl, rfl, -⟩ := place_unique hnd hks hks' c.defines hv
  rw [startStages_unique hb' hb, ← hstage,
    c.endStage_eq hids hopens hord (List.prefix_append _ _) ⟨_, hagain.symm⟩,
    c.endStage_eq hids hopens hord List.prefix_rfl ⟨_, c.reached.symm⟩, BarrierOrder.passed_append,
    ← List.cons_append, BarrierOrder.passed_append, BarrierOrder.passed_cons_of_mem c.barrier_mem]
    at hstage'
  simp only [List.length_append, List.length_cons] at hstage'
  omega

end Crossing

end Func

end BarrierLowering
