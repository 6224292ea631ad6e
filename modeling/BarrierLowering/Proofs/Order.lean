import BarrierLowering.Proofs.Leak

/-!
# Regions in order

Control comes to the blocks of the barriers one after another, in the order of the regions. What
is between two of them is in one region only: control cannot come back to it, and cannot be
behind it without having passed the block in front of it.

## Main definitions

* `Func.Sequenced` — a divided kernel, with the order in which control comes to the barriers.
* `Func.Inside`, `Func.After` — the blocks inside a region, and the blocks behind it.

## Main results

* `Func.Sequenced.spaced` — the regions do not touch each other.
* `Func.Sequenced.evades_iff` — a way around a block that may pass regions by is a walk around
  it, unless the block is inside a region and the way leads behind it.
* `Func.Sequenced.passable` — control can pass the regions by.
* `Plan.exists_sequenced` — a planned kernel can be divided, and its barriers run in order.
-/

namespace BarrierLowering

/-! ### Lists -/

/-- If some members of a list have a property, one of them is the last. -/
theorem exists_last {α : Type} {p : α → Prop} {l : List α} (h : ∃ a ∈ l, p a) :
    ∃ l₁ a l₂, l = l₁ ++ a :: l₂ ∧ p a ∧ ∀ b ∈ l₂, ¬ p b := by
  induction l with
  | nil => obtain ⟨a, ha, -⟩ := h; cases ha
  | cons a l ih =>
    by_cases hl : ∃ b ∈ l, p b
    · obtain ⟨l₁, b, l₂, rfl, hb, hrest⟩ := ih hl
      exact ⟨a :: l₁, b, l₂, rfl, hb, hrest⟩
    · obtain ⟨b, hb, hpb⟩ := h
      rcases List.mem_cons.1 hb with rfl | hb
      · exact ⟨[], b, l, rfl, hpb, fun c hc hpc => hl ⟨c, hc, hpc⟩⟩
      · exact absurd ⟨b, hb, hpb⟩ hl

/-- What comes before a member of a list without repeats is the same wherever it is cut. -/
theorem append_eq_of_prefix {α : Type} {l l₁ l₂ : List α} {a : α} (hnd : (l₁ ++ a :: l₂).Nodup)
    (h : l ++ [a] <+: l₁ ++ a :: l₂) : l = l₁ := by
  obtain ⟨rest, hrest⟩ := h
  rw [List.append_assoc, List.singleton_append] at hrest
  have hself : ((l₁ ++ a :: l₂).filterMap some).Nodup := by rwa [List.filterMap_some]
  exact (split_unique hself hrest.symm rfl rfl rfl).1

/-- Between neighbours among the members that pass a test, no member passes it. -/
theorem exists_between_of_filter {α : Type} {p : α → Bool} {l l₁ l₂ : List α} {a b : α}
    (h : l.filter p = l₁ ++ a :: b :: l₂) :
    ∃ c₁ mid c₂, l = c₁ ++ a :: (mid ++ b :: c₂) ∧ ∀ x ∈ mid, p x = false := by
  obtain ⟨c₁, c, rfl, -, hc⟩ := List.filter_eq_append_iff.1 h
  obtain ⟨d₁, d, rfl, -, -, hd⟩ := List.filter_eq_cons_iff.1 hc
  obtain ⟨mid, c₂, rfl, hmid, -, -⟩ := List.filter_eq_cons_iff.1 hd
  refine ⟨c₁ ++ d₁, mid, c₂, ?_, fun x hx => Bool.eq_false_iff.2 (hmid x hx)⟩
  rw [List.append_assoc]

/-- One list comes before another one if what stands for it does, and different members stand for
different things. -/
theorem prefix_of_flatMap_prefix {α β : Type} {φ : α → List β} {l l' : List α}
    (hl : ∀ a ∈ l, ∃ k, φ a = [k]) (hl' : ∀ a ∈ l', ∃ k, φ a = [k])
    (hinj : ∀ a ∈ l, ∀ b ∈ l', φ a = φ b → a = b) (h : l.flatMap φ <+: l'.flatMap φ) :
    l <+: l' := by
  induction l generalizing l' with
  | nil => exact List.nil_prefix
  | cons a l ih =>
    obtain ⟨k, hk⟩ := hl a List.mem_cons_self
    rw [List.flatMap_cons, hk, List.singleton_append] at h
    cases l' with
    | nil => exact absurd (List.prefix_nil.1 h) (List.cons_ne_nil _ _)
    | cons b l' =>
      obtain ⟨k', hk'⟩ := hl' b List.mem_cons_self
      rw [List.flatMap_cons, hk', List.singleton_append, List.cons_prefix_cons] at h
      obtain ⟨rfl, hrest⟩ := h
      refine List.cons_prefix_cons.2 ⟨?_, ?_⟩
      · exact hinj a List.mem_cons_self b List.mem_cons_self (hk.trans hk'.symm)
      · exact ih (fun c hc => hl c (List.mem_cons_of_mem _ hc))
          (fun c hc => hl' c (List.mem_cons_of_mem _ hc))
          (fun c hc d hd => hinj c (List.mem_cons_of_mem _ hc) d (List.mem_cons_of_mem _ hd)) hrest

/-- The blocks of barriers on a walk. -/
def stops (regions : List Region) (w : List BlockId) : List BlockId :=
  w.filter (· ∈ regions.map (·.succ))

section Stops

variable {regions : List Region} {r : Region} {x : BlockId} {w w' : List BlockId}

@[simp] theorem stops_append : stops regions (w ++ w') = stops regions w ++ stops regions w' :=
  List.filter_append ..

theorem stops_cons_of_mem (h : x ∈ regions.map (·.succ)) :
    stops regions (x :: w) = x :: stops regions w :=
  List.filter_cons_of_pos (decide_eq_true h)

theorem stops_cons_of_not_mem (h : x ∉ regions.map (·.succ)) :
    stops regions (x :: w) = stops regions w :=
  List.filter_cons_of_neg (by simpa using h)

theorem mem_stops : x ∈ stops regions w ↔ x ∈ w ∧ x ∈ regions.map (·.succ) := by
  rw [stops, List.mem_filter, decide_eq_true_iff]

theorem stops_eq_nil (h : ∀ b ∈ w, b ∉ regions.map (·.succ)) : stops regions w = [] := by
  rw [stops, List.filter_eq_nil_iff]
  exact fun b hb hin => h b hb (of_decide_eq_true hin)

end Stops

namespace Func

/-- A divided kernel in which control comes to the blocks of the barriers in order. -/
structure Sequenced (f : Func) (rule : NameRule) (plan : Plan) (front first : BlockId)
    (regions : List Region) : Prop extends Divided f rule plan front first regions where
  onWalk : ∀ w, f.graph.IsWalk w → stops regions w <+: regions.map (·.succ)
  complete : ∃ w, f.graph.IsWalk w ∧ stops regions w = regions.map (·.succ)

/-- A block is inside a region: a path through the region visits it, and none of the marks. -/
def Inside (f : Func) (marks : List BlockId) (r : Region) (c : BlockId) : Prop :=
  ∃ is, (r.pred :: (is ++ [r.succ])).IsChain f.graph.Edge ∧ c ∈ is ∧ ∀ b ∈ is, b ∉ marks

/-- Control can come to a block once it has come to the barrier of a region. -/
def After (f : Func) (r : Region) (x : BlockId) : Prop :=
  Relation.ReflTransGen f.graph.Edge r.succ x

variable {f : Func} {rule : NameRule} {plan : Plan} {front first b c p x : BlockId}
  {regions : List Region} {r : Region} {w is : List BlockId}

/-! ### Regions in a row -/

theorem Linked.isRegion (h : f.Linked b regions) (hr : r ∈ regions) : f.IsRegion r := by
  induction h with
  | nil => cases hr
  | cons hfirst _ ih =>
    rcases List.mem_cons.1 hr with rfl | hr
    · exact hfirst
    · exact ih hr

/-- The block in front of a region and the block of its barrier are neighbours in the row. -/
theorem Linked.exists_split (h : f.Linked b regions) (hr : r ∈ regions) :
    ∃ l₁ l₂, b :: regions.map (·.succ) = l₁ ++ r.pred :: r.succ :: l₂ := by
  induction h with
  | nil => cases hr
  | @cons first rest _ _ ih =>
    rcases List.mem_cons.1 hr with rfl | hr
    · exact ⟨[], rest.map (·.succ), rfl⟩
    · obtain ⟨l₁, l₂, heq⟩ := ih hr
      exact ⟨first.pred :: l₁, l₂, by rw [List.map_cons, heq, List.cons_append]⟩

/-- The blocks in front of the regions are the row without its last block. -/
theorem Linked.preds_prefix (h : f.Linked b regions) :
    regions.map (·.pred) <+: b :: regions.map (·.succ) := by
  induction h with
  | nil => exact List.nil_prefix
  | @cons first rest _ _ ih =>
    rw [List.map_cons, List.map_cons]
    exact List.cons_prefix_cons.2 ⟨rfl, ih⟩

/-! ### Barriers and splits -/

/-- Splits do not change the barriers. -/
theorem Cuts.barriers_eq {g : Func} (h : f.Cuts g) : g.barriers rule = f.barriers rule := by
  rw [Func.barriers, h.same.1, Func.barriers]

/-- Splits do not change the order in which barriers run. -/
theorem Cuts.barriersOn {g : Func} {order : List InstrId} (h : f.Cuts g)
    (hord : f.InOrder rule order) :
    (∀ w, g.graph.IsWalk w → g.barriersOn rule w <+: order) ∧
      ∃ w, g.graph.IsWalk w ∧ g.barriersOn rule w = order := by
  constructor
  · intro w hw
    obtain ⟨w₀, hw₀, hinitial⟩ := h.events_down hw
    refine List.IsPrefix.trans ?_ (hord.onWalk w₀ hw₀)
    rw [Func.barriersOn, Func.barriersOn, instrsOn_eq_filterMap, instrsOn_eq_filterMap]
    exact ((hinitial.filterMap _).filter _).map _
  · obtain ⟨w, hw, hbarriers⟩ := hord.complete
    obtain ⟨w', hw', hevents⟩ := h.events_up hw
    refine ⟨w', hw', ?_⟩
    rw [← hbarriers, Func.barriersOn, Func.barriersOn, instrsOn_eq_filterMap,
      instrsOn_eq_filterMap, hevents]

namespace Divided

variable (h : f.Divided rule plan front first regions) (hn : f.Numbered)
  (hperm : plan.barriers.Perm (f.barriers rule))

include h

/-- The instruction in the block of a barrier. -/
theorem instrsOf_succ (hr : r ∈ regions) : ∃ x, f.instrsOf r.succ = [x] ∧ x.id = r.key := by
  obtain ⟨label, x, back, hblk, hid⟩ := h.holds r hr
  exact ⟨x, instrsOf_of_block? hblk, hid⟩

include hn

/-- A barrier is in the block of its region. -/
theorem mem_succs_of_barrier {i : Instr} (hi : i ∈ f.instrsOf b) (hkey : i.id ∈ plan.barriers) :
    b ∈ regions.map (·.succ) := by
  rw [← h.keys] at hkey
  obtain ⟨r, hr, hrkey⟩ := List.mem_map.1 hkey
  obtain ⟨x, hx, hid⟩ := h.instrsOf_succ hr
  have hhome := (eq_of_mem_instrsOf hn.instrs_nodup hi (hx ▸ List.mem_singleton.2 rfl)
    (hrkey.symm.trans hid.symm)).1
  exact hhome ▸ List.mem_map_of_mem hr

include hperm

/-- The instruction in the block of a barrier is this barrier. -/
theorem exists_barrier_succ (hr : r ∈ regions) :
    ∃ i, f.instrsOf r.succ = [i] ∧ i.id = r.key ∧ i.kind rule = .barrier := by
  obtain ⟨x, hx, hid⟩ := h.instrsOf_succ hr
  have hkey : x.id ∈ f.barriers rule := by
    rw [← hperm.mem_iff, ← h.keys, hid]
    exact List.mem_map_of_mem hr
  obtain ⟨z, hz, hzid⟩ := List.mem_map.1 hkey
  obtain ⟨hz, hkind⟩ := List.mem_filter.1 hz
  have hmem : x ∈ f.instrs := mem_instrs_of_mem_instrsOf (hx ▸ List.mem_singleton.2 rfl)
  rw [List.inj_on_of_nodup_map hn.instrs_nodup hz hmem hzid] at hkind
  exact ⟨x, hx, hid, of_decide_eq_true hkind⟩

theorem barriersOf_succ (hr : r ∈ regions) : f.barriersOf rule r.succ = [r.key] := by
  obtain ⟨i, hi, hid, hkind⟩ := h.exists_barrier_succ hn hperm hr
  rw [barriersOf, hi, List.filter_cons, if_pos (decide_eq_true hkind), List.filter_nil,
    List.map_singleton, hid]

/-- The other blocks hold no barriers. -/
theorem barriersOf_of_not_mem (hb : b ∉ regions.map (·.succ)) : f.barriersOf rule b = [] := by
  rw [barriersOf, List.map_eq_nil_iff, List.filter_eq_nil_iff]
  intro i hi hkind
  have hkey : i.id ∈ plan.barriers :=
    hperm.mem_iff.2 (List.mem_map_of_mem (List.mem_filter.2 ⟨mem_instrs_of_mem_instrsOf hi, hkind⟩))
  exact hb (h.mem_succs_of_barrier hn hi hkey)

theorem barriersOn_eq_stops :
    f.barriersOn rule w = (stops regions w).flatMap (f.barriersOf rule) := by
  rw [barriersOn_eq_flatMap]
  induction w with
  | nil => rfl
  | cons b w ih =>
    rw [List.flatMap_cons, ih]
    by_cases hb : b ∈ regions.map (·.succ)
    · rw [stops_cons_of_mem hb, List.flatMap_cons]
    · rw [stops_cons_of_not_mem hb, h.barriersOf_of_not_mem hn hperm hb, List.nil_append]

/-- Control comes to the blocks of the barriers in the order in which the barriers run. -/
theorem sequenced (hwalks : ∀ w, f.graph.IsWalk w → f.barriersOn rule w <+: plan.barriers)
    (hcomplete : ∃ w, f.graph.IsWalk w ∧ f.barriersOn rule w = plan.barriers) :
    f.Sequenced rule plan front first regions := by
  have hnd : plan.barriers.Nodup :=
    hperm.nodup_iff.2 (hn.instrs_nodup.sublist (List.Sublist.map _ List.filter_sublist))
  have hall : plan.barriers = (regions.map (·.succ)).flatMap (f.barriersOf rule) := by
    rw [← h.keys, List.flatMap_map, List.map_eq_flatMap]
    exact List.flatMap_congr fun r hr => (h.barriersOf_succ hn hperm hr).symm
  have hone : ∀ b ∈ regions.map (·.succ), ∃ i, f.barriersOf rule b = [i] := by
    intro b hb
    obtain ⟨r, hr, rfl⟩ := List.mem_map.1 hb
    exact ⟨_, h.barriersOf_succ hn hperm hr⟩
  -- two blocks do not hold the same barrier
  have hinj : ∀ b ∈ regions.map (·.succ), ∀ c ∈ regions.map (·.succ),
      f.barriersOf rule b = f.barriersOf rule c → b = c := by
    intro b hb c hc heq
    obtain ⟨r, hr, rfl⟩ := List.mem_map.1 hb
    obtain ⟨r', hr', rfl⟩ := List.mem_map.1 hc
    rw [h.barriersOf_succ hn hperm hr, h.barriersOf_succ hn hperm hr'] at heq
    rw [List.inj_on_of_nodup_map (h.keys ▸ hnd) hr hr' (List.singleton_inj.1 heq)]
  have hmem : ∀ w, ∀ b ∈ stops regions w, b ∈ regions.map (·.succ) := fun w b hb =>
    (mem_stops.1 hb).2
  refine ⟨h, fun w hw => ?_, ?_⟩
  · have hprefix := hwalks w hw
    rw [h.barriersOn_eq_stops hn hperm, hall] at hprefix
    exact prefix_of_flatMap_prefix (fun b hb => hone b (hmem w b hb)) hone
      (fun b hb c hc => hinj b (hmem w b hb) c hc) hprefix
  · obtain ⟨w, hw, heq⟩ := hcomplete
    refine ⟨w, hw, ?_⟩
    rw [h.barriersOn_eq_stops hn hperm, hall] at heq
    have h₁ := prefix_of_flatMap_prefix (fun b hb => hone b (hmem w b hb)) hone
      (fun b hb c hc => hinj b (hmem w b hb) c hc) (heq ▸ List.prefix_rfl)
    have h₂ := prefix_of_flatMap_prefix hone (fun b hb => hone b (hmem w b hb))
      (fun b hb c hc => hinj b hb c (hmem w c hc)) (heq ▸ List.prefix_rfl)
    exact h₁.eq_of_length (Nat.le_antisymm h₁.length_le h₂.length_le)

end Divided

namespace Sequenced

/-! ### The blocks of the barriers -/

theorem isRegion (h : f.Sequenced rule plan front first regions) (hr : r ∈ regions) :
    f.IsRegion r :=
  h.linked.isRegion hr

theorem succ_mem (hr : r ∈ regions) : r.succ ∈ regions.map (·.succ) := List.mem_map_of_mem hr

theorem first_not_mem (h : f.Sequenced rule plan front first regions) :
    first ∉ regions.map (·.succ) :=
  (List.nodup_cons.1 h.succs_nodup).1

theorem succs_nodup' (h : f.Sequenced rule plan front first regions) :
    (regions.map (·.succ)).Nodup :=
  (List.nodup_cons.1 h.succs_nodup).2

theorem pred_mem (h : f.Sequenced rule plan front first regions) (hr : r ∈ regions) :
    r.pred ∈ first :: regions.map (·.succ) := by
  obtain ⟨l₁, l₂, heq⟩ := h.linked.exists_split hr
  rw [heq]
  exact List.mem_append_right _ List.mem_cons_self

/-- A walk that goes anywhere goes through the group queries. -/
theorem first_mem_of_isWalk (h : f.Sequenced rule plan front first regions)
    (hw : f.graph.IsWalk (w ++ [x])) : w ++ [x] = [front] ∨ first ∈ w ++ [x] := by
  cases w with
  | nil =>
    have hx : f.entryId? = some x := Graph.isWalk_singleton.1 hw
    rw [h.entry] at hx
    cases hx
    exact Or.inl rfl
  | cons a w =>
    obtain ⟨e, he, ha⟩ := hw.start
    obtain rfl : a = front := by
      have hfront : f.graph.entry = some front := h.entry
      rw [hfront] at he
      cases he
      exact Option.some.inj ha
    cases w with
    | nil =>
      have hedge := (h.ahead x).1 (List.isChain_pair.1 hw.edges)
      rw [hedge]
      exact Or.inr (by simp)
    | cons c w =>
      have hedge := (h.ahead c).1 (List.isChain_cons_cons.1 hw.edges).1
      rw [hedge]
      exact Or.inr (by simp)

/-- The walk to the group queries. -/
theorem isWalk_first (h : f.Sequenced rule plan front first regions) :
    f.graph.IsWalk [front, first] :=
  Graph.IsWalk.snoc (w := []) (Graph.isWalk_singleton.2 h.entry) ((h.ahead first).2 rfl)

/-- When control comes to a barrier, it has come from the block in front of its region, as far as
barriers are concerned. -/
theorem before_succ (h : f.Sequenced rule plan front first regions) (hr : r ∈ regions)
    (hw : f.graph.IsWalk (w ++ [r.succ])) :
    ∃ l, first :: stops regions w = l ++ [r.pred] := by
  obtain ⟨l₁, l₂, heq⟩ := h.linked.exists_split hr
  have hprefix := h.onWalk _ hw
  rw [stops_append, stops_cons_of_mem (succ_mem hr)] at hprefix
  have hlong : (first :: stops regions w) ++ [r.succ] <+:
      (l₁ ++ [r.pred]) ++ r.succ :: l₂ := by
    rw [List.append_assoc, List.singleton_append, ← heq]
    exact List.cons_prefix_cons.2 ⟨rfl, hprefix⟩
  refine ⟨l₁, append_eq_of_prefix ?_ hlong⟩
  rw [List.append_assoc, List.singleton_append, ← heq]
  exact h.succs_nodup

/-- Some walk comes to each barrier. -/
theorem exists_walk_succ (h : f.Sequenced rule plan front first regions) (hr : r ∈ regions) :
    ∃ w, f.graph.IsWalk (w ++ [r.succ]) := by
  obtain ⟨w, hw, hfilter⟩ := h.complete
  have hmem : r.succ ∈ w := by
    have hin := succ_mem hr
    rw [← hfilter] at hin
    exact (mem_stops.1 hin).1
  obtain ⟨w₁, w₂, rfl⟩ := List.append_of_mem hmem
  exact ⟨w₁, hw.stop⟩

/-- Some walk comes to the block in front of each region. -/
theorem exists_walk_pred (h : f.Sequenced rule plan front first regions) (hr : r ∈ regions) :
    ∃ w, f.graph.IsWalk (w ++ [r.pred]) := by
  rcases List.mem_cons.1 (h.pred_mem hr) with heq | hin
  · exact ⟨[front], heq ▸ h.isWalk_first⟩
  · obtain ⟨r', hr', heq⟩ := List.mem_map.1 hin
    obtain ⟨w, hw⟩ := h.exists_walk_succ hr'
    exact ⟨w, heq ▸ hw⟩

/-- Control comes to a barrier once. -/
theorem not_onCycle_succ (h : f.Sequenced rule plan front first regions) (hr : r ∈ regions) :
    ¬ f.graph.OnCycle r.succ := by
  intro hcycle
  obtain ⟨w, hw⟩ := h.exists_walk_succ hr
  obtain ⟨is, hchain⟩ := Graph.exists_isChain_of_transGen hcycle
  have hlong : f.graph.IsWalk (w ++ r.succ :: (is ++ [r.succ])) := hw.extend hchain
  have hnd := (h.onWalk _ hlong).sublist.nodup h.succs_nodup'
  rw [stops_append, stops_cons_of_mem (succ_mem hr), stops_append,
    stops_cons_of_mem (succ_mem hr)] at hnd
  have hcons := (List.nodup_append.1 hnd).2.1
  exact (List.nodup_cons.1 hcons).1 (by simp)

theorem succ_not_mem (h : f.Sequenced rule plan front first regions) (hr : r ∈ regions)
    (hw : f.graph.IsWalk (w ++ [r.succ])) : r.succ ∉ w := by
  intro hmem
  obtain ⟨w₁, w₂, rfl⟩ := List.append_of_mem hmem
  rw [List.append_assoc] at hw
  exact h.not_onCycle_succ hr (Graph.transGen_of_isChain hw.rest
    (List.mem_append_right w₂ (List.mem_singleton.2 rfl)))

/-- Control does not come back to the group queries from a barrier. -/
theorem not_first_after (h : f.Sequenced rule plan front first regions) (hr : r ∈ regions) :
    ¬ Relation.ReflTransGen f.graph.Edge r.succ first := by
  intro hback
  obtain ⟨w, hw⟩ := h.exists_walk_succ hr
  have hne : w ++ [r.succ] ≠ [front] := by
    intro heq
    have hmem : r.succ ∈ [front] := heq ▸ List.mem_append_right w (List.mem_singleton.2 rfl)
    rw [List.mem_singleton] at hmem
    exact h.front_not_mem (hmem ▸ List.mem_cons_of_mem _ (succ_mem hr))
  rcases List.mem_append.1 ((h.first_mem_of_isWalk hw).resolve_left hne) with hfirst | hfirst
  · obtain ⟨w₁, w₂, rfl⟩ := List.append_of_mem hfirst
    rw [List.append_assoc] at hw
    have hahead := Graph.transGen_of_isChain hw.rest
      (List.mem_append_right w₂ (List.mem_singleton.2 rfl))
    exact h.not_onCycle_succ hr (hahead.trans_right hback)
  · exact h.first_not_mem (List.mem_singleton.1 hfirst ▸ succ_mem hr)

/-- A path leads through each region, past no other barrier and not through the group queries. -/
theorem exists_path (h : f.Sequenced rule plan front first regions) (hr : r ∈ regions) :
    ∃ is, (r.pred :: (is ++ [r.succ])).IsChain f.graph.Edge ∧
      ∀ b ∈ is, b ∉ first :: regions.map (·.succ) := by
  obtain ⟨w, hw, hstops⟩ := h.complete
  have hfirst : first ∈ w := by
    obtain ⟨w', x, rfl⟩ := hw.exists_snoc
    refine (h.first_mem_of_isWalk hw).resolve_left fun heq => ?_
    have hin := succ_mem hr
    rw [← hstops, heq] at hin
    have hfront := List.mem_singleton.1 (mem_stops.1 hin).1
    exact h.front_not_mem (hfront ▸ List.mem_cons_of_mem _ (succ_mem hr))
  obtain ⟨w₁, b, w₂, rfl, hb, hlast⟩ := exists_last (p := fun b => b = first) ⟨first, hfirst, rfl⟩
  rw [hb] at hw hstops
  have hnone : stops regions w₁ = [] := by
    refine stops_eq_nil fun b hb hin => ?_
    obtain ⟨r', hr', rfl⟩ := List.mem_map.1 hin
    obtain ⟨w₃, w₄, rfl⟩ := List.append_of_mem hb
    rw [List.append_assoc] at hw
    exact h.not_first_after hr' (Graph.transGen_of_isChain hw.rest
      (List.mem_append_right w₄ List.mem_cons_self)).to_reflTransGen
  rw [stops_append, hnone, List.nil_append, stops_cons_of_not_mem h.first_not_mem] at hstops
  -- after the last visit to the group queries there are the barriers only
  have hmarks : (first :: w₂).filter (· ∈ first :: regions.map (·.succ)) =
      first :: regions.map (·.succ) := by
    have hsame : w₂.filter (· ∈ first :: regions.map (·.succ)) = stops regions w₂ := by
      refine List.filter_congr fun x hx => ?_
      have hne : x ≠ first := hlast x hx
      simp only [List.mem_cons, hne, false_or]
    rw [List.filter_cons, if_pos (decide_eq_true List.mem_cons_self), hsame, hstops]
  obtain ⟨l₁, l₂, heq⟩ := h.linked.exists_split hr
  obtain ⟨c₁, is, c₂, hsplit, his⟩ := exists_between_of_filter (hmarks.trans heq)
  refine ⟨is, ?_, fun b hb hin => ?_⟩
  · have hchain := hw.rest
    rw [hsplit] at hchain
    have hpath := hchain.right_of_append
    rw [List.append_cons is, ← List.cons_append] at hpath
    exact hpath.left_of_append
  · have hfalse := his b hb
    rw [decide_eq_true hin] at hfalse
    cases hfalse

/-! ### Regions that do not touch -/

theorem start_not_mem (h : f.Sequenced rule plan front first regions) (hr : r ∈ regions) :
    r.start ∉ first :: regions.map (·.succ) := by
  have hedge := ((h.isRegion hr).leaves r.start).2 rfl
  intro hmem
  rcases List.mem_cons.1 hmem with heq | hmem
  · rw [heq, h.entered] at hedge
    exact h.front_not_mem (hedge ▸ h.pred_mem hr)
  · obtain ⟨r', hr', heq⟩ := List.mem_map.1 hmem
    rw [← heq, (h.isRegion hr').closes] at hedge
    exact h.exits r' hr' (hedge ▸ h.pred_mem hr)

theorem start_ne_front (h : f.Sequenced rule plan front first regions) (hr : r ∈ regions) :
    r.start ≠ front := by
  intro heq
  -- from the entry control goes to the group queries, and not through the region
  obtain ⟨is, hchain, his⟩ := h.exists_path hr
  have hsucc : r.succ ∈ first :: regions.map (·.succ) := List.mem_cons_of_mem _ (succ_mem hr)
  cases is with
  | nil =>
    have hstart := ((h.isRegion hr).leaves _).1 (List.isChain_pair.1 hchain)
    exact h.front_not_mem (heq ▸ hstart ▸ hsucc)
  | cons b is =>
    obtain ⟨hpred, hrest⟩ := List.isChain_cons_cons.1 hchain
    obtain rfl : b = front := (((h.isRegion hr).leaves b).1 hpred).trans heq
    cases is with
    | nil =>
      have hfirst := (h.ahead _).1 (List.isChain_pair.1 hrest)
      exact h.first_not_mem (hfirst ▸ succ_mem hr)
    | cons c is =>
      have hfirst := (h.ahead c).1 (List.isChain_cons_cons.1 hrest).1
      exact his c (List.mem_cons_of_mem _ List.mem_cons_self) (hfirst ▸ List.mem_cons_self)

/-- The regions do not touch each other. -/
theorem spaced (h : f.Sequenced rule plan front first regions) : f.Spaced regions := by
  have hpreds : (regions.map (·.pred)).Nodup := h.linked.preds_prefix.sublist.nodup h.succs_nodup
  refine ⟨fun r hr => h.isRegion hr, fun r hr heq => ?_, fun r hr heq => ?_, ?_, h.succs_nodup',
    fun r hr r' hr' heq => ?_⟩
  · exact h.start_not_mem hr (heq ▸ h.pred_mem hr)
  · obtain ⟨l₁, l₂, hsplit⟩ := h.linked.exists_split hr
    have hnd := h.succs_nodup
    rw [hsplit, heq] at hnd
    exact (List.nodup_cons.1 (List.nodup_append.1 hnd).2.1).1 List.mem_cons_self
  · refine List.Nodup.map_on (fun r hr r' hr' heq => ?_) hpreds.of_map
    have hedge := ((h.isRegion hr).leaves r.start).2 rfl
    rw [heq, (h.isRegion hr').enters] at hedge
    exact List.inj_on_of_nodup_map hpreds hr hr' hedge
  · exact h.start_not_mem hr (heq ▸ List.mem_cons_of_mem _ (succ_mem hr'))

/-! ### Inside a region and behind it -/

/-- Control does not come back to the inside of a region. -/
theorem not_after_of_inside (h : f.Sequenced rule plan front first regions) (hr : r ∈ regions)
    (hc : f.Inside (first :: regions.map (·.succ)) r c) : ¬ f.After r c := by
  obtain ⟨is, hchain, hmem, -⟩ := hc
  intro hafter
  obtain ⟨is₁, is₂, rfl⟩ := List.append_of_mem hmem
  have hahead : Relation.TransGen f.graph.Edge c r.succ := by
    rw [List.append_assoc, ← List.cons_append] at hchain
    exact Graph.transGen_of_isChain hchain.right_of_append
      (List.mem_append_right is₂ (List.mem_singleton.2 rfl))
  exact h.not_onCycle_succ hr (hahead.trans_right hafter)

/-- The end of a region is not reached but through the block in front of it. -/
theorem pred_mem_of_exit (h : f.Sequenced rule plan front first regions) (hr : r ∈ regions)
    (hw : f.graph.IsWalk (w ++ [r.exit])) : r.pred ∈ w := by
  have hlong := hw.snoc (((h.isRegion hr).closes _).2 rfl)
  obtain ⟨l, hl⟩ := h.before_succ hr hlong
  have hmem : r.pred ∈ first :: stops regions (w ++ [r.exit]) := by
    rw [hl]
    exact List.mem_append_right _ (List.mem_singleton.2 rfl)
  have hin : r.pred ∈ w ++ [r.exit] := by
    rcases List.mem_cons.1 hmem with heq | hmem
    · rw [heq]
      refine (h.first_mem_of_isWalk hw).resolve_left fun hfront => ?_
      have hexit : r.exit ∈ [front] := hfront ▸ List.mem_append_right w (List.mem_singleton.2 rfl)
      have hedge := ((h.isRegion hr).closes r.exit).2 rfl
      rw [List.mem_singleton.1 hexit, h.ahead] at hedge
      exact h.first_not_mem (hedge ▸ succ_mem hr)
    · exact (mem_stops.1 hmem).1
  refine (List.mem_append.1 hin).resolve_right fun heq => ?_
  exact h.exits r hr (List.mem_singleton.1 heq ▸ h.pred_mem hr)

/-- Control comes to the block in front of a region from the group queries. -/
theorem first_mem_of_pred (h : f.Sequenced rule plan front first regions) (hr : r ∈ regions)
    (hw : f.graph.IsWalk w) (hpred : r.pred ∈ w) : first ∈ w := by
  obtain ⟨w₁, w₂, rfl⟩ := List.append_of_mem hpred
  rcases h.first_mem_of_isWalk hw.stop with heq | hfirst
  · have hfront : r.pred ∈ [front] := heq ▸ List.mem_append_right w₁ (List.mem_singleton.2 rfl)
    exact absurd (List.mem_singleton.1 hfront ▸ h.pred_mem hr) h.front_not_mem
  · rcases List.mem_append.1 hfirst with hfirst | hfirst
    · exact List.mem_append_left _ hfirst
    · exact List.mem_append_right _ (List.mem_singleton.1 hfirst ▸ List.mem_cons_self)

/-- There is a walk around the inside of a region to the block in front of it. -/
theorem evades_pred_of_inside (h : f.Sequenced rule plan front first regions) (hr : r ∈ regions)
    (hc : f.Inside (first :: regions.map (·.succ)) r c) :
    f.Evades [] c r.pred ∧ r.pred ≠ c := by
  obtain ⟨is, hchain, hmem, his⟩ := hc
  have hne : r.pred ≠ c := fun heq => his c hmem (heq ▸ h.pred_mem hr)
  refine ⟨?_, hne⟩
  rcases List.mem_cons.1 (h.pred_mem hr) with hpred | hpred
  · -- straight to the group queries
    rw [hpred] at hchain hne ⊢
    refine .edge (.entry h.entry) (fun heq => ?_) ((h.ahead first).2 rfl)
    obtain ⟨is₁, is₂, rfl⟩ := List.append_of_mem hmem
    rw [List.append_assoc, ← List.cons_append] at hchain
    have hrest : (c :: (is₂ ++ [r.succ])).IsChain f.graph.Edge := hchain.right_of_append
    rw [← heq] at hrest
    cases is₂ with
    | nil =>
      have hfirst := (h.ahead _).1 (List.isChain_pair.1 hrest)
      exact h.first_not_mem (hfirst ▸ succ_mem hr)
    | cons b is₂ =>
      have hfirst := (h.ahead b).1 (List.isChain_cons_cons.1 hrest).1
      exact his b (by simp) (hfirst ▸ List.mem_cons_self)
  · -- control came to the barrier before for the first time
    obtain ⟨r', hr', heq⟩ := List.mem_map.1 hpred
    obtain ⟨w, hw⟩ := h.exists_walk_succ hr'
    rw [evades_nil_iff, ← heq]
    refine ⟨w, hw, fun hin => h.not_onCycle_succ hr' ?_⟩
    obtain ⟨w₁, w₂, rfl⟩ := List.append_of_mem hin
    rw [List.append_assoc] at hw
    have hback := Graph.transGen_of_isChain hw.rest
      (List.mem_append_right w₂ (List.mem_singleton.2 rfl))
    have hahead := Graph.transGen_of_isChain hchain (List.mem_append_left _ hmem)
    rw [← heq] at hahead
    exact hahead.trans hback

/-- A way around a block that may pass regions by is a walk around it, unless the block is inside
a region and the way leads behind that region. -/
theorem evades_iff (h : f.Sequenced rule plan front first regions) :
    f.Evades regions c x ↔ f.Evades [] c x ∨
      ∃ r ∈ regions, f.Inside (first :: regions.map (·.succ)) r c ∧ f.After r x := by
  constructor
  · intro hx
    induction hx with
    | entry he => exact Or.inl (.entry he)
    | edge _ hne huv ih =>
      rcases ih with hu | ⟨r, hr, hc, hafter⟩
      · exact Or.inl (.edge hu hne huv)
      · exact Or.inr ⟨r, hr, hc, hafter.tail huv⟩
    | @skip r hr _ hne ih =>
      obtain ⟨is, hchain, his⟩ := h.exists_path hr
      rcases ih with hpred | ⟨r', hr', hc, hafter⟩
      · by_cases hc : c ∈ is
        · exact Or.inr ⟨r, hr, ⟨is, hchain, hc, his⟩, .refl⟩
        · refine Or.inl (hpred.extend hchain ?_)
          rw [List.mem_cons, not_or]
          exact ⟨Ne.symm hne, hc⟩
      · refine Or.inr ⟨r', hr', hc, hafter.trans (Relation.TransGen.to_reflTransGen ?_)⟩
        exact Graph.transGen_of_isChain hchain (List.mem_append_right is (List.mem_singleton.2 rfl))
  · rintro (hx | ⟨r, hr, hc, hafter⟩)
    · exact hx.mono
    · obtain ⟨hpred, hne⟩ := h.evades_pred_of_inside hr hc
      have hsucc : f.Evades regions c r.succ := .skip hr hpred.mono hne
      induction hafter with
      | refl => exact hsucc
      | @tail u v hu huv ih =>
        refine .edge ih (fun heq => ?_) huv
        exact h.not_after_of_inside hr hc (heq ▸ hu)

/-- Even a way that passes regions by comes to the end of a region through the block in front of
it only. -/
theorem not_evades_exit (h : f.Sequenced rule plan front first regions) (hr : r ∈ regions) :
    ¬ f.Evades regions r.pred r.exit := by
  rw [h.evades_iff]
  rintro (hx | ⟨r', -, ⟨is, -, hmem, his⟩, -⟩)
  · obtain ⟨w, hw, hnot⟩ := evades_nil_iff.1 hx
    exact hnot (h.pred_mem_of_exit hr hw)
  · exact his _ hmem (h.pred_mem hr)

/-- Control comes to the block in front of a region through the group queries. -/
theorem pred_eq_of_evades_first (h : f.Sequenced rule plan front first regions) (hr : r ∈ regions)
    (hevades : f.Evades regions first r.pred) : r.pred = first := by
  have hmem := h.pred_mem hr
  by_contra hne
  rcases h.evades_iff.1 hevades with hevades | ⟨r, -, ⟨is, -, hfirst, his⟩, -⟩
  · obtain ⟨is, hwalk, hnot⟩ := evades_nil_iff.1 hevades
    rcases h.first_mem_of_isWalk hwalk with heq | hfirst
    · have hfront : r.pred ∈ [front] := heq ▸ List.mem_append_right is (List.mem_singleton.2 rfl)
      exact h.front_not_mem (List.mem_singleton.1 hfront ▸ hmem)
    · rcases List.mem_append.1 hfirst with hfirst | hfirst
      · exact hnot hfirst
      · exact hne (List.mem_singleton.1 hfirst).symm
  · exact his _ hfirst List.mem_cons_self

/-- Control can pass the regions of a divided kernel by. -/
theorem passable (h : f.Sequenced rule plan front first regions) : f.Passable plan regions := by
  refine ⟨fun e he r hr => ?_, fun r hr => h.not_evades_exit hr, fun r hr => h.exists_walk_succ hr,
    fun v hv => Or.inr ?_⟩
  · obtain rfl : front = e := Option.some.inj (h.entry.symm.trans he)
    refine ⟨h.start_ne_front hr, fun heq => h.front_not_mem ?_⟩
    exact heq ▸ List.mem_cons_of_mem _ (succ_mem hr)
  · obtain ⟨i, hi, hrank, -⟩ := h.rank
    obtain ⟨j, hj, hsize, -⟩ := h.size
    have hfirst : ∀ r ∈ regions, f.Evades regions first r.pred → r.pred = first :=
      fun r hr => h.pred_eq_of_evades_first hr
    rcases hv with rfl | rfl
    · exact ⟨first, ⟨i, hi, hrank⟩, hfirst⟩
    · rcases List.mem_append.1 hj with hj | hj
      · exact ⟨front, ⟨j, hj, hsize⟩, fun r _ hevades => hevades.eq_of_entry h.entry⟩
      · exact ⟨first, ⟨j, hj, hsize⟩, hfirst⟩

end Sequenced

end Func

/-- A drafted kernel can be divided into its regions, and control comes to its barriers in the order
of the plan. -/
theorem Plan.exists_sequenced {f : Func} {config : Config} {plan : Plan} (hshape : f.Shaped)
    (hn : f.Numbered) (hdraft : f.draft config = .ok plan) :
    ∃ g front first regions, plan.buildRegions.apply f = (.ok regions, g) ∧ f.Cuts g ∧
      g.Sequenced config.nameRule plan front first regions ∧
      plan.barriers.Perm (g.barriers config.nameRule) ∧
      ∃ entry, f.entry? = some entry ∧ g.QueriesApart config.nameRule plan front first entry := by
  obtain ⟨g, front, first, regions, hregions, hcuts, hdivided, hentry⟩ :=
    Plan.apply_buildRegions hshape hn hdraft
  have hord := Func.inOrder_of_draft hshape.blocks_nodup hdraft
  obtain ⟨hwalks, hcomplete⟩ := hcuts.barriersOn hord
  have hperm : plan.barriers.Perm (g.barriers config.nameRule) := hcuts.barriers_eq ▸ hord.perm
  exact ⟨g, front, first, regions, hregions, hcuts,
    hdivided.sequenced (hcuts.numbered hn) hperm hwalks hcomplete, hperm, hentry⟩

end BarrierLowering
