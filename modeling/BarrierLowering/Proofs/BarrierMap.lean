import BarrierLowering.Proofs.Expand
import BarrierLowering.Survey

/-!
# The map of the barriers

The map has one entry for each block identifier with barriers, even where several blocks share
the identifier: the entry then holds the barriers of all of them. So the map holds each barrier of a
function once, and blocks of the map that are visited once each, and are not too few, run them all.

## Main definitions

* `BarrierMap.homes`, `BarrierMap.barriers` — the blocks and the barriers of a map.

## Main results

* `BarrierMap.perm_homes`, `BarrierMap.perm_barriers` — blocks that are not too few are all of them.
* `Func.barriers_barrierMap_perm_flatMap` — the map of a function holds the barriers of its blocks.
-/

namespace BarrierLowering

/-- Members that contribute nothing can be left out. -/
theorem flatMap_filter_eq {α β : Type} {p : α → Bool} {g : α → List β} {l : List α}
    (h : ∀ a ∈ l, p a = false → g a = []) : (l.filter p).flatMap g = l.flatMap g := by
  induction l with
  | nil => rfl
  | cons a l ih =>
    have hrest := ih fun x hx => h x (List.mem_cons_of_mem _ hx)
    rw [List.flatMap_cons, ← hrest]
    cases ha : p a with
    | true => rw [List.filter_cons_of_pos ha, List.flatMap_cons]
    | false =>
      rw [List.filter_cons_of_neg (by rw [ha]; exact Bool.false_ne_true),
        h a List.mem_cons_self ha, List.nil_append]

/-- Members that are sorted by some keys contribute what they do in a row, if those without a key
contribute nothing. -/
theorem flatMap_groups_perm {α β γ : Type} [DecidableEq β] {key : α → β} {g : α → List γ}
    {keys : List β} {l : List α} (hnd : keys.Nodup) (hkeys : ∀ a ∈ l, g a ≠ [] → key a ∈ keys) :
    (keys.flatMap fun k => (l.filter fun a => key a = k).flatMap g).Perm (l.flatMap g) := by
  have hkept : (keys.flatMap fun k => (l.filter fun a => key a = k).flatMap g) =
      (keys.flatMap fun k =>
        (l.filter fun a => key a ∈ keys).filter fun a => key a = k).flatMap g := by
    rw [List.flatMap_assoc]
    refine List.flatMap_congr fun k hk => congrArg (List.flatMap g) ?_
    rw [List.filter_filter]
    refine List.filter_congr fun a _ => ?_
    by_cases ha : key a = k
    · simp [ha, hk]
    · simp [ha]
  have hall : (l.filter fun a => key a ∈ keys).flatMap g = l.flatMap g :=
    flatMap_filter_eq fun a ha hout =>
      not_not.1 fun hne => of_decide_eq_false hout (hkeys a ha hne)
  rw [hkept, ← hall]
  refine (flatMap_filter_perm ((List.map_id' keys).symm ▸ hnd) fun a ha => ?_).flatMap_right g
  rw [List.map_id']
  exact of_decide_eq_true (List.mem_filter.1 ha).2

namespace BarrierMap

variable {m : BarrierMap} {b : BlockId} {is : List InstrId} {i : InstrId} {visited : List BlockId}

/-- The blocks of a map. -/
def homes (m : BarrierMap) : List BlockId := m.map (·.1)

/-- The barriers that a map holds. -/
def barriers (m : BarrierMap) : List InstrId := m.flatMap (·.2)

theorem holds_iff : m.holds b = true ↔ b ∈ m.homes := by
  rw [holds, List.lookup_isSome_iff, homes, List.mem_map]
  exact exists_congr fun x => and_congr_right fun _ => by rw [beq_iff_eq, eq_comm]

theorem holds_of_mem_barriersOf (h : i ∈ m.barriersOf b) : m.holds b = true := by
  rw [barriersOf] at h
  rw [holds]
  cases hb : m.lookup b with
  | none =>
    rw [hb] at h
    cases h
  | some is => rfl

theorem barriersOf_of_mem (hm : m.homes.Nodup) (h : (b, is) ∈ m) : m.barriersOf b = is := by
  rw [barriersOf, (lookup_eq_some_iff_mem hm).2 h, Option.getD_some]

/-- The barriers of the blocks of a map are those that the map holds. -/
theorem flatMap_homes (hm : m.homes.Nodup) : m.homes.flatMap m.barriersOf = m.barriers := by
  rw [homes, List.flatMap_map]
  exact List.flatMap_congr fun x hx => barriersOf_of_mem hm hx

/-- Blocks of a map that are visited once each, and are not too few, are all there are. -/
theorem perm_homes (hvisited : visited.Nodup) (hsub : ∀ b ∈ visited, m.holds b = true)
    (hle : m.length ≤ visited.length) : visited.Perm m.homes := by
  refine (List.subperm_of_subset hvisited fun b hb => holds_iff.1 (hsub b hb)).perm_of_length_le ?_
  rwa [homes, List.length_map]

/-- Their barriers are those that the map holds. -/
theorem perm_barriers (hm : m.homes.Nodup) (hvisited : visited.Nodup)
    (hsub : ∀ b ∈ visited, m.holds b = true) (hle : m.length ≤ visited.length) :
    (visited.flatMap m.barriersOf).Perm m.barriers := by
  rw [← flatMap_homes hm]
  exact (perm_homes hvisited hsub hle).flatMap_right _

end BarrierMap

namespace Func

variable {f : Func} {rule : NameRule}

theorem nodup_homes_barrierMap : (f.barrierMap rule).homes.Nodup := by
  rw [BarrierMap.homes, barrierMap, List.map_map, Function.comp_def, List.map_id']
  exact nodup_eraseDups _

/-- The map of a function holds the barriers of its blocks, also if some of these have the same
identifier. -/
theorem barriers_barrierMap_perm_flatMap :
    (f.barrierMap rule).barriers.Perm (f.blocks.flatMap (·.barriers rule)) := by
  rw [BarrierMap.barriers, barrierMap, List.flatMap_map]
  refine flatMap_groups_perm (nodup_eraseDups _) fun blk hblk hne => List.mem_eraseDups.2 ?_
  exact List.mem_map_of_mem (List.mem_filter.2 ⟨hblk, decide_eq_true hne⟩)

end Func

end BarrierLowering
