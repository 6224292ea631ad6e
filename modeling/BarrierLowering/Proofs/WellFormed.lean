import BarrierLowering.Proofs.Events

/-!
# Well-formed functions

In a well-formed function references resolve, each value has one definition, phi nodes lead
their block and name its predecessors, and on every walk each value is supplied before it is
read. The last condition is the one that the dominance test stands for.

## Main definitions

* `Func.Shaped`, `Func.WellFormed` — the conditions, without the last one and with it.
* `Func.SoundAt` — soundness at the end of a walk.

## Main results

* `Func.definedBefore_iff_supplied` — the dominance test of one use, said with walks.
* `Func.sound_walks_iff` — soundness of all walks, said block by block.
-/

namespace BarrierLowering

/-- What makes a function well formed, apart from the order of what happens. -/
structure Func.Shaped (f : Func) : Prop where
  nonempty : f.blocks ≠ []
  blocks_nodup : f.blockIds.Nodup
  targets_exist : ∀ blk ∈ f.blocks, ∀ t ∈ blk.term.targets, t ∈ f.blockIds
  /-- No two instructions define the same value. -/
  results_nodup : f.results.Nodup
  results_fresh : ∀ v ∈ f.results, v ∉ f.paramValues
  phis_lead : ∀ blk ∈ f.blocks, ∀ i ∈ blk.instrs.drop blk.phiCount, i.isPhi = false
  phis_match : ∀ blk ∈ f.blocks, ∀ i ∈ blk.instrs, i.isPhi = true →
    (i.incoming.map (·.1)).Perm (f.predecessors blk.id)
  operands_defined : ∀ blk ∈ f.blocks,
    (∀ i ∈ blk.instrs, ∀ v ∈ i.op.operands, v ∈ f.paramValues ++ f.results) ∧
      ∀ v ∈ blk.term.operands, v ∈ f.paramValues ++ f.results

/-- What makes a function well formed. -/
structure Func.WellFormed (f : Func) : Prop extends Func.Shaped f where
  sound : ∀ w, f.graph.IsWalk w → f.Sound (f.events w)

/-! ### Lists with distinct keys -/

/-- Two members with the same key, in a list whose keys are distinct, are the same member. -/
theorem split_unique {α β : Type} {key : α → Option β} {v : β} {l l₁ l₂ l₁' l₂' : List α}
    {x x' : α} (hnd : (l.filterMap key).Nodup) (h : l = l₁ ++ x :: l₂) (h' : l = l₁' ++ x' :: l₂')
    (hx : key x = some v) (hx' : key x' = some v) : l₁ = l₁' ∧ x = x' ∧ l₂ = l₂' := by
  -- a member of the second part cannot have the key again
  have key : ∀ {m₁ m₂ mid : List α} {y y' : α}, key y = some v → key y' = some v →
      ((m₁ ++ y :: mid ++ y' :: m₂).filterMap key).Nodup → False := by
    intro m₁ m₂ mid y y' hy hy' hnd
    rw [List.append_assoc, List.filterMap_append, List.cons_append, List.filterMap_cons_some hy]
      at hnd
    have hcons := (List.nodup_append.1 hnd).2.1
    refine (List.nodup_cons.1 hcons).1 (List.mem_filterMap.2 ⟨y', by simp, hy'⟩)
  rcases List.append_eq_append_iff.1 (h.symm.trans h') with ⟨mid, rfl, hmid⟩ | ⟨mid, rfl, hmid⟩
  · cases mid with
    | nil =>
      obtain ⟨rfl, rfl⟩ := List.cons.inj hmid
      exact ⟨(List.append_nil _).symm, rfl, rfl⟩
    | cons y mid =>
      obtain ⟨rfl, rfl⟩ := List.cons.inj hmid
      exact absurd (h' ▸ hnd) fun hnd => key hx hx' hnd
  · cases mid with
    | nil =>
      obtain ⟨rfl, rfl⟩ := List.cons.inj hmid
      exact ⟨List.append_nil _, rfl, rfl⟩
    | cons y mid =>
      obtain ⟨rfl, rfl⟩ := List.cons.inj hmid
      exact absurd (h ▸ hnd) fun hnd => key hx' hx hnd

/-- The instructions of a block before a position; no position stands for its end. -/
def Block.before (blk : Block) : Option Nat → List Instr
  | some n => blk.instrs.take n
  | none => blk.instrs

namespace Func

variable {f : Func} {b b' : BlockId} {blk blk' : Block} {v : ValueId} {i i' : Instr}

/-! ### Definitions -/

theorem mem_results_iff : v ∈ f.results ↔
    ∃ blk ∈ f.blocks, ∃ i ∈ blk.instrs, i.result = some v := by
  simp only [results, instrs, List.mem_filterMap, List.mem_flatMap]
  constructor
  · rintro ⟨i, ⟨blk, hblk, hi⟩, hv⟩
    exact ⟨blk, hblk, i, hi, hv⟩
  · rintro ⟨blk, hblk, i, hi, hv⟩
    exact ⟨i, ⟨blk, hblk, hi⟩, hv⟩

/-- The site of a definition holds one. -/
theorem defSite?_eq_some {pos : Nat} (h : f.defSite? v = some (b, pos)) :
    ∃ blk ∈ f.blocks, blk.id = b ∧ ∃ is i js, blk.instrs = is ++ i :: js ∧ is.length = pos ∧
      i.result = some v := by
  obtain ⟨l₁, blk, l₂, hblocks, hsite, -⟩ := List.findSome?_eq_some_iff.1 h
  obtain ⟨index, hindex, heq⟩ := Option.map_eq_some_iff.1 hsite
  obtain ⟨rfl, rfl⟩ := Prod.mk.inj heq
  obtain ⟨hlt, hres, -⟩ := List.findIdx?_eq_some_iff_getElem.1 hindex
  refine ⟨blk, by simp [hblocks], rfl, blk.instrs.take index, blk.instrs[index],
    blk.instrs.drop (index + 1), ?_, ?_, by simpa using hres⟩
  · rw [← List.drop_eq_getElem_cons hlt, List.take_append_drop]
  · rw [List.length_take, Nat.min_eq_left hlt.le]

/-- Only a value that no instruction defines has no site. -/
theorem defSite?_eq_none_iff : f.defSite? v = none ↔ v ∉ f.results := by
  rw [defSite?, List.findSome?_eq_none_iff, mem_results_iff]
  simp only [Option.map_eq_none_iff, List.findIdx?_eq_none_iff, decide_eq_false_iff_not, not_exists,
    not_and]

/-- A value has one definition: one block, and one position in it. -/
theorem definition_unique (hnd : f.results.Nodup) (hblk : blk ∈ f.blocks) (hblk' : blk' ∈ f.blocks)
    {is js is' js' : List Instr} (h : blk.instrs = is ++ i :: js)
    (h' : blk'.instrs = is' ++ i' :: js') (hv : i.result = some v) (hv' : i'.result = some v) :
    blk = blk' ∧ is = is' ∧ i = i' := by
  have hflat : f.results = f.blocks.flatMap fun blk => blk.instrs.filterMap (·.result) := by
    rw [results, instrs, List.filterMap_flatMap]
  rw [hflat, List.nodup_flatMap] at hnd
  have hsame : blk = blk' := by
    by_contra hne
    have hsymm : Std.Symm (Function.onFun List.Disjoint
        fun blk : Block => blk.instrs.filterMap (·.result)) := ⟨fun _ _ => List.disjoint_symm⟩
    refine hnd.2.forall hblk hblk' hne (List.mem_filterMap.2 ⟨i, by simp [h], hv⟩)
      (List.mem_filterMap.2 ⟨i', by simp [h'], hv'⟩)
  subst hsame
  obtain ⟨his, hi, -⟩ := split_unique (hnd.1 _ hblk) h h' hv hv'
  exact ⟨rfl, his, hi⟩

/-- Two instructions that define the same value are the same instruction. -/
theorem eq_of_result (hnd : f.results.Nodup) (hi : i ∈ f.instrs) (hi' : i' ∈ f.instrs)
    (hv : i.result = some v) (hv' : i'.result = some v) : i = i' := by
  obtain ⟨is, is', his⟩ := List.append_of_mem hi
  obtain ⟨js, js', hjs⟩ := List.append_of_mem hi'
  exact (split_unique hnd his hjs hv hv').2.1

/-- Where the numbers of the instructions are distinct, each is in one block only. -/
theorem eq_of_mem_instrsOf (hnd : (f.instrs.map (·.id)).Nodup) (hi : i ∈ f.instrsOf b)
    (hi' : i' ∈ f.instrsOf b') (hid : i.id = i'.id) : b = b' ∧ i = i' := by
  have hsame : i = i' := List.inj_on_of_nodup_map hnd (mem_instrs_of_mem_instrsOf hi)
    (mem_instrs_of_mem_instrsOf hi') hid
  refine ⟨?_, hsame⟩
  subst hsame
  have hflat : (f.blocks.flatMap (·.instrs)).Nodup := hnd.of_map
  obtain ⟨blk, hblk, rfl, hmem⟩ := exists_block_of_mem_instrsOf hi
  obtain ⟨blk', hblk', rfl, hmem'⟩ := exists_block_of_mem_instrsOf hi'
  by_contra hne
  have hsymm : Std.Symm (Function.onFun List.Disjoint fun blk : Block => blk.instrs) :=
    ⟨fun _ _ => List.disjoint_symm⟩
  have hdisjoint : List.Disjoint blk.instrs blk'.instrs :=
    (List.nodup_flatMap.1 hflat).2.forall hblk hblk' fun heq => hne (heq ▸ rfl)
  exact hdisjoint hmem hmem'

/-- A value written on a walk was written in the block of its definition. -/
theorem mem_of_write_mem_events (hnd : f.results.Nodup) {w : List BlockId}
    (hw : .write v ∈ f.events w) (hblk : blk ∈ f.blocks) (hi : i ∈ blk.instrs)
    (hv : i.result = some v) : blk.id ∈ w := by
  obtain ⟨i', hrun, hv'⟩ := write_mem_events.1 hw
  obtain ⟨b, hb, hi'⟩ := List.mem_flatMap.1 hrun
  rw [instrsOf] at hi'
  cases hfind : f.block? b with
  | none => simp [hfind] at hi'
  | some blk' =>
    rw [hfind] at hi'
    obtain ⟨hblk', rfl⟩ := block?_mem hfind
    obtain ⟨is, js, hsplit⟩ := List.append_of_mem hi
    obtain ⟨is', js', hsplit'⟩ := List.append_of_mem hi'
    obtain ⟨rfl, -⟩ := definition_unique hnd hblk hblk' hsplit hsplit' hv hv'
    exact hb

/-! ### Dominated uses -/

theorem write_mem_arrival {w : List BlockId} :
    .write v ∈ f.arrival w b ↔ .write v ∈ f.events w := by
  cases w using List.reverseRecOn with
  | nil => simp
  | append_singleton w a => rw [arrival_snoc, List.mem_append, or_iff_left write_not_mem_edgeEvents]

/-- In the block of the definition, every walk writes the value before a use if and only if the
definition stands before the use. -/
theorem written_iff_of_same (hnd : f.results.Nodup) (hblk : blk ∈ f.blocks)
    (hd : blk.instrs = is ++ i :: js) (hv : i.result = some v)
    (hreach : blk.id ∈ f.graph.reachable) (pos : Option Nat) :
    pos.all (fun p => decide (is.length < p)) = true ↔ ∀ w, f.graph.IsWalk (w ++ [blk.id]) →
      .write v ∈ f.events w ∨ ∃ j ∈ blk.before pos, j.result = some v := by
  constructor
  · intro hpos w _
    refine Or.inr ⟨i, ?_, hv⟩
    cases pos with
    | none => simp [Block.before, hd]
    | some n =>
      have hlt : is.length < n := by simpa using hpos
      rw [Block.before, hd, List.take_append, List.mem_append]
      obtain ⟨k, hk⟩ := Nat.exists_eq_add_of_lt hlt
      exact Or.inr (by rw [hk]; simp [Nat.add_assoc])
  · intro hall
    -- a walk that comes to the block for the first time has not run its definition
    obtain ⟨⟨w, hw⟩, -⟩ := mem_reachable_iff.1 hreach
    obtain ⟨w₁, w₂, hw₁, hnot⟩ := List.eq_append_cons_of_mem
      (List.mem_append_right w (List.mem_singleton.2 rfl) : blk.id ∈ w ++ [blk.id])
    rw [hw₁] at hw
    rcases hall w₁ hw.stop with hmem | ⟨j, hj, hjv⟩
    · exact absurd (mem_of_write_mem_events hnd hmem hblk (by simp [hd]) hv) hnot
    · cases pos with
      | none => rfl
      | some n =>
        obtain ⟨is', js', hj'⟩ := List.append_of_mem hj
        have hsplit : blk.instrs = is' ++ j :: (js' ++ blk.instrs.drop n) := by
          rw [← List.cons_append, ← List.append_assoc, ← hj', Block.before,
            List.take_append_drop]
        obtain ⟨-, rfl, -⟩ := definition_unique hnd hblk hblk hd hsplit hv hjv
        have hlen : (blk.instrs.take n).length ≤ n := List.length_take_le _ _
        rw [show blk.instrs.take n = is ++ j :: js' from hj'] at hlen
        simp only [Option.all_some, decide_eq_true_iff]
        simp only [List.length_append, List.length_cons] at hlen
        omega

/-- In another block, every walk writes the value before a use if and only if the block of the
definition dominates the block of the use. -/
theorem written_iff_of_ne (hids : f.blockIds.Nodup) (hnd : f.results.Nodup) (hblk : blk ∈ f.blocks)
    (hi : i ∈ blk.instrs) (hv : i.result = some v) (hblk' : blk' ∈ f.blocks)
    (hne : blk.id ≠ blk'.id) (pos : Option Nat) :
    f.graph.Dominates blk.id blk'.id ↔ ∀ w, f.graph.IsWalk (w ++ [blk'.id]) →
      .write v ∈ f.events w ∨ ∃ j ∈ blk'.before pos, j.result = some v := by
  constructor
  · intro hdom w hw
    have hin := (List.mem_append.1 (hdom w hw)).resolve_right fun h => hne (List.mem_singleton.1 h)
    refine Or.inl (write_mem_events.2 ⟨i, List.mem_flatMap.2 ⟨blk.id, hin, ?_⟩, hv⟩)
    rwa [instrsOf_of_block? (block?_id hids hblk)]
  · intro hall w hw
    rcases hall w hw with hmem | ⟨j, hj, hjv⟩
    · exact List.mem_append_left _ (mem_of_write_mem_events hnd hmem hblk hi hv)
    · have hj' : j ∈ blk'.instrs := by
        cases pos with
        | none => exact hj
        | some n => exact List.mem_of_mem_take hj
      obtain ⟨is, js, hsplit⟩ := List.append_of_mem hi
      obtain ⟨is', js', hsplit'⟩ := List.append_of_mem hj'
      obtain ⟨rfl, -⟩ := definition_unique hnd hblk hblk' hsplit hsplit' hv hjv
      exact absurd rfl hne

/-- Whether the definition of `v` comes before a use, said with walks: it does if every walk to
the use writes `v` first. -/
theorem definedBefore_iff (hids : f.blockIds.Nodup) (hnd : f.results.Nodup)
    (hb : f.block? b = some blk) (hreach : b ∈ f.graph.reachable) (pos : Option Nat) :
    f.definedBefore f.dominators v b pos = true ↔ v ∈ f.results → ∀ w, f.graph.IsWalk (w ++ [b]) →
      .write v ∈ f.arrival w b ++ (blk.before pos).flatMap Instr.events := by
  obtain ⟨hmem, rfl⟩ := block?_mem hb
  have hsplit : ∀ w, Event.write v ∈ f.arrival w blk.id ++ (blk.before pos).flatMap Instr.events ↔
      .write v ∈ f.events w ∨ ∃ i ∈ blk.before pos, i.result = some v := by
    intro w
    rw [List.mem_append, write_mem_arrival, write_mem_flatMap]
  simp only [hsplit]
  cases hsite : f.defSite? v with
  | none => simp [definedBefore, hsite, defSite?_eq_none_iff.1 hsite]
  | some site =>
    obtain ⟨home, index⟩ := site
    obtain ⟨dblk, hdblk, rfl, is, d, js, hd, rfl, hdv⟩ := defSite?_eq_some hsite
    have hdmem : d ∈ dblk.instrs := by simp [hd]
    have hres : v ∈ f.results := mem_results_iff.2 ⟨dblk, hdblk, d, hdmem, hdv⟩
    simp only [definedBefore, hsite, hres, true_implies]
    by_cases hhome : dblk.id = blk.id
    · obtain rfl : dblk = blk := List.inj_on_of_nodup_map hids hdblk hmem hhome
      rw [if_pos rfl]
      exact written_iff_of_same hnd hdblk hd hdv hreach pos
    · rw [if_neg hhome, dominators, Graph.dominates_dominators hreach]
      exact written_iff_of_ne hids hnd hdblk hdmem hdv hmem hhome pos

/-- A value with a definition is supplied if it is written, as far as an instruction has to. -/
theorem supplied_iff (hfresh : ∀ v ∈ f.results, v ∉ f.paramValues) {past : List Event}
    (hv : v ∈ f.paramValues ++ f.results) :
    f.Supplied past v ↔ (v ∈ f.results → .write v ∈ past) := by
  rw [Supplied]
  constructor
  · rintro (hparam | hw) hres
    · exact absurd hparam (hfresh v hres)
    · exact hw
  · intro h
    rcases List.mem_append.1 hv with hparam | hres
    · exact Or.inl hparam
    · exact Or.inr (h hres)

/-- A use comes after its definition if its value is supplied on every walk to the use. -/
theorem definedBefore_iff_supplied (hids : f.blockIds.Nodup) (hnd : f.results.Nodup)
    (hfresh : ∀ v ∈ f.results, v ∉ f.paramValues) (hb : f.block? b = some blk)
    (hreach : b ∈ f.graph.reachable) (hv : v ∈ f.paramValues ++ f.results) (pos : Option Nat) :
    f.definedBefore f.dominators v b pos = true ↔ ∀ w, f.graph.IsWalk (w ++ [b]) →
      f.Supplied (f.arrival w b ++ (blk.before pos).flatMap Instr.events) v := by
  rw [definedBefore_iff hids hnd hb hreach]
  simp only [supplied_iff hfresh hv]
  exact ⟨fun h w hw hres => h hres w hw, fun h hres w hw => h w hw hres⟩

/-- At the end of a block that no walk reaches, every value counts as defined. -/
theorem definedBefore_of_not_reachable (hb : b ∉ f.graph.reachable) :
    f.definedBefore f.dominators v b none = true := by
  rw [definedBefore]
  split
  · rfl
  · split
    · rfl
    · exact Graph.dominates_of_not_mem_reachable hb

/-! ### Soundness of all walks -/

theorem write_mem_block_events : .write v ∈ blk.events ↔
    .write v ∈ blk.instrs.flatMap Instr.events := by
  rw [Block.events, List.mem_append, or_iff_left (by simp)]

/-- At the end of a walk, a block and the phi nodes behind the edges out of it read only what was
supplied. -/
structure SoundAt (f : Func) (w : List BlockId) (b : BlockId) (blk : Block) : Prop where
  instrs : ∀ is i js, blk.instrs = is ++ i :: js → i.isPhi = false → ∀ v ∈ i.op.operands,
    f.Supplied (f.arrival w b ++ is.flatMap Instr.events) v
  term : ∀ v ∈ blk.term.operands,
    f.Supplied (f.arrival w b ++ blk.instrs.flatMap Instr.events) v
  phis : ∀ c cblk, f.graph.Edge b c → f.block? c = some cblk → ∀ i ∈ cblk.instrs, ∀ v,
    (b, v) ∈ i.incoming → f.Supplied (f.arrival w b ++ blk.instrs.flatMap Instr.events) v

/-- All walks are sound if the block at the end of each of them is. -/
theorem sound_walks_iff
    (htargets : ∀ blk ∈ f.blocks, ∀ t ∈ blk.term.targets, t ∈ f.blockIds) :
    (∀ w, f.graph.IsWalk w → f.Sound (f.events w)) ↔
      ∀ w b blk, f.graph.IsWalk (w ++ [b]) → f.block? b = some blk →
        f.SoundAt w b blk := by
  have hevents : ∀ {w b blk}, f.block? b = some blk →
      f.events (w ++ [b]) = f.arrival w b ++ blk.events := fun hb => by
    rw [events_eq_arrival, eventsOf_of_block? hb]
  constructor
  · intro hsound w b blk hw hb
    have hhere := hsound _ hw
    rw [hevents hb, sound_append_iff, sound_block_iff] at hhere
    refine ⟨hhere.2.1, hhere.2.2, fun c cblk hbc hc i hi v hin => ?_⟩
    have hthere := hsound _ (hw.snoc hbc)
    rw [events_snoc, edgeEvents_of_block? hc, sound_append_iff, sound_append_iff] at hthere
    obtain ⟨p, q, hpq⟩ := List.append_of_mem (read_mem_phiReads.2 ⟨i, hi, hin⟩)
    refine (hthere.1.2 p v q hpq).imp_right fun hwrite => ?_
    -- the phi nodes before this one write nothing on the edge
    have hp : .write v ∉ p := fun hmem => by
      have hedge : .write v ∈ f.edgeEvents b c := by
        rw [edgeEvents_of_block? hc, hpq]
        exact List.mem_append_left _ hmem
      exact write_not_mem_edgeEvents hedge
    rw [List.mem_append, or_iff_left hp, hevents hb, List.mem_append, write_mem_block_events]
      at hwrite
    exact List.mem_append.2 hwrite
  · intro hlocal
    have hend : ∀ w b, f.graph.IsWalk (w ++ [b]) → f.Sound (f.events (w ++ [b])) := by
      refine Graph.IsWalk.snocInduction (fun e he => ?_) fun w a b hw hab ih => ?_
      · obtain ⟨blk, hblk⟩ := mem_blockIds_iff.1 (entryId?_mem he)
        obtain ⟨hinstrs, hterm, -⟩ := hlocal [] e blk (Graph.isWalk_singleton.2 he) hblk
        rw [hevents hblk, sound_append_iff]
        exact ⟨sound_nil f, sound_block_iff.2 ⟨hinstrs, hterm⟩⟩
      · obtain ⟨ablk, hablk⟩ := mem_blockIds_iff.1 (mem_blockIds_of_isWalk htargets hw)
        obtain ⟨blk, hblk⟩ := mem_blockIds_iff.1 (mem_blockIds_of_isWalk htargets (hw.snoc hab))
        obtain ⟨hinstrs, hterm, -⟩ := hlocal _ b blk (hw.snoc hab) hblk
        obtain ⟨-, -, hphis⟩ := hlocal w a ablk hw hablk
        rw [hevents hblk, sound_append_iff]
        refine ⟨?_, sound_block_iff.2 ⟨hinstrs, hterm⟩⟩
        rw [arrival_snoc, edgeEvents_of_block? hblk, sound_append_iff]
        refine ⟨ih, fun past v future hsplit => ?_⟩
        obtain ⟨i, hi, hin⟩ := read_mem_phiReads.1 (hsplit ▸ List.mem_append_right past
          List.mem_cons_self : Event.read v ∈ blk.phiReads a)
        refine (hphis b blk hab hblk i hi v hin).imp_right fun hwrite => ?_
        rw [hevents hablk]
        refine List.mem_append_left _ (List.mem_append.2 ?_)
        rw [write_mem_block_events]
        exact List.mem_append.1 hwrite
    intro w hw
    cases w using List.reverseRecOn with
    | nil => exact absurd rfl hw.ne_nil
    | append_singleton w b => exact hend w b hw

end Func

end BarrierLowering
