import BarrierLowering.Proofs.Split
import BarrierLowering.Proofs.Verifier

/-!
# What the verifier accepts

The defects of a function are found by lists and tables: repeats, sorted identifiers, the first
definition of a value, rows of dominators. The functions without defects are those that satisfy
conditions which mention none of these, only blocks, instructions and walks.

## Main definitions

* `Func.UsedAt`, `Func.Defines` — where a value is read, and where it is defined.
* `Func.Valid` — the conditions.

## Main results

* `Func.definedBefore_iff_precedes` — the dominator table, and all walks to a use.
* `Func.defects_eq_nil_iff_valid` — the verifier accepts exactly the valid functions.
-/

namespace BarrierLowering

/-- A value is read in a block, at the position of an instruction or, without a position, at
the end of the block. A phi node reads at the end of the block it names. -/
inductive Func.UsedAt (f : Func) (v : ValueId) : BlockId → Option Nat → Prop
  | instr {blk : Block} {is js : List Instr} {i : Instr} : blk ∈ f.blocks →
      blk.instrs = is ++ i :: js → i.isPhi = false → v ∈ i.op.operands →
      UsedAt f v blk.id (some is.length)
  | phi {blk : Block} {i : Instr} {source : BlockId} : blk ∈ f.blocks → i ∈ blk.instrs →
      (source, v) ∈ i.incoming → UsedAt f v source none
  | term {blk : Block} : blk ∈ f.blocks → v ∈ blk.term.operands → UsedAt f v blk.id none

/-- An instruction at a position of a block defines a value. -/
def Func.Defines (f : Func) (v : ValueId) (home : BlockId) (index : Nat) : Prop :=
  ∃ blk ∈ f.blocks, blk.id = home ∧ ∃ is i js, blk.instrs = is ++ i :: js ∧ is.length = index ∧
    i.result = some v

/-- The definition at position `index` of block `home` comes before position `pos` of block `b`:
it is earlier in the same block, or every walk has passed through its block when it comes to
the block `b`. -/
def Func.Precedes (f : Func) (home : BlockId) (index : Nat) (b : BlockId) (pos : Option Nat) :
    Prop :=
  (home = b ∧ ∀ p ∈ pos, index < p) ∨ ∀ w, f.graph.IsWalk (w ++ [b]) → home ∈ w

/-- What is asked of a function, in terms of its blocks and of walks from its entry. -/
structure Func.Valid (f : Func) : Prop where
  nonempty : f.blocks ≠ []
  blockIds_nodup : f.blockIds.Nodup
  targets_exist : ∀ blk ∈ f.blocks, ∀ t ∈ blk.term.targets, ∃ other ∈ f.blocks, other.id = t
  /-- No phi node follows another instruction. -/
  phis_first : ∀ blk ∈ f.blocks,
    blk.instrs.Pairwise fun i j => j.isPhi = true → i.isPhi = true
  /-- A phi node names each block that branches to its block once, and no other. -/
  phis_name : ∀ blk ∈ f.blocks, ∀ i ∈ blk.instrs, i.isPhi = true →
    (i.incoming.map (·.1)).Nodup ∧ ∀ a, a ∈ i.incoming.map (·.1) ↔
      ∃ other ∈ f.blocks, other.id = a ∧ blk.id ∈ other.term.targets
  results_nodup : f.results.Nodup
  results_fresh : ∀ v ∈ f.results, v ∉ f.paramValues
  operands_defined : ∀ blk ∈ f.blocks,
    (∀ i ∈ blk.instrs, ∀ v ∈ i.op.operands, v ∈ f.paramValues ∨ v ∈ f.results) ∧
      ∀ v ∈ blk.term.operands, v ∈ f.paramValues ∨ v ∈ f.results
  /-- Where a walk leads to a use, the definition precedes the use. -/
  uses_preceded : ∀ v b pos, f.UsedAt v b pos → (∃ w, f.graph.IsWalk (w ++ [b])) →
    ∀ home index, f.Defines v home index → f.Precedes home index b pos

namespace Func

variable {f : Func} {b home : BlockId} {blk : Block} {v : ValueId} {i : Instr} {index : Nat}
  {pos : Option Nat}

/-! ### Definitions -/

/-- With distinct results, the site of a value is the only place where it is defined. -/
theorem defSite?_eq_some_iff (hnd : f.results.Nodup) :
    f.defSite? v = some (home, index) ↔ f.Defines v home index := by
  refine ⟨defSite?_eq_some, ?_⟩
  rintro ⟨blk, hblk, rfl, is, i, js, hsplit, rfl, hv⟩
  have hres : v ∈ f.results := mem_results_iff.2 ⟨blk, hblk, i, by simp [hsplit], hv⟩
  cases hsite : f.defSite? v with
  | none => exact absurd hres (defSite?_eq_none_iff.1 hsite)
  | some site =>
    obtain ⟨blk', hblk', hid, is', i', js', hsplit', hlen, hv'⟩ := defSite?_eq_some hsite
    obtain ⟨rfl, rfl, -⟩ := definition_unique hnd hblk hblk' hsplit hsplit' hv hv'
    rw [hid, hlen]

/-! ### Dominance on walks -/

/-- A block that walks come to is come to for a first time. -/
theorem exists_first_arrival (h : b ∈ f.graph.reachable) :
    ∃ w, f.graph.IsWalk (w ++ [b]) ∧ b ∉ w := by
  obtain ⟨⟨w, hw⟩, -⟩ := mem_reachable_iff.1 h
  have hmem : b ∈ w ++ [b] := by simp
  obtain ⟨w₁, w₂, heq, hnot⟩ := List.eq_append_cons_of_mem hmem
  rw [heq] at hw
  exact ⟨w₁, hw.stop, hnot⟩

/-- **The dominator table, and all walks to a use.** -/
theorem definedBefore_iff_precedes (hsite : f.defSite? v = some (home, index))
    (hb : b ∈ f.graph.reachable) :
    f.definedBefore f.dominators v b pos = true ↔ f.Precedes home index b pos := by
  rw [definedBefore, hsite, Precedes]
  dsimp only
  by_cases hhome : home = b
  · subst hhome
    -- on the first arrival, nothing later in the block has run
    obtain ⟨w, hw, hnot⟩ := exists_first_arrival hb
    have hlate : ¬ ∀ w, f.graph.IsWalk (w ++ [home]) → home ∈ w := fun h => hnot (h w hw)
    rw [if_pos rfl, or_iff_left hlate]
    cases pos <;> simp
  · rw [if_neg hhome, dominators, Graph.dominates_dominators hb, Graph.Dominates]
    simp [hhome]

/-- A value that has no definition, or one that precedes the use, is available to it. -/
theorem definedBefore_iff_of_defines (hnd : f.results.Nodup) (hb : b ∈ f.graph.reachable) :
    f.definedBefore f.dominators v b pos = true ↔
      ∀ home index, f.Defines v home index → f.Precedes home index b pos := by
  simp only [← defSite?_eq_some_iff hnd]
  cases hsite : f.defSite? v with
  | none => simp [definedBefore, hsite]
  | some site =>
    rw [definedBefore_iff_precedes hsite hb]
    constructor
    · rintro h home index ⟨⟩
      exact h
    · exact fun h => h site.1 site.2 rfl

/-- The dominance check looks at the uses that walks come to. -/
theorem dominanceDefects_eq_nil_iff_usedAt (hids : f.blockIds.Nodup)
    (hmatch : ∀ blk ∈ f.blocks, ∀ i ∈ blk.instrs, i.isPhi = true →
      (i.incoming.map (·.1)).Perm (f.predecessors blk.id)) :
    f.dominanceDefects = [] ↔ ∀ v b pos, f.UsedAt v b pos → b ∈ f.graph.reachable →
      f.definedBefore f.dominators v b pos = true := by
  rw [dominanceDefects_eq_nil_iff]
  constructor
  · -- one case for each kind of use
    rintro h v b pos (⟨hblk, hsplit, hphi, hv⟩ | ⟨hblk, hi, hin⟩ | ⟨hblk, hv⟩) hb
    · exact ((h _ hblk hb).1 _ _ _ hsplit).1 hphi v hv
    · -- the block of the phi node is a successor of the block it reads in
      obtain ⟨is, js, hsplit⟩ := List.append_of_mem hi
      have hedge := mem_incoming_edge hids (hmatch _ hblk _ hi (Instr.isPhi_of_incoming hin)) hin
      obtain ⟨⟨w, hw⟩, -⟩ := mem_reachable_iff.1 hb
      have hreach := mem_reachable_iff.2 ⟨⟨_, hw.snoc hedge⟩, List.mem_map.2 ⟨_, hblk, rfl⟩⟩
      exact ((h _ hblk hreach).1 is _ js hsplit).2 _ hin
    · exact (h _ hblk hb).2 v hv
  · intro h blk hblk hb
    refine ⟨fun is i js hsplit => ⟨fun hphi v hv => ?_, fun e he => ?_⟩, fun v hv => ?_⟩
    · exact h v blk.id _ (.instr hblk hsplit hphi hv) hb
    · by_cases hsource : e.1 ∈ f.graph.reachable
      · exact h e.2 e.1 none (.phi hblk (by simp [hsplit]) he) hsource
      · exact definedBefore_of_not_reachable hsource
    · exact h v blk.id none (.term hblk hv) hb

/-! ### The whole check -/

/-- A phi node names the predecessors of its block, in any order. -/
theorem perm_predecessors_iff (hids : f.blockIds.Nodup) {sources : List BlockId} :
    sources.Perm (f.predecessors b) ↔ sources.Nodup ∧ ∀ a, a ∈ sources ↔
      ∃ other ∈ f.blocks, other.id = a ∧ b ∈ other.term.targets := by
  simp only [← mem_predecessors]
  constructor
  · intro h
    exact ⟨h.nodup_iff.2 (nodup_predecessors hids), fun a => h.mem_iff⟩
  · rintro ⟨hnd, hmem⟩
    exact (List.perm_ext_iff_of_nodup hnd (nodup_predecessors hids)).2 hmem

/-- **The verifier accepts exactly the valid functions.** -/
theorem defects_eq_nil_iff_valid (f : Func) : f.defects = [] ↔ f.Valid := by
  rw [defects_eq_nil_iff_shaped]
  -- where all targets exist, a walk cannot end outside the function
  have hwalks : ∀ {b}, (∀ blk ∈ f.blocks, ∀ t ∈ blk.term.targets, t ∈ f.blockIds) →
      (b ∈ f.graph.reachable ↔ ∃ w, f.graph.IsWalk (w ++ [b])) := fun htargets =>
    mem_reachable_iff.trans (and_iff_left_of_imp fun ⟨_, hw⟩ => mem_blockIds_of_isWalk htargets hw)
  constructor
  · rintro ⟨hs, hdom⟩
    rw [dominanceDefects_eq_nil_iff_usedAt hs.blocks_nodup hs.phis_match] at hdom
    refine ⟨hs.nonempty, hs.blocks_nodup, fun blk hblk t ht =>
      List.mem_map.1 (hs.targets_exist blk hblk t ht), fun blk hblk =>
      Block.phis_lead_iff.1 (hs.phis_lead blk hblk), fun blk hblk i hi hphi =>
      (perm_predecessors_iff hs.blocks_nodup).1 (hs.phis_match blk hblk i hi hphi),
      hs.results_nodup, hs.results_fresh, ?_, fun v b pos hread hwalk => ?_⟩
    · simpa only [List.mem_append] using hs.operands_defined
    · have hb := (hwalks hs.targets_exist).2 hwalk
      exact (definedBefore_iff_of_defines hs.results_nodup hb).1 (hdom v b pos hread hb)
  · intro h
    have htargets : ∀ blk ∈ f.blocks, ∀ t ∈ blk.term.targets, t ∈ f.blockIds :=
      fun blk hblk t ht => List.mem_map.2 (h.targets_exist blk hblk t ht)
    have hmatch : ∀ blk ∈ f.blocks, ∀ i ∈ blk.instrs, i.isPhi = true →
        (i.incoming.map (·.1)).Perm (f.predecessors blk.id) := fun blk hblk i hi hphi =>
      (perm_predecessors_iff h.blockIds_nodup).2 (h.phis_name blk hblk i hi hphi)
    refine ⟨⟨h.nonempty, h.blockIds_nodup, htargets, h.results_nodup, h.results_fresh,
      fun blk hblk => Block.phis_lead_iff.2 (h.phis_first blk hblk), hmatch, ?_⟩, ?_⟩
    · simpa only [List.mem_append] using h.operands_defined
    · rw [dominanceDefects_eq_nil_iff_usedAt h.blockIds_nodup hmatch]
      intro v b pos hread hb
      exact (definedBefore_iff_of_defines h.results_nodup hb).2
        (h.uses_preceded v b pos hread ((hwalks htargets).1 hb))

end Func

end BarrierLowering
