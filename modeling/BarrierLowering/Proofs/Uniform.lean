import BarrierLowering.Proofs.Orderly
import BarrierLowering.Proofs.Rearranged
import BarrierLowering.Proofs.Stepwise

/-!
# Edits and the order of the blocks

The edits of the lowering find blocks and instructions by their identifiers, put new blocks next
to old ones, and take new identifiers from the counters. So what they do to a function they do to
the same function with its blocks in another order, and only the order of the result differs.

## Main definitions

* `Edit.Uniform` — an edit that does the same whatever the order of the blocks.

## Main results

* `Func.Rearranged.expand` — new blocks in the place of old ones, in another order.
* `Edit.uniform_splitLabeled`, `Emit.uniform_value`, `Edit.uniform_remove` — single edits.
* `stepwise_uniform`, `Plan.uniform_carryOut` — the lowering.
* `Func.lowerKernel_rearranged` — lowering does not depend on the order of the blocks.
-/

namespace BarrierLowering

namespace Func

variable {f f' : Func} {b : BlockId} {next : Counters}

/-! ### Edits of rearranged functions -/

theorem mapBlock_eq_expand (hids : f.blockIds.Nodup) (change : Block → Block) :
    f.mapBlock b change =
      f.expand (fun blk => [if blk.id = b then change blk else blk]) f.next := by
  have h : (f.expand (fun blk => [blk]) f.next).mapBlock b change = _ :=
    mapBlock_expand (by rwa [expand_self])
  rw [expand_self] at h
  exact h.trans rfl

theorem without_eq_expand (is : List InstrId) : f.without is = f.expand
    (fun blk => [{ blk with instrs := blk.instrs.filter fun i => i.id ∉ is }]) f.next := by
  rw [without, expand, List.map_eq_flatMap]

namespace Rearranged

variable (h : f.Rearranged f')

include h

theorem orderly (hf : f.Orderly) : f'.Orderly where
  blocks := by
    rw [h.next_eq]
    exact hf.blocks.perm h.blockIds_perm
  params := by
    rw [paramValues, h.params_eq, h.next_eq]
    exact hf.params
  results := by
    rw [h.next_eq]
    exact hf.results.perm (h.instrs_perm.filterMap _)
  instrs := by
    rw [h.next_eq]
    exact hf.instrs.perm (h.instrs_perm.map _)

/-- Where each block is replaced in the same way, the results differ in the order of the blocks. -/
theorem expand {e : Block → List Block} (hne : ∀ blk, e blk ≠ []) :
    (f.expand e next).Rearranged (f'.expand e next) := by
  obtain ⟨hsame, hentry, hperm⟩ := h
  have hhead : ∀ l : List Block, (l.flatMap e).head? = l.head?.bind fun blk => (e blk).head? := by
    intro l
    cases l with
    | nil => rfl
    | cons blk l =>
      obtain ⟨x, xs, hx⟩ := List.exists_cons_of_ne_nil (hne blk)
      rw [List.flatMap_cons, hx]
      simp [hx]
  refine ⟨?_, ?_, hperm.flatMap_right e⟩
  · rw [Func.expand, hsame]
    rfl
  · show (f'.blocks.flatMap e).head? = (f.blocks.flatMap e).head?
    rw [hhead, hhead]
    exact congrArg (Option.bind · fun blk => (e blk).head?) hentry

theorem cut (index : Nat) (label : String) :
    (f.cut b index label).Rearranged (f'.cut b index label) := by
  have hfresh : f'.fresh = f.fresh := by rw [fresh, fresh, h.next_eq]
  rw [Func.cut, Func.cut, hfresh, h.next_eq]
  exact h.expand fun blk => by split <;> exact List.cons_ne_nil _ _

theorem widen (is : List Instr) : (f.widen b is next).Rearranged (f'.widen b is next) :=
  h.expand fun _ => List.cons_ne_nil _ _

theorem mapBlock (hids : f.blockIds.Nodup) (change : Block → Block) :
    (f.mapBlock b change).Rearranged (f'.mapBlock b change) := by
  rw [mapBlock_eq_expand hids, mapBlock_eq_expand (h.blockIds_perm.nodup_iff.2 hids), h.next_eq]
  exact h.expand fun _ => List.cons_ne_nil _ _

theorem without (is : List InstrId) : (f.without is).Rearranged (f'.without is) := by
  rw [without_eq_expand, without_eq_expand, h.next_eq]
  exact h.expand fun _ => List.cons_ne_nil _ _

end Rearranged

end Func

/-! ### Uniform edits -/

namespace Edit

/-- An edit that does the same whatever the order of the blocks behind the entry: where it succeeds
on a function, it succeeds on the rearranged one with the same result, and what it makes of the
one is what it makes of the other, rearranged. -/
def Uniform {ε α : Type} (e : Edit ε α) : Prop :=
  ∀ f f' a g, f.Rearranged f' → f.Orderly → e.apply f = (.ok a, g) →
    g.Orderly ∧ ∃ g', e.apply f' = (.ok a, g') ∧ g.Rearranged g'

variable {ε ε' α β γ : Type} {e : Edit ε α} {k : α → Edit ε β}

theorem uniform_pure (a : α) : (pure a : Edit ε α).Uniform := by
  intro f f' a' g h hf happly
  cases happly
  exact ⟨hf, f', rfl, h⟩

theorem uniform_throw (cause : ε) : (throw cause : Edit ε α).Uniform :=
  fun _ _ _ _ _ _ happly => nomatch happly

/-- A lookup is uniform if it finds the same whatever the order of the blocks. -/
theorem uniform_require {error : ε} {lookup : Func → Option α}
    (hlookup : ∀ f f', f.Rearranged f' → f.Orderly → lookup f' = lookup f) :
    (require error lookup).Uniform := by
  intro f f' a g h hf happly
  rw [apply_require] at happly ⊢
  rw [hlookup f f' h hf]
  split at happly <;> cases happly
  exact ⟨hf, f', rfl, h⟩

theorem uniform_require_block {error : ε} (b : BlockId) :
    (require error (·.block? b) : Edit ε Block).Uniform :=
  uniform_require fun _ _ h hf => h.block?_eq hf.blocks.nodup

theorem uniform_require_locate {error : ε} (i : InstrId) :
    (require error (·.locate? i) : Edit ε (BlockId × Nat)).Uniform :=
  uniform_require fun _ _ h hf => h.locate?_eq hf.blocks.nodup hf.instrs.nodup

theorem Uniform.bind (he : e.Uniform) (hk : ∀ a, (k a).Uniform) : (e >>= k).Uniform := by
  intro f f' b g h hf happly
  rw [apply_bind] at happly
  split at happly
  · next a f₁ hfirst =>
    obtain ⟨hf₁, f₁', hfirst', h₁⟩ := he f f' a f₁ h hf hfirst
    rw [apply_bind_ok hfirst']
    exact hk a f₁ f₁' b g h₁ hf₁ happly
  · cases happly

theorem Uniform.adapt (he : e.Uniform) (rename : ε → ε') :
    Edit.Uniform (ExceptT.adapt rename e) := by
  intro f f' a g h hf happly
  rw [apply_adapt] at happly
  split at happly <;> cases happly
  next hok =>
  obtain ⟨hg, g', hok', h'⟩ := he f f' a g h hf hok
  exact ⟨hg, g', by rw [apply_adapt, hok'], h'⟩

theorem composes_uniform : Composes @Uniform := ⟨uniform_pure, Uniform.bind, Uniform.adapt⟩

/-! ### Splits -/

theorem uniform_splitLabeled (b : BlockId) (index : Nat) (label : String) :
    (splitLabeled b index label).Uniform := by
  intro f f' n g h hf happly
  obtain ⟨blk, hb, hphis, hlen, -⟩ := splitLabeled_eq_ok happly
  have hb' : f'.block? b = some blk := (h.block?_eq hf.blocks.nodup).trans hb
  rw [apply_splitLabeled hf.blocks.nodup hb hphis hlen] at happly
  cases happly
  refine ⟨hf.cut (Func.mem_blockIds_iff.2 ⟨blk, hb⟩), f'.cut b index label, ?_, h.cut index label⟩
  rw [apply_splitLabeled (h.orderly hf).blocks.nodup hb' hphis hlen, Func.fresh, h.next_eq]
  rfl

theorem uniform_split (b : BlockId) (index : Nat) : (split b index).Uniform :=
  (uniform_require_block b).bind fun _ => uniform_splitLabeled _ _ _

/-! ### Single instructions -/

/-- A change of a definition that keeps its number and its result. -/
theorem uniform_mapDefinition (v : ValueId) {change : Instr → Instr}
    (hchange : ∀ i, ((change i).id, (change i).result) = (i.id, i.result)) :
    (modify (·.mapDefinition v change) : Edit ε Unit).Uniform := by
  intro f f' a g h hf happly
  cases happly
  obtain ⟨b, hany⟩ := hf.exists_home v
  have hchanged := Func.mapDefinition_eq_mapBlock hf.blocks.nodup hany change
  have hchanged' := Func.mapDefinition_eq_mapBlock (h.orderly hf).blocks.nodup
    (fun x hx => hany x (h.perm.mem_iff.1 hx)) change
  refine ⟨?_, f'.mapDefinition v change, rfl, ?_⟩
  · show (f.mapDefinition v change).Orderly
    rw [hchanged]
    exact hf.mapBlock (fun _ => rfl) fun _ => map_mapFirst hchange
  · show (f.mapDefinition v change).Rearranged (f'.mapDefinition v change)
    rw [hchanged, hchanged']
    exact h.mapBlock hf.blocks.nodup _

theorem uniform_addIncoming (phi : ValueId) (source : BlockId) (value : ValueId) :
    (addIncoming phi source value).Uniform := by
  refine (uniform_require fun _ _ h hf => h.definition?_eq hf.results.nodup).bind fun i => ?_
  cases i.op with
  | phi incoming => exact uniform_mapDefinition _ fun _ => rfl
  | _ => exact uniform_throw _

theorem uniform_remove (i : InstrId) : (remove i).Uniform := by
  intro f f' x g h hf happly
  have hfound : ∃ y ∈ f.instrs, y.id = i := by
    cases hlocate : f.locate? i with
    | none =>
      rw [remove, apply_bind, apply_require, hlocate] at happly
      cases happly
    | some position => exact Func.exists_of_locate? hlocate
  obtain ⟨y, hy, rfl⟩ := hfound
  rw [apply_remove hf.blocks.nodup hf.numbered hy] at happly
  cases happly
  have hf' := h.orderly hf
  exact ⟨hf.without _, f'.without [x.id],
    apply_remove hf'.blocks.nodup hf'.numbered (h.instrs_perm.mem_iff.2 hy), h.without _⟩

end Edit

/-! ### Emitting -/

namespace Emit

theorem uniform_value (b : BlockId) (op : Op) (ty : Ty) : (value b op ty).Uniform := by
  intro f f' v g h hf happly
  have hb := mem_of_checkBlock happly
  have hf' := h.orderly hf
  rw [apply_value hb, Func.push_eq_widen hf.blocks.nodup] at happly
  cases happly
  refine ⟨hf.value hb op ty, _, ?_, h.widen _⟩
  rw [apply_value (h.blockIds_perm.mem_iff.2 hb), Func.push_eq_widen hf'.blocks.nodup, h.next_eq]

theorem uniform_effect (b : BlockId) (op : Op) : (effect b op).Uniform := by
  intro f f' n g h hf happly
  have hb := mem_of_checkBlock happly
  have hf' := h.orderly hf
  unfold effect at happly ⊢
  rw [apply_push hb, Func.push_eq_widen hf.blocks.nodup] at happly
  cases happly
  refine ⟨hf.effect hb op .void, _, ?_, h.widen _⟩
  rw [apply_push (h.blockIds_perm.mem_iff.2 hb), Func.push_eq_widen hf'.blocks.nodup, h.next_eq]

theorem uniform_terminator (b : BlockId) (t : Terminator) : (terminator b t).Uniform := by
  intro f f' u g h hf happly
  have hb := mem_of_checkBlock happly
  rw [apply_terminator hb] at happly
  cases happly
  exact ⟨hf.mapBlock (fun _ => rfl) fun _ => rfl, _,
    apply_terminator (h.blockIds_perm.mem_iff.2 hb) t, h.mapBlock hf.blocks.nodup _⟩

end Emit

/-! ### The lowering of a kernel -/

theorem uniform_closePhi (induction : ValueId) (tail : BlockId) (next : ValueId) :
    (closePhi induction tail next).Uniform := by
  intro f f' u g h hf happly
  unfold closePhi at happly ⊢
  rw [Edit.apply_bind, Edit.apply_get] at happly ⊢
  dsimp only at happly ⊢
  rw [h.name_eq]
  exact (Edit.uniform_addIncoming induction tail next).adapt _ f f' u g h hf happly

theorem stepwise_uniform : Edit.Stepwise @Edit.Uniform where
  toComposes := Edit.composes_uniform
  locate _ := Edit.uniform_require_locate
  split := Edit.uniform_split
  splitLabeled := Edit.uniform_splitLabeled
  value := Emit.uniform_value
  effect := Emit.uniform_effect
  terminator := Emit.uniform_terminator
  closePhi := uniform_closePhi
  remove := Edit.uniform_remove

/-- A region is read off in the same way. -/
theorem Func.Rearranged.region_eq_ok {f f' : Func} {pred succ : BlockId} {key : InstrId}
    {region : Region} (h : f.Rearranged f') (hids : f.blockIds.Nodup)
    (hregion : f.region pred key succ = .ok region) : f'.region pred key succ = .ok region := by
  unfold Func.region at hregion ⊢
  rw [h.successors_eq hids]
  split at hregion
  · next start hstart =>
    split at hregion
    · cases hregion
    · next hpreds =>
      split at hregion <;> cases hregion
      next exit hexit =>
      -- of one predecessor there is one order only
      have hone : ∀ {b p}, f.predecessors b = [p] → f'.predecessors b = [p] := fun hp =>
        List.perm_singleton.1 (hp ▸ h.predecessors_perm)
      rw [hone (not_not.1 hpreds), if_neg (fun hne => hne rfl), hone hexit]
  · cases hregion

theorem Func.Rearranged.regionsFrom_eq_ok {f f' : Func} (h : f.Rearranged f')
    (hids : f.blockIds.Nodup) {keys : List (InstrId × BlockId)} : ∀ {pred regions},
      f.regionsFrom pred keys = .ok regions → f'.regionsFrom pred keys = .ok regions := by
  induction keys with
  | nil => exact fun hregions => hregions
  | cons x keys ih =>
    intro pred regions hregions
    obtain ⟨key, succ⟩ := x
    unfold regionsFrom at hregions ⊢
    cases hregion : f.region pred key succ with
    | error fault =>
      rw [hregion] at hregions
      cases hregions
    | ok region =>
      rw [hregion] at hregions
      rw [h.region_eq_ok hids hregion]
      dsimp only at hregions ⊢
      cases hrest : f.regionsFrom succ keys with
      | error cause =>
        rw [hrest] at hregions
        cases hregions
      | ok rest =>
        rw [hrest] at hregions
        cases hregions
        rw [ih hrest]
        rfl

namespace Plan

theorem uniform_buildRegions (plan : Plan) : plan.buildRegions.Uniform := by
  refine stepwise_uniform.buildRegions plan fun queries homes => ?_
  intro f f' regions g h hf happly
  rw [Edit.apply_bind, Edit.apply_get] at happly ⊢
  dsimp only at happly ⊢
  cases hregions : f.regionsFrom queries (plan.barriers.zip homes) with
  | error cause =>
    rw [hregions] at happly
    cases happly
  | ok regions' =>
    rw [hregions] at happly
    cases happly
    rw [h.regionsFrom_eq_ok hf.blocks.nodup hregions]
    exact ⟨hf, f', rfl, h⟩

/-- Carrying a plan out is uniform. -/
theorem uniform_carryOut (plan : Plan) (config : Config) : (plan.carryOut config).Uniform :=
  stepwise_uniform.carryOut plan config plan.uniform_buildRegions

end Plan

namespace Func

/-- **Lowering does not depend on the order of the blocks.**  If the blocks behind the entry of a
well-formed kernel are listed in another order, the analysis comes to the same verdict: the same
plan up to the order of the records, or the same reason against the kernel, where only the barrier
with a wrong pattern that it names may be another one. A kernel with a plan gets the same loops, and
the lowered kernel is the same up to the order of the blocks behind the entry. -/
theorem lowerKernel_rearranged (f f' : Func) (config : Config) (hf : f.defects = [])
    (hn : f.Numbered) (h : f.Rearranged f') :
    Plan.SameVerdict (f.badRecords config) (f.plan config) (f'.plan config) ∧
      ∀ plan, f.plan config = .ok plan → ∃ loops g g',
        (lowerKernel config).apply f = (.ok (.transformed loops), g) ∧
        (lowerKernel config).apply f' = (.ok (.transformed loops), g') ∧ g.Rearranged g' := by
  have hs := (defects_eq_nil_iff.1 hf).toShaped
  have hverdict := h.plan_sameVerdict hs.blocks_nodup config
  refine ⟨hverdict, fun plan hplan => ?_⟩
  obtain ⟨g, _, _, ws, next, -, hcarry⟩ :=
    Plan.exists_carriedOut hs hn (plan_eq_ok_iff.1 hplan).1
  obtain ⟨-, g', hcarry', hsame⟩ := plan.uniform_carryOut config f f' _ _ h (hs.orderly hn) hcarry
  refine ⟨ws.map Wrap.loop, _, g', apply_lowerKernel_of_ok hplan hcarry, ?_, hsame⟩
  -- the records are not looked at when a plan is carried out
  rw [hplan] at hverdict
  generalize hplan' : f'.plan config = verdict at hverdict
  cases hverdict with
  | planned hrecords => exact apply_lowerKernel_of_ok hplan' hcarry'

/-- A kernel whose threads wait in two blocks, one behind the other. -/
def waitingApart : Func where
  name := "waitingApart"
  convention := .kernel
  returnTy := .void
  params := []
  blocks :=
    [⟨⟨0⟩, "entry",
        [⟨⟨0⟩, some ⟨0⟩, .call "__hip_cg_thread_rank" [], .i32⟩,
          ⟨⟨1⟩, some ⟨1⟩, .call "__hip_cg_group_size" [], .i32⟩],
        .branch ⟨1⟩⟩,
      ⟨⟨1⟩, "wait", [⟨⟨2⟩, none, .call "__hip_cg_sync" [], .void⟩], .branch ⟨2⟩⟩,
      ⟨⟨2⟩, "again", [⟨⟨3⟩, none, .call "__hip_cg_sync" [], .void⟩], .ret none⟩]
  next := ⟨3, 2, 4⟩

/-- The same kernel, with the blocks behind the entry the other way round. -/
def waitingSwapped : Func :=
  { waitingApart with blocks := waitingApart.blocks.take 1 ++ (waitingApart.blocks.drop 1).reverse }

/-- Only the records of the plan are the other way round, too. -/
theorem lowerKernel_rearranged_waitingSwapped : waitingApart.defects = [] ∧
    waitingApart.Numbered ∧ waitingApart.Rearranged waitingSwapped ∧
    ∃ plan, waitingApart.plan .standard = .ok plan ∧ plan.records.length = 2 ∧
      waitingSwapped.plan .standard = .ok { plan with records := plan.records.reverse } ∧
      ∃ loops g g', (lowerKernel .standard).apply waitingApart = (.ok (.transformed loops), g) ∧
        (lowerKernel .standard).apply waitingSwapped = (.ok (.transformed loops), g') ∧
        g.Rearranged g' := by
  have hf : waitingApart.defects = [] := by cbv
  have hn : waitingApart.Numbered := ⟨by decide, by decide, by decide, by decide, by decide⟩
  have hplan : waitingApart.plan .standard = .ok ⟨⟨⟨0⟩, ⟨1⟩, ⟨0⟩, ⟨1⟩, .i32, .i32⟩, [⟨2⟩, ⟨3⟩],
      [⟨⟨2⟩, ⟨1⟩, .simple⟩, ⟨⟨3⟩, ⟨2⟩, .simple⟩], 1⟩ := by cbv
  have hplan' : waitingSwapped.plan .standard = .ok ⟨⟨⟨0⟩, ⟨1⟩, ⟨0⟩, ⟨1⟩, .i32, .i32⟩, [⟨2⟩, ⟨3⟩],
      [⟨⟨3⟩, ⟨2⟩, .simple⟩, ⟨⟨2⟩, ⟨1⟩, .simple⟩], 1⟩ := by cbv
  have hswap : waitingApart.Rearranged waitingSwapped := ⟨rfl, rfl, by decide⟩
  obtain ⟨-, hlowered⟩ := lowerKernel_rearranged _ _ .standard hf hn hswap
  exact ⟨hf, hn, hswap, _, hplan, rfl, hplan', hlowered _ hplan⟩

end Func

end BarrierLowering
