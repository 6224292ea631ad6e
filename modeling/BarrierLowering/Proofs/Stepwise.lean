import BarrierLowering.Proofs.Extends

/-!
# Edits step by step

The lowering is a long row of small edits. A property that the small edits have, and that edits in
a row have if each of them does, is a property of the whole row.

## Main definitions

* `Edit.Composes` — a property that edits in a row have if each of them does.
* `Edit.Stepwise` — such a property of the edits that the lowering is made of.

## Main results

* `Edit.Stepwise.wrap`, `Edit.Stepwise.carryOut` — the lowering has it, too.
-/

namespace BarrierLowering

namespace Edit

/-- A property of edits that edits in a row have if each of them does, whatever becomes of the
errors. -/
structure Composes (P : ∀ {ε α : Type}, Edit ε α → Prop) : Prop where
  pure : ∀ {ε α : Type} (a : α), P (pure a : Edit ε α)
  bind : ∀ {ε α β : Type} {e : Edit ε α} {k : α → Edit ε β}, P e → (∀ a, P (k a)) → P (e >>= k)
  adapt : ∀ {ε ε' α : Type} {e : Edit ε α}, P e → ∀ rename : ε → ε', P (ExceptT.adapt rename e)

namespace Composes

variable {P : ∀ {ε α : Type}, Edit ε α → Prop} {ε α γ : Type}

theorem lift (h : Composes @P) {e : Edit EditError α} (he : P e) : P (Edit.lift e) :=
  h.adapt he _

theorem discard (h : Composes @P) {e : Edit ε α} (he : P e) : P (discard e) := by
  rw [discard_eq_bind]
  exact h.bind he fun _ => h.pure ()

theorem mapM (h : Composes @P) {e : γ → Edit ε α} (he : ∀ c, P (e c)) (l : List γ) :
    P (l.mapM e) := by
  induction l with
  | nil => exact h.pure []
  | cons c l ih =>
    rw [List.mapM_cons]
    exact h.bind (he c) fun a => h.bind ih fun as => h.pure (a :: as)

theorem forM (h : Composes @P) {e : γ → Edit ε PUnit} (he : ∀ c, P (e c)) (l : List γ) :
    P (l.forM e) := by
  induction l with
  | nil => exact h.pure _
  | cons c l ih => exact h.bind (he c) fun _ => ih

end Composes

/-- A property of the edits that the lowering is made of, and of rows of them. -/
structure Stepwise (P : ∀ {ε α : Type}, Edit ε α → Prop) : Prop extends Composes @P where
  locate : ∀ {ε : Type} (error : ε) (i : InstrId), P (require error (·.locate? i))
  split : ∀ (b : BlockId) (index : Nat), P (split b index)
  splitLabeled : ∀ (b : BlockId) (index : Nat) (label : String), P (splitLabeled b index label)
  value : ∀ (b : BlockId) (op : Op) (ty : Ty), P (Emit.value b op ty)
  effect : ∀ (b : BlockId) (op : Op), P (Emit.effect b op)
  terminator : ∀ (b : BlockId) (t : Terminator), P (Emit.terminator b t)
  closePhi : ∀ (induction : ValueId) (tail : BlockId) (next : ValueId),
    P (closePhi induction tail next)
  remove : ∀ i : InstrId, P (remove i)

namespace Stepwise

variable {P : ∀ {ε α : Type}, Edit ε α → Prop} (h : Stepwise @P)

include h

theorem isolate (first last : InstrId) (label : String) : P (isolate first last label) :=
  h.bind (h.locate _ _) fun _ => h.bind (h.split _ _) fun _ =>
    h.bind (h.locate _ _) fun _ => h.splitLabeled _ _ _

theorem emit (guard : TurnGuard) (header : BlockId) (rank size zero induction : ValueId) (ty : Ty) :
    P (guard.emit header rank size zero induction ty) := by
  cases guard with
  | rankAndSize => exact h.bind (h.value _ _ _) fun _ => h.value _ _ _
  | rankEqualsIteration => exact h.value _ _ _

/-- Wrapping a region has the property. -/
theorem wrap (region : Region) (guard : TurnGuard) (plan : Plan) : P (region.wrap guard plan) := by
  unfold Region.wrap
  refine h.bind (h.lift ?_) fun ⟨zero, slot, header, tail, induction⟩ => ?_
  · exact h.bind (h.value _ _ _) fun _ => h.bind (h.value _ _ _) fun _ =>
      h.bind (h.effect _ _) fun _ => h.bind (h.splitLabeled _ _ _) fun _ =>
      h.bind (h.splitLabeled _ _ _) fun _ => h.bind (h.value _ _ _) fun _ => h.pure _
  refine h.bind (h.lift ?_) fun next => ?_
  · -- whether the rank is converted first or not, the turn guard and the count come next
    have hcount : ∀ rank, P (do
        let turn ← guard.emit header rank plan.size zero induction plan.sizeTy
        Emit.condBranch header turn region.start tail
        let one ← Emit.int tail 1 plan.sizeTy
        Emit.add tail induction one plan.sizeTy : Edit EditError ValueId) := fun rank =>
      h.bind (h.emit guard _ _ _ _ _ _) fun _ => h.bind (h.terminator _ _) fun _ =>
        h.bind (h.value _ _ _) fun _ => h.value _ _ _
    dsimp only
    split
    · exact h.bind (h.pure _) hcount
    · exact h.bind (h.value _ _ _) hcount
  refine h.bind (h.closePhi _ _ _) fun _ => h.bind (h.lift ?_) fun _ => h.pure _
  exact h.bind (h.value _ _ _) fun _ => h.terminator _ _

/-- Dividing a kernel has the property if reading its regions off has it. -/
theorem buildRegions (plan : Plan)
    (hread : ∀ queries homes, P (do
      liftExcept ((← get).regionsFrom queries (plan.barriers.zip homes)) :
        Edit LoweringError (List Region))) : P plan.buildRegions :=
  h.bind (h.lift (h.isolate _ _ _)) fun queries =>
    h.bind (h.mapM (fun i => h.lift (h.isolate i i _)) _) fun homes => hread queries homes

/-- What is left to do once the kernel is divided into regions has the property. -/
theorem wraps (plan : Plan) (config : Config) (regions : List Region) : P (do
    let loops ← regions.mapM fun region => region.wrap config.turnGuard plan
    if config.eraseBarriers then
      plan.barriers.forM fun barrier => discard (Edit.lift (Edit.remove barrier))
    return loops : Edit LoweringError (List TurnLoop)) := by
  refine h.bind (h.mapM (fun r => h.wrap r _ plan) regions) fun loops => ?_
  cases config.eraseBarriers with
  | false => exact h.pure loops
  | true =>
    exact h.bind (h.forM (fun i => h.discard (h.lift (h.remove i))) _) fun _ => h.pure loops

/-- Carrying a plan out has the property if dividing the kernel has it. -/
theorem carryOut (plan : Plan) (config : Config) (hregions : P plan.buildRegions) :
    P (plan.carryOut config) :=
  h.bind hregions (h.wraps plan config)

end Stepwise

end Edit

end BarrierLowering
