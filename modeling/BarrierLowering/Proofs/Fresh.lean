import BarrierLowering.Proofs.Orderly
import BarrierLowering.Proofs.Stepwise

/-!
# Fresh identifiers stay fresh

A function is made by calls of one interface, from the first parameter to the loops of the
lowering. A call may fail, at once or when half of its work is done. No call gives a number twice,
and none takes a number back.

## Main definitions

* `Func.Distinct` — blocks, instructions and values have distinct numbers below the counters.
* `Func.Grows` — what a call may make of a function.
* `BuilderCall`, `Operation` — the calls of the interface.
* `Func.perform` — make calls one after another.

## Main results

* `Edit.Grows.bind` — edits in a row let a function grow if each of them does.
* `Operation.grows` — every call lets a function grow, also if it fails.
* `Func.distinct_perform` — after any calls the numbers are distinct, and no counter falls.
-/

namespace BarrierLowering

/-- Counters are compared one by one. -/
instance : Preorder Counters := Preorder.lift fun c => (c.block, c.value, c.instr)

theorem Minted.mono {α : Type} {index : α → Nat} {l : List α} {m n : Nat} (h : Minted index l m)
    (hmn : m ≤ n) : Minted index l n := ⟨h.nodup, fun a ha => (h.lt a ha).trans_le hmn⟩

/-- If the first match is left with a part of what it had, so is the whole list. -/
theorem flatMap_mapFirst_sublist {α β : Type} {p : α → Bool} {change : α → α} {φ : α → List β}
    (h : ∀ a, (φ (change a)).Sublist (φ a)) (l : List α) :
    ((mapFirst p change l).flatMap φ).Sublist (l.flatMap φ) := by
  induction l with
  | nil => exact List.Sublist.refl _
  | cons a l ih =>
    rw [mapFirst]
    split
    · rw [List.flatMap_cons, List.flatMap_cons]
      exact (h a).append (List.Sublist.refl _)
    · rw [List.flatMap_cons, List.flatMap_cons]
      exact (List.Sublist.refl _).append ih

namespace Func

variable {f g k : Func} {b : BlockId}

/-! ### Distinct numbers -/

/-- The blocks have distinct numbers, and so have the instructions, and the values: the parameters
together with the results. All numbers are below the counters. -/
structure Distinct (f : Func) : Prop where
  blocks : Minted BlockId.index f.blockIds f.next.block
  instrs : Minted InstrId.index (f.instrs.map (·.id)) f.next.instr
  values : Minted ValueId.index (f.paramValues ++ f.results) f.next.value

theorem distinct_empty (name : String) (convention : Convention) (returnTy : Ty) :
    (empty name convention returnTy).Distinct := by
  constructor <;> exact ⟨List.nodup_nil, fun _ h => nomatch h⟩

namespace Distinct

variable (h : f.Distinct)

include h

theorem orderly : f.Orderly where
  blocks := h.blocks
  params v hv := h.values.lt v (List.mem_append_left _ hv)
  results := h.values.sublist (List.sublist_append_right _ _)
  instrs := h.instrs

/-- Counters may be ahead of the numbers in use. -/
theorem advance {next : Counters} (hnext : f.next ≤ next) : Distinct { f with next } :=
  ⟨h.blocks.mono hnext.1, h.instrs.mono hnext.2.2, h.values.mono hnext.2.1⟩

/-- A new block at the end takes one number. -/
theorem append (label : String) : Distinct { f with
    blocks := f.blocks ++ [Block.empty f.fresh label]
    next := { f.next with block := f.next.block + 1 } } := by
  have hinstrs : (f.blocks ++ [Block.empty f.fresh label]).flatMap (·.instrs) = f.instrs := by
    rw [List.flatMap_append]
    exact List.append_nil _
  refine ⟨h.blocks.cons (a := f.fresh) ?_ rfl, ?_, ?_⟩
  · rw [blockIds, List.map_append]
    exact List.perm_append_singleton _ _
  · rw [Func.instrs, hinstrs]
    exact h.instrs
  · rw [results, Func.instrs, hinstrs]
    exact h.values

/-- A new parameter takes one number. -/
theorem param (name : String) (ty : Ty) : Distinct { f with
    params := f.params ++ [⟨⟨f.next.value⟩, name, ty⟩]
    next := { f.next with value := f.next.value + 1 } } := by
  refine ⟨h.blocks, h.instrs, h.values.cons (a := ⟨f.next.value⟩) ?_ rfl⟩
  rw [paramValues, List.map_append, List.append_assoc]
  exact List.perm_middle

theorem cut {index : Nat} {label : String} (hb : b ∈ f.blockIds) :
    (f.cut b index label).Distinct := by
  have hcut : (f.cut b index label).Orderly := h.orderly.cut hb
  have hinstrs : (f.cut b index label).instrs = f.instrs := Splittable.instrs_cut
  refine ⟨hcut.blocks, hcut.instrs, ?_⟩
  rw [results, hinstrs]
  exact h.values

theorem value (hb : b ∈ f.blockIds) (op : Op) (ty : Ty) :
    (f.widen b [f.next.emit op ty] f.next.step).Distinct := by
  have hwide := h.orderly.value hb op ty
  refine ⟨hwide.blocks, hwide.instrs, h.values.cons (a := ⟨f.next.value⟩) ?_ rfl⟩
  exact ((instrs_widen_perm h.blocks.nodup hb).filterMap _ |>.append_left _).trans List.perm_middle

theorem effect (hb : b ∈ f.blockIds) (op : Op) (ty : Ty) :
    (f.widen b [⟨⟨f.next.instr⟩, none, op, ty⟩]
      { f.next with instr := f.next.instr + 1 }).Distinct := by
  have hwide := h.orderly.effect hb op ty
  refine ⟨hwide.blocks, hwide.instrs, h.values.perm ?_⟩
  exact (instrs_widen_perm h.blocks.nodup hb).filterMap _ |>.append_left _

/-- A block that keeps its number, and some of its instructions. -/
theorem change {p : Block → Bool} {change : Block → Block} (hid : ∀ blk, (change blk).id = blk.id)
    (hnumbers : ∀ blk, ((change blk).instrs.map fun i => (i.id, i.result)).Sublist
      (blk.instrs.map fun i => (i.id, i.result))) :
    Distinct { f with blocks := mapFirst p change f.blocks } := by
  have hall : ((Func.instrs { f with blocks := mapFirst p change f.blocks }).map
      fun i => (i.id, i.result)).Sublist (f.instrs.map fun i => (i.id, i.result)) := by
    rw [Func.instrs, Func.instrs, List.map_flatMap, List.map_flatMap]
    exact flatMap_mapFirst_sublist hnumbers f.blocks
  refine ⟨?_, h.instrs.sublist ?_, h.values.sublist ?_⟩
  · rw [blockIds, map_mapFirst hid]
    exact h.blocks
  · simpa [Function.comp_def] using hall.map Prod.fst
  · refine (List.Sublist.refl _).append ?_
    simpa [results, List.filterMap_map, Function.comp_def] using hall.filterMap Prod.snd

end Distinct

/-! ### Growth -/

/-- The same function by name and by the way it is called. No counter falls, and what was distinct
stays distinct. -/
structure Grows (f g : Func) : Prop where
  name : g.name = f.name
  convention : g.convention = f.convention
  next : f.next ≤ g.next
  distinct : f.Distinct → g.Distinct

theorem Grows.refl (f : Func) : f.Grows f := ⟨rfl, rfl, le_rfl, id⟩

theorem Grows.trans (h : f.Grows g) (h' : g.Grows k) : f.Grows k :=
  ⟨h'.name.trans h.name, h'.convention.trans h.convention, h.next.trans h'.next,
    h'.distinct ∘ h.distinct⟩

end Func

namespace Edit

variable {ε ε' α β γ : Type} {e : Edit ε α} {k : α → Edit ε β}

/-- An edit that lets every function grow, whether it succeeds or fails. -/
def Grows (e : Edit ε α) : Prop := ∀ f : Func, f.Grows (e.apply f).2

theorem grows_pure (a : α) : (pure a : Edit ε α).Grows := Func.Grows.refl

theorem grows_throw (error : ε) : (throw error : Edit ε α).Grows := Func.Grows.refl

theorem grows_get : (get : Edit ε Func).Grows := Func.Grows.refl

theorem grows_liftExcept (result : Except ε α) : (liftExcept result : Edit ε α).Grows := by
  cases result with
  | ok a => exact grows_pure a
  | error cause => exact grows_throw cause

theorem grows_require (error : ε) (lookup : Func → Option α) : (require error lookup).Grows := by
  intro f
  rw [apply_require]
  cases lookup f <;> exact .refl f

/-- The second edit starts where the first one ended; if the first one fails, that is the end. -/
theorem Grows.bind (he : e.Grows) (hk : ∀ a, (k a).Grows) : (e >>= k).Grows := by
  intro f
  have hfirst := he f
  rw [apply_bind]
  split
  · next a g heq =>
    rw [heq] at hfirst
    exact hfirst.trans (hk a g)
  · next error g heq =>
    rw [heq] at hfirst
    exact hfirst

theorem Grows.adapt (he : e.Grows) (rename : ε → ε') : Edit.Grows (ExceptT.adapt rename e) := by
  intro f
  have hsame : (Edit.apply (ExceptT.adapt rename e) f).2 = (e.apply f).2 := by
    rw [apply_adapt]
    split <;> next heq => rw [heq]
  rw [hsame]
  exact he f

theorem composes_grows : Composes @Grows := ⟨grows_pure, Grows.bind, Grows.adapt⟩

/-! ### New numbers -/

theorem grows_freshBlock : (freshBlock : Edit ε BlockId).Grows := fun f =>
  have hnext : f.next ≤ { f.next with block := f.next.block + 1 } :=
    ⟨Nat.le_succ _, le_rfl, le_rfl⟩
  ⟨rfl, rfl, hnext, fun h => h.advance hnext⟩

theorem grows_freshValue : (freshValue : Edit ε ValueId).Grows := fun f =>
  have hnext : f.next ≤ { f.next with value := f.next.value + 1 } :=
    ⟨le_rfl, Nat.le_succ _, le_rfl⟩
  ⟨rfl, rfl, hnext, fun h => h.advance hnext⟩

theorem grows_freshInstr : (freshInstr : Edit ε InstrId).Grows := fun f =>
  have hnext : f.next ≤ { f.next with instr := f.next.instr + 1 } :=
    ⟨le_rfl, le_rfl, Nat.le_succ _⟩
  ⟨rfl, rfl, hnext, fun h => h.advance hnext⟩

theorem grows_createBlock (label : String) : (createBlock label : Edit ε BlockId).Grows := fun _ =>
  ⟨rfl, rfl, ⟨Nat.le_succ _, le_rfl, le_rfl⟩, fun h => h.append label⟩

theorem grows_addParam (name : String) (ty : Ty) : (addParam name ty : Edit ε ValueId).Grows :=
  fun _ => ⟨rfl, rfl, ⟨le_rfl, Nat.le_succ _, le_rfl⟩, fun h => h.param name ty⟩

/-! ### Changes of blocks -/

theorem grows_splitLabeled (b : BlockId) (index : Nat) (label : String) :
    (splitLabeled b index label).Grows := by
  intro f
  rcases splitLabeled_cases f b index label with ⟨e, he⟩ | ⟨blk, hb, hphis, hlen, hok⟩
  · rw [he]
    exact .refl f
  · rw [hok]
    refine ⟨rfl, rfl, ⟨Nat.le_succ _, le_rfl, le_rfl⟩, fun h => ?_⟩
    have hcut := hok.symm.trans (apply_splitLabeled h.blocks.nodup hb hphis hlen)
    rw [(Prod.mk.inj hcut).2]
    exact h.cut (Func.mem_blockIds_iff.2 ⟨blk, hb⟩)

theorem grows_split (b : BlockId) (index : Nat) : (split b index).Grows :=
  (grows_require _ _).bind fun _ => grows_splitLabeled _ _ _

/-- A change of one block that adds no instruction. -/
theorem grows_mapBlock (b : BlockId) {change : Block → Block}
    (hid : ∀ blk, (change blk).id = blk.id)
    (hnumbers : ∀ blk, ((change blk).instrs.map fun i => (i.id, i.result)).Sublist
      (blk.instrs.map fun i => (i.id, i.result))) :
    (modify (·.mapBlock b change) : Edit ε Unit).Grows :=
  fun _ => ⟨rfl, rfl, le_rfl, fun h => h.change hid hnumbers⟩

/-- A change of a definition that keeps its number and its result. -/
theorem grows_mapDefinition (v : ValueId) {change : Instr → Instr}
    (hchange : ∀ i, ((change i).id, (change i).result) = (i.id, i.result)) :
    (modify (·.mapDefinition v change) : Edit ε Unit).Grows := by
  refine fun f => ⟨rfl, rfl, le_rfl, fun h => h.change (fun _ => rfl) fun blk => ?_⟩
  rw [map_mapFirst hchange]

theorem grows_addIncoming (phi : ValueId) (source : BlockId) (value : ValueId) :
    (addIncoming phi source value).Grows := by
  refine (grows_require _ _).bind fun i => ?_
  cases i.op with
  | phi incoming => exact grows_mapDefinition _ fun _ => rfl
  | _ => exact grows_throw _

theorem grows_remove (i : InstrId) : (remove i).Grows := by
  refine (grows_require _ _).bind fun ⟨b, index⟩ => (grows_require _ _).bind fun j => ?_
  refine Grows.bind (grows_mapBlock b (fun _ => rfl) fun blk => ?_) fun _ => grows_pure j
  exact (List.eraseIdx_sublist blk.instrs index).map _

end Edit

/-! ### Emitting -/

namespace Emit

theorem grows_value (b : BlockId) (op : Op) (ty : Ty) : (value b op ty).Grows := by
  intro f
  by_cases hb : b ∈ f.blockIds
  · rw [apply_value hb]
    refine ⟨rfl, rfl, ⟨le_rfl, Nat.le_succ _, Nat.le_succ _⟩, fun h => ?_⟩
    rw [Func.push_eq_widen h.blocks.nodup]
    exact h.value hb op ty
  · rw [value, apply_checkBlock_bind hb]
    exact .refl f

theorem grows_effect (b : BlockId) (op : Op) : (effect b op).Grows := by
  intro f
  unfold effect
  by_cases hb : b ∈ f.blockIds
  · rw [apply_push hb]
    refine ⟨rfl, rfl, ⟨le_rfl, le_rfl, Nat.le_succ _⟩, fun h => ?_⟩
    rw [Func.push_eq_widen h.blocks.nodup]
    exact h.effect hb op .void
  · rw [push, apply_checkBlock_bind hb]
    exact .refl f

theorem grows_terminator (b : BlockId) (t : Terminator) : (terminator b t).Grows :=
  Edit.Grows.bind ((Edit.grows_require _ _).bind fun _ => Edit.grows_pure ()) fun _ =>
    Edit.grows_mapBlock b (fun _ => rfl) fun _ => List.Sublist.refl _

end Emit

/-! ### The lowering -/

theorem grows_closePhi (induction : ValueId) (tail : BlockId) (next : ValueId) :
    (closePhi induction tail next).Grows :=
  Edit.grows_get.bind fun _ => (Edit.grows_addIncoming _ _ _).adapt _

theorem stepwise_grows : Edit.Stepwise @Edit.Grows where
  toComposes := Edit.composes_grows
  locate _ _ := Edit.grows_require _ _
  split := Edit.grows_split
  splitLabeled := Edit.grows_splitLabeled
  value := Emit.grows_value
  effect := Emit.grows_effect
  terminator := Emit.grows_terminator
  closePhi := grows_closePhi
  remove := Edit.grows_remove

theorem Plan.grows_buildRegions (plan : Plan) : plan.buildRegions.Grows :=
  stepwise_grows.buildRegions plan fun _ _ => Edit.grows_get.bind fun _ => Edit.grows_liftExcept _

theorem grows_lowerKernel (config : Config) : (lowerKernel config).Grows := by
  refine Edit.grows_get.bind fun f => ?_
  cases f.plan config with
  | error reason => exact Edit.grows_pure _
  | ok plan =>
    exact (stepwise_grows.carryOut plan config plan.grows_buildRegions).bind fun _ =>
      Edit.grows_pure _

/-! ### The interface -/

/-- A call that puts an instruction at the end of a block, or closes the block. -/
inductive BuilderCall
  | const (c : Const) (ty : Ty)
  | int (n : Int) (ty : Ty)
  | i32 (n : Int)
  | bool (c : Bool)
  | binary (op : BinOp) (left right : ValueId) (ty : Ty)
  | add (left right : ValueId) (ty : Ty)
  | and (left right : ValueId) (ty : Ty)
  | eq (left right : ValueId)
  | slt (left right : ValueId)
  | uge (left right : ValueId)
  | call (callee : String) (args : List ValueId) (ty : Ty)
  | callVoid (callee : String) (args : List ValueId)
  | load (ptr : ValueId) (ty : Ty)
  | store (ptr v : ValueId)
  | alloca (ty : Ty)
  | elementPtr (base index : ValueId) (element : Ty)
  | cast (v : ValueId) (target : Ty)
  | phi (incoming : List (BlockId × ValueId)) (ty : Ty)
  | ret (v : Option ValueId)
  | branch (target : BlockId)
  | condBranch (condition : ValueId) (onTrue onFalse : BlockId)
  | switch (v : ValueId) (otherwise : BlockId) (cases : List (Int × BlockId))

/-- What a call does to the block `b`. -/
def BuilderCall.edit (b : BlockId) : BuilderCall → Edit EditError Unit
  | .const c ty => discard (Emit.const b c ty)
  | .int n ty => discard (Emit.int b n ty)
  | .i32 n => discard (Emit.i32 b n)
  | .bool c => discard (Emit.bool b c)
  | .binary op left right ty => discard (Emit.binary b op left right ty)
  | .add left right ty => discard (Emit.add b left right ty)
  | .and left right ty => discard (Emit.and b left right ty)
  | .eq left right => discard (Emit.eq b left right)
  | .slt left right => discard (Emit.slt b left right)
  | .uge left right => discard (Emit.uge b left right)
  | .call callee args ty => discard (Emit.call b callee args ty)
  | .callVoid callee args => discard (Emit.callVoid b callee args)
  | .load ptr ty => discard (Emit.load b ptr ty)
  | .store ptr v => discard (Emit.store b ptr v)
  | .alloca ty => discard (Emit.alloca b ty)
  | .elementPtr base index element => discard (Emit.elementPtr b base index element)
  | .cast v target => discard (Emit.cast b v target)
  | .phi incoming ty => discard (Emit.phi b incoming ty)
  | .ret v => Emit.ret b v
  | .branch target => Emit.branch b target
  | .condBranch condition onTrue onFalse => Emit.condBranch b condition onTrue onFalse
  | .switch v otherwise cases => Emit.switch b v otherwise cases

/-- A call of the interface. -/
inductive Operation
  | addParam (name : String) (ty : Ty)
  | createBlock (label : String)
  | freshBlock
  | freshValue
  | freshInstr
  | build (b : BlockId) (call : BuilderCall)
  | split (b : BlockId) (index : Nat)
  | splitLabeled (b : BlockId) (index : Nat) (label : String)
  | addIncoming (phi : ValueId) (source : BlockId) (value : ValueId)
  | remove (instr : InstrId)
  | buildRegions (plan : Plan)
  | wrap (region : Region) (guard : TurnGuard) (plan : Plan)
  | lower (config : Config)

/-- What a call does to a function. -/
def Operation.edit : Operation → Edit LoweringError Unit
  | .addParam name ty => discard (Edit.addParam name ty)
  | .createBlock label => discard (Edit.createBlock label)
  | .freshBlock => discard Edit.freshBlock
  | .freshValue => discard Edit.freshValue
  | .freshInstr => discard Edit.freshInstr
  | .build b call => Edit.lift (call.edit b)
  | .split b index => discard (Edit.lift (Edit.split b index))
  | .splitLabeled b index label => discard (Edit.lift (Edit.splitLabeled b index label))
  | .addIncoming phi source value => Edit.lift (Edit.addIncoming phi source value)
  | .remove instr => discard (Edit.lift (Edit.remove instr))
  | .buildRegions plan => discard plan.buildRegions
  | .wrap region guard plan => discard (region.wrap guard plan)
  | .lower config => discard (lowerKernel config)

theorem BuilderCall.grows (b : BlockId) (call : BuilderCall) : (call.edit b).Grows := by
  cases call with
  | callVoid | store => exact Edit.composes_grows.discard (Emit.grows_effect _ _)
  | ret | branch | condBranch | switch => exact Emit.grows_terminator _ _
  | _ => exact Edit.composes_grows.discard (Emit.grows_value _ _ _)

/-- Every call lets a function grow, whether it succeeds or fails. -/
theorem Operation.grows (op : Operation) : op.edit.Grows := by
  have h := Edit.composes_grows
  cases op with
  | addParam name ty => exact h.discard (Edit.grows_addParam name ty)
  | createBlock label => exact h.discard (Edit.grows_createBlock label)
  | freshBlock => exact h.discard Edit.grows_freshBlock
  | freshValue => exact h.discard Edit.grows_freshValue
  | freshInstr => exact h.discard Edit.grows_freshInstr
  | build b call => exact h.lift (call.grows b)
  | split b index => exact h.discard (h.lift (Edit.grows_split b index))
  | splitLabeled b index label => exact h.discard (h.lift (Edit.grows_splitLabeled b index label))
  | addIncoming phi source value => exact h.lift (Edit.grows_addIncoming phi source value)
  | remove instr => exact h.discard (h.lift (Edit.grows_remove instr))
  | buildRegions plan => exact h.discard plan.grows_buildRegions
  | wrap region guard plan => exact h.discard (stepwise_grows.wrap region guard plan)
  | lower config => exact h.discard (grows_lowerKernel config)

namespace Func

/-- Make calls one after another. A call that fails leaves what it did before it failed, and the
next call goes on from there. -/
def perform (f : Func) (ops : List Operation) : Func :=
  ops.foldl (fun f op => (op.edit.apply f).2) f

theorem grows_perform (f : Func) (ops : List Operation) : f.Grows (f.perform ops) := by
  induction ops generalizing f with
  | nil => exact .refl f
  | cons op ops ih => exact (op.grows f).trans (ih _)

/-- **Fresh identifiers stay fresh.**  Begin with a new function and make any calls, in any order
and with any arguments, calls that fail half way among them. Then the blocks have distinct numbers,
and so have the instructions, and the parameters together with the results; all of them are below
the counters. Whatever calls come next, no counter falls. -/
theorem distinct_perform (name : String) (convention : Convention) (returnTy : Ty)
    (ops ops' : List Operation) :
    ((empty name convention returnTy).perform ops).Distinct ∧
      ((empty name convention returnTy).perform ops).next ≤
        (((empty name convention returnTy).perform ops).perform ops').next :=
  ⟨(grows_perform _ ops).distinct (distinct_empty name convention returnTy),
    (grows_perform _ ops').next⟩

end Func

end BarrierLowering
