import BarrierLowering.Proofs.Isolate
import BarrierLowering.Proofs.Sequence
import BarrierLowering.Proofs.Verifier
import Mathlib.Data.List.Forall2

/-!
# The regions of a planned kernel

The group queries and the barriers of a planned kernel can always be moved to blocks of their
own, and the regions between them can always be read off.

## Main definitions

* `Func.IsRegion`, `Func.Linked` — a region, and regions in a row.
* `Func.Divided` — a kernel whose barriers are in blocks of their own.
* `Func.QueriesApart` — where the instructions of the entry block are then.

## Main results

* `Block.findQueries_eq_ok` — where the group queries stand.
* `Plan.apply_buildRegions` — a planned kernel can be divided into its regions.
-/

namespace BarrierLowering

/-! ### Where the group queries stand -/

/-- A call that means something is no phi node. -/
theorem Instr.isPhi_of_kind {rule : NameRule} {i : Instr} (h : i.kind rule ≠ .other) :
    i.isPhi = false := by
  cases hop : i.op <;> simp_all [Instr.kind, Instr.callee, Instr.isPhi]

namespace Block

variable {rule : NameRule} {kind : CallKind} {entry : Block} {q : Query} {queries : Queries}

/-- The last query of a kind is an instruction of that kind with a result. -/
theorem lastQuery?_eq_some (h : entry.lastQuery? rule kind = some q) :
    ∃ pre i post, entry.instrs = pre ++ i :: post ∧ pre.length = q.pos ∧ i.id = q.instr ∧
      i.result = some q.value ∧ i.kind rule = kind ∧ i.ty = q.ty := by
  obtain ⟨⟨i, pos⟩, hmem, heq⟩ := List.mem_filterMap.1 (List.mem_of_getLast? h)
  obtain ⟨pre, post, hsplit, hlen⟩ := Func.mem_zipIdx_iff_split.1 hmem
  dsimp only at heq
  split at heq
  · next v hv =>
    split at heq
    · next hkind =>
      cases heq
      exact ⟨pre, i, post, hsplit, hlen, rfl, hv, hkind, rfl⟩
    · cases heq
  · cases heq

/-- The instructions in front of the last query of the rank. -/
def ahead (rule : NameRule) (entry : Block) : List Instr :=
  entry.instrs.take ((entry.lastQuery? rule .threadRank).elim 0 (·.pos))

theorem ahead_eq {pre post : List Instr} (h : entry.lastQuery? rule .threadRank = some q)
    (hsplit : entry.instrs = pre ++ post) (hlen : pre.length = q.pos) : entry.ahead rule = pre := by
  rw [ahead, h, hsplit]
  exact List.take_left' hlen

/-- Of two cuts of a list, the first part of the longer one goes on from the shorter one. -/
theorem exists_between {α : Type} {p q p' q' : List α} {a a' : α}
    (h : p ++ a :: q = p' ++ a' :: q') (hlt : p.length < p'.length) :
    ∃ mid, p' = p ++ a :: mid ∧ q = mid ++ a' :: q' := by
  rcases append_eq_append_cons h.symm with ⟨mid, rfl, -⟩ | ⟨mid, hp, hq⟩
  · rw [List.length_append] at hlt
    omega
  · exact ⟨mid, hp, hq⟩

/-- The group queries run from the last query of the rank up to the anchor, and no barrier comes
before. -/
theorem findQueries_eq_ok (h : entry.findQueries rule = .ok queries) :
    ∃ pre ys y post x, entry.instrs = pre ++ (ys ++ y :: post) ∧ (ys ++ [y]).head? = some x ∧
      x.id = queries.rankQuery ∧ y.id = queries.anchor ∧
      x.result = some queries.rank ∧ x.kind rule = .threadRank ∧
      (∃ s ∈ pre ++ (ys ++ [y]), s.result = some queries.size ∧ s.kind rule = .groupSize) ∧
      (∀ i ∈ pre ++ (ys ++ [y]), i.kind rule ≠ .barrier) ∧ entry.ahead rule = pre := by
  unfold findQueries at h
  split at h
  · cases h
  · cases h
  · next rank size hrank hsize =>
    obtain ⟨pre, x, post, hx, hpre, hid, hres, hkind, -⟩ := lastQuery?_eq_some hrank
    obtain ⟨pre', s, post', hs, hpre', hid', hres', hkind', -⟩ := lastQuery?_eq_some hsize
    dsimp only at h
    generalize hanchor : (if rank.pos < size.pos then size else rank) = anchor at h
    split at h
    · cases h
    · next hfind =>
      cases h
      rw [List.find?_eq_none] at hfind
      have hquiet : ∀ {is : List Instr} {i : Instr} {js : List Instr},
          entry.instrs = is ++ i :: js → i.kind rule ≠ .barrier →
          is.length = anchor.pos →
          ∀ j ∈ is ++ [i], j.kind rule ≠ .barrier := by
        intro is i js hsplit hi hlen j hj
        rcases List.mem_append.1 hj with hj | hj
        · refine fun hbar => hfind j ?_ (decide_eq_true hbar)
          rwa [← hlen, hsplit, List.take_left]
        · rwa [List.mem_singleton.1 hj]
      by_cases hlt : rank.pos < size.pos
      · -- the run goes from the rank query to the size query
        obtain ⟨mid, rfl, rfl⟩ := exists_between (hx.symm.trans hs) (hpre ▸ hpre' ▸ hlt)
        refine ⟨pre, x :: mid, s, post', x, hx, rfl, hid, ?_, hres, hkind,
          ⟨s, by simp, hres', hkind'⟩,
          fun i hi => hquiet hs (by rw [hkind']; exact nofun) ?_ i (by simpa using hi),
          ahead_eq hrank hx hpre⟩
        · rw [← hanchor, if_pos hlt, hid']
        · rw [hpre', ← hanchor, if_pos hlt]
      · have hne : pre'.length ≠ pre.length := by
          intro hlen
          obtain ⟨-, htail⟩ := List.append_inj (hs.symm.trans hx) hlen
          rw [(List.cons.inj htail).1, hkind] at hkind'
          cases hkind'
        obtain ⟨mid, rfl, -⟩ := exists_between (hs.symm.trans hx) (by omega)
        refine ⟨_, [], x, post, x, hx, rfl, hid, ?_, hres, hkind, ⟨s, by simp, hres', hkind'⟩,
          hquiet hx (by rw [hkind]; exact nofun) ?_, ahead_eq hrank hx hpre⟩
        · rw [← hanchor, if_neg hlt, hid]
        · rw [hpre, ← hanchor, if_neg hlt]

end Block

/-! ### Isolating the barriers -/

/-- An edit whose errors are renamed. -/
theorem Edit.apply_adapt {ε ε' α : Type} (rename : ε → ε') (e : Edit ε α) (f : Func) :
    Edit.apply (ExceptT.adapt rename e) f =
      match e.apply f with
      | (.ok a, g) => (.ok a, g)
      | (.error cause, g) => (.error (rename cause), g) := by
  unfold Edit.apply
  rw [ExceptT.run_adapt]
  show (Except.mapError rename (e.apply f).1, (e.apply f).2) = _
  unfold Edit.apply
  rcases (ExceptT.run e).run f with ⟨_ | _, _⟩ <;> rfl

/-- An edit that may fail with an error of the lowering. -/
theorem Edit.apply_lift {α : Type} (e : Edit EditError α) (f : Func) : (lift e).apply f =
    match e.apply f with
    | (.ok a, g) => (.ok a, g)
    | (.error cause, g) => (.error (.edit cause), g) := by
  rw [lift, apply_adapt]
  rcases e.apply f with ⟨_ | _, _⟩ <;> rfl

/-- Of two edits in a row, the second starts where the first one succeeded. -/
theorem Edit.apply_bind_ok {ε α β : Type} {e : Edit ε α} {k : α → Edit ε β} {f g : Func} {a : α}
    (h : e.apply f = (.ok a, g)) : (e >>= k).apply f = (k a).apply g := by
  rw [apply_bind, h]

theorem Edit.apply_lift_ok {α : Type} {e : Edit EditError α} {f g : Func} {a : α}
    (h : e.apply f = (.ok a, g)) : (lift e).apply f = (.ok a, g) := by
  rw [apply_lift, h]

/-- A home holds one instruction, which has the given identifier and is no phi node. -/
def Home.Holds (i : InstrId) (h : Home) : Prop := ∃ x, x.id = i ∧ x.isPhi = false ∧ h.instrs = [x]

open Func in
/-- Isolating one barrier after another succeeds. -/
theorem Edit.apply_isolateAll : ∀ (rest : List InstrId) (f : Func) (hs : List Home), f.Shaped →
    f.Numbered → f.Apart hs → rest.Nodup →
    (∀ i ∈ rest, ∃ x ∈ f.instrs, x.id = i ∧ x.isPhi = false ∧ ∀ h ∈ hs, x ∉ h.instrs) →
    ∃ g homes,
      (rest.mapM fun i => lift (isolate i i "cg.sync")).apply f = (.ok (homes.map (·.block)), g) ∧
      f.Cuts g ∧ g.Apart (hs ++ homes) ∧
      List.Forall₂ Home.Holds rest homes ∧
      ∀ e eblk, f.block? e = some eblk → (∀ x ∈ eblk.instrs, x.id ∉ rest) →
        (∃ t, g.block? e = some { eblk with term := t }) ∧
          (f.entryId? = some e → g.entryId? = some e) := by
  intro rest
  induction rest with
  | nil =>
    intro f hs hshape hn hapart _ _
    refine ⟨f, [], rfl, .refl, ?_, .nil, fun e eblk he _ => ⟨⟨eblk.term, he⟩, fun h => h⟩⟩
    rwa [List.append_nil]
  | cons i rest ih =>
    intro f hs hshape hn hapart hnd hall
    obtain ⟨hi, hrest⟩ := List.nodup_cons.1 hnd
    obtain ⟨x, hx, rfl, hphi, hnot⟩ := hall i List.mem_cons_self
    obtain ⟨blk, hblk, hxblk⟩ := List.mem_flatMap.1 hx
    obtain ⟨pre, post, hsplit⟩ := List.append_of_mem hxblk
    have hb := block?_id hshape.blocks_nodup hblk
    have hne : ∀ h ∈ hs, h.block ≠ blk.id := by
      intro h hmem heq
      obtain ⟨back, hback⟩ := hapart.isolated h hmem
      obtain ⟨label, hhome⟩ := hback.block
      rw [heq, hb] at hhome
      rw [Option.some.inj hhome] at hxblk
      exact hnot h hmem hxblk
    obtain ⟨label, blk', h₁, h₂, htake, happly⟩ := apply_isolate "cg.sync" hshape hn hb
      (show blk.instrs = pre ++ ([] ++ x :: post) from hsplit) rfl hphi
    have hapart₁ := htake ▸ hapart.snoc "cg.sync" hne h₁ h₂
    -- the other barriers are not in the new home
    have hall₁ : ∀ j ∈ rest, ∃ y ∈ ((f.cut blk.id pre.length label).cut blk.id 1 "cg.sync").instrs,
        y.id = j ∧ y.isPhi = false ∧
          ∀ h ∈ hs ++ [⟨f.fresh, (f.cut blk.id pre.length label).fresh, [x]⟩],
          y ∉ h.instrs := by
      intro j hj
      obtain ⟨y, hy, rfl, hyphi, hynot⟩ := hall j (List.mem_cons_of_mem _ hj)
      refine ⟨y, ?_, rfl, hyphi, fun h hmem => ?_⟩
      · rwa [Splittable.instrs_cut, Splittable.instrs_cut]
      · rcases List.mem_append.1 hmem with hmem | hmem
        · exact hynot h hmem
        · rw [List.mem_singleton.1 hmem, List.mem_singleton]
          exact fun heq => hi (heq ▸ hj)
    obtain ⟨g, homes, hmapM, hcuts, hapart', hkeys, hentry⟩ :=
      ih _ _ h₂.shaped_cut h₂.numbered_cut hapart₁ hrest hall₁
    refine ⟨g, _ :: homes, ?_, ((Cuts.refl.step _ h₁).step _ h₂).trans hcuts,
      List.append_cons hs _ homes ▸ hapart', .cons ⟨x, rfl, hphi, rfl⟩ hkeys,
        fun e eblk he hquiet => ?_⟩
    · rw [List.mapM_cons, apply_bind, apply_lift, happly]
      dsimp only
      rw [apply_bind, hmapM]
      rfl
    · have hne : e ≠ blk.id := by
        rintro rfl
        rw [hb] at he
        cases he
        exact hquiet x hxblk List.mem_cons_self
      obtain ⟨hblock, hstart⟩ := hentry e _ (h₂.block?_of_ne hne (h₁.block?_of_ne hne he))
        fun y hy hmem => hquiet y hy (List.mem_cons_of_mem _ hmem)
      refine ⟨hblock, fun hentry₀ => hstart ?_⟩
      rw [h₂.entryId?_eq, h₁.entryId?_eq, hentry₀, Option.map_some, if_neg hne, Option.map_some,
        if_neg hne]

/-! ### Reading the regions off -/

namespace Func

variable {f : Func} {b p : BlockId} {first : Home} {homes : List Home} {keys : List InstrId}

/-- A region has one edge into it and one edge out of it, and no phi nodes behind them. -/
structure IsRegion (f : Func) (r : Region) : Prop where
  leaves : ∀ c, f.graph.Edge r.pred c ↔ c = r.start
  enters : ∀ a, f.graph.Edge a r.start ↔ a = r.pred
  closes : ∀ a, f.graph.Edge a r.succ ↔ a = r.exit
  plain_start : ∀ blk, f.block? r.start = some blk → ∀ i ∈ blk.instrs, i.isPhi = false
  plain_succ : ∀ blk, f.block? r.succ = some blk → ∀ i ∈ blk.instrs, i.isPhi = false
  start_ne_succ : r.start ≠ r.succ

/-- Regions in a row, each of which begins where the one before it ended. -/
inductive Linked (f : Func) : BlockId → List Region → Prop
  | nil {b : BlockId} : Linked f b []
  | cons {r : Region} {rs : List Region} :
      f.IsRegion r → Linked f r.succ rs → Linked f r.pred (r :: rs)

theorem IsRegion.linked {r : Region} {rs : List Region} (h : f.IsRegion r)
    (hrs : f.Linked r.succ rs) : f.Linked r.pred (r :: rs) :=
  .cons h hrs

theorem successors_eq_singleton {label : String} {is : List Instr}
    (h : f.block? b = some ⟨b, label, is, .branch p⟩) :
    f.successors b = [p] :=
  successors_eq_targets h (List.nodup_singleton p)

theorem predecessors_eq_singleton (hids : f.blockIds.Nodup)
    (h : ∀ a, f.graph.Edge a b ↔ a = p) : f.predecessors b = [p] :=
  List.perm_singleton.1 (predecessors_perm_of_edge hids (List.nodup_singleton p) fun a =>
    (h a).trans List.mem_singleton.symm)

theorem Apart.tail {h : Home} {hs : List Home} (h' : f.Apart (h :: hs)) : f.Apart hs := by
  refine ⟨fun g hg => h'.isolated g (List.mem_cons_of_mem _ hg), ?_, fun g hg g' hg' =>
    h'.fronts g (List.mem_cons_of_mem _ hg) g' (List.mem_cons_of_mem _ hg')⟩
  exact (List.nodup_cons.1 h'.nodup).2

/-- The regions between homes can be read off. -/
theorem regionsFrom_eq_ok (hids : f.blockIds.Nodup) (h : f.Apart (first :: homes))
    (hkeys : List.Forall₂ Home.Holds keys homes) :
    ∃ regions, f.regionsFrom first.block (keys.zip (homes.map (·.block))) = .ok regions ∧
      f.Linked first.block regions ∧ regions.map (·.succ) = homes.map (·.block) ∧
      regions.map (·.key) = keys ∧
      ∀ r ∈ regions, ∃ home ∈ homes, r.succ = home.block ∧ r.exit = home.front ∧
        home.Holds r.key := by
  induction hkeys generalizing first with
  | nil => exact ⟨[], rfl, .nil, rfl, rfl, nofun⟩
  | @cons key home keys homes hholds _ ih =>
    obtain ⟨start, hfirst⟩ := h.isolated first List.mem_cons_self
    obtain ⟨back, hhome⟩ := h.isolated home (List.mem_cons_of_mem _ List.mem_cons_self)
    obtain ⟨regions, hregions, hlinked, hsuccs, hkeys, hhomes⟩ := ih h.tail
    obtain ⟨label, hblk⟩ := hfirst.block
    obtain ⟨label', hblk'⟩ := hhome.block
    have hne : start ≠ home.block := by
      rintro rfl
      have hfront : first.block = home.front := (hhome.entered _).1 ((hfirst.left _).2 rfl)
      exact h.fronts home (List.mem_cons_of_mem _ List.mem_cons_self) first List.mem_cons_self
        hfront.symm
    have hregion : f.region first.block key home.block =
        .ok ⟨key, first.block, start, home.front, home.block⟩ := by
      rw [region, successors_eq_singleton hblk]
      dsimp only
      rw [predecessors_eq_singleton hids hfirst.left,
        predecessors_eq_singleton hids hhome.entered]
      simp
    have hisRegion : f.IsRegion ⟨key, first.block, start, home.front, home.block⟩ := by
      refine ⟨fun c => ?_, hfirst.left, hhome.entered, hfirst.plain, fun blk hsucc => ?_, hne⟩
      · rw [Func.edge_iff]
        simp [hblk, Terminator.targets]
      · obtain ⟨x, -, hphi, hinstrs⟩ := hholds
        rw [hblk', hinstrs] at hsucc
        cases hsucc
        intro i hi
        rwa [List.mem_singleton.1 hi]
    refine ⟨⟨key, first.block, start, home.front, home.block⟩ :: regions, ?_,
      hisRegion.linked hlinked, ?_, ?_, fun r hr => ?_⟩
    · rw [List.map_cons, List.zip_cons_cons, regionsFrom, hregion]
      dsimp only
      rw [hregions]
      rfl
    · rw [List.map_cons, hsuccs, List.map_cons]
    · rw [List.map_cons, hkeys]
    · rcases List.mem_cons.1 hr with rfl | hr
      · exact ⟨home, List.mem_cons_self, rfl, rfl, hholds⟩
      · obtain ⟨h', hmem, hr⟩ := hhomes r hr
        exact ⟨h', List.mem_cons_of_mem _ hmem, hr⟩

/-- A kernel whose group queries and barriers are in blocks of their own, with regions in
between. Control enters through the block `front` and goes on to the group queries in the block
`first`. -/
structure Divided (f : Func) (rule : NameRule) (plan : Plan) (front first : BlockId)
    (regions : List Region) : Prop where
  entry : f.entryId? = some front
  ahead : ∀ c, f.graph.Edge front c ↔ c = first
  entered : ∀ a, f.graph.Edge a first ↔ a = front
  linked : f.Linked first regions
  succs_nodup : (first :: regions.map (·.succ)).Nodup
  front_not_mem : front ∉ first :: regions.map (·.succ)
  exits : ∀ r ∈ regions, r.exit ∉ first :: regions.map (·.succ)
  keys : regions.map (·.key) = plan.barriers
  anchored : ∃ label ys y back, f.block? first = some ⟨first, label, ys ++ [y], .branch back⟩ ∧
    y.id = plan.anchor
  holds : ∀ r ∈ regions, ∃ label x back,
    f.block? r.succ = some ⟨r.succ, label, [x], .branch back⟩ ∧ x.id = r.key
  rank : ∃ i ∈ f.instrsOf first, i.result = some plan.rank ∧ i.kind rule = .threadRank
  size : ∃ i ∈ f.instrsOf front ++ f.instrsOf first,
    i.result = some plan.size ∧ i.kind rule = .groupSize

/-- If the group queries and the barriers have homes, the regions between them can be read off. -/
theorem Apart.divided {rule : NameRule} {plan : Plan} {front first : BlockId} {ys : List Instr}
    {y : Instr} (h : f.Apart (⟨front, first, ys ++ [y]⟩ :: homes)) (hids : f.blockIds.Nodup)
    (hholds : List.Forall₂ Home.Holds plan.barriers homes) (hentry : f.entryId? = some front)
    (hanchor : y.id = plan.anchor)
    (hrank : ∃ i ∈ ys ++ [y], i.result = some plan.rank ∧ i.kind rule = .threadRank)
    (hsize : ∃ i ∈ f.instrsOf front ++ (ys ++ [y]),
      i.result = some plan.size ∧ i.kind rule = .groupSize) :
    ∃ regions, f.regionsFrom first (plan.barriers.zip (homes.map (·.block))) = .ok regions ∧
      f.Divided rule plan front first regions := by
  obtain ⟨regions, hregions, hlinked, hsuccs, hkeys, hhomes⟩ := regionsFrom_eq_ok hids h hholds
  obtain ⟨back, hfirst⟩ := h.isolated _ List.mem_cons_self
  obtain ⟨label, hblock⟩ := hfirst.block
  have hsuccs' : ∀ b ∈ first :: regions.map (·.succ), ∃ home,
      home ∈ ⟨front, first, ys ++ [y]⟩ :: homes ∧ home.block = b := by
    intro b hb
    rw [hsuccs] at hb
    exact List.mem_map.1 hb
  refine ⟨regions, hregions, hentry, hfirst.ahead, hfirst.entered, hlinked, ?_, ?_, ?_, hkeys,
    ⟨label, ys, y, back, hblock, hanchor⟩, ?_, ?_, ?_⟩
  · rw [hsuccs]
    exact h.nodup
  · intro hmem
    obtain ⟨home, hhome, hblk⟩ := hsuccs' _ hmem
    exact h.fronts _ List.mem_cons_self home hhome hblk.symm
  · intro r hr hmem
    obtain ⟨home, hhome, hblk⟩ := hsuccs' _ hmem
    obtain ⟨home', hhome', -, hexit, -⟩ := hhomes r hr
    exact h.fronts home' (List.mem_cons_of_mem _ hhome') home hhome (hexit.symm.trans hblk.symm)
  · intro r hr
    obtain ⟨home, hhome, hsucc, -, z, hz, -, hinstrs⟩ := hhomes r hr
    obtain ⟨back', hiso⟩ := h.isolated home (List.mem_cons_of_mem _ hhome)
    obtain ⟨label', hblk⟩ := hiso.block
    exact ⟨label', z, back', by rw [hsucc, hblk, hinstrs], hz⟩
  · rwa [instrsOf_of_block? hblock]
  · rwa [instrsOf_of_block? hblock]

/-- Where the instructions of the entry block are in a divided kernel: what stood ahead of the group
queries is in the block `front`, and the group queries are in the block `first`. -/
structure QueriesApart (f : Func) (rule : NameRule) (plan : Plan) (front first : BlockId)
    (entry : Block) : Prop where
  ahead : f.instrsOf front = entry.ahead rule
  queries : f.instrsOf front ++ f.instrsOf first <+: entry.instrs
  rankQuery : (f.instrsOf first).head?.map (·.id) = some plan.rankQuery
  anchor : (f.instrsOf first).getLast?.map (·.id) = some plan.anchor

end Func

/-- Nothing is isolated at first. -/
theorem Func.apart_nil (f : Func) : f.Apart [] :=
  ⟨nofun, List.nodup_nil, nofun⟩

open Func in
/-- A drafted kernel can be divided into its regions. -/
theorem Plan.apply_buildRegions {f : Func} {config : Config} {plan : Plan} (hshape : f.Shaped)
    (hn : f.Numbered) (hdraft : f.draft config = .ok plan) :
    ∃ g front first regions, plan.buildRegions.apply f = (.ok regions, g) ∧ f.Cuts g ∧
      g.Divided config.nameRule plan front first regions ∧
      ∃ entry, f.entry? = some entry ∧ g.QueriesApart config.nameRule plan front first entry := by
  have hord := inOrder_of_draft hshape.blocks_nodup hdraft
  obtain ⟨entry, -, hentry, -, hqueries, -⟩ := draft_eq_ok hdraft
  obtain ⟨pre, ys, y, post, x, hsplit, hx, hxid, hyid, hrank, hrankKind, hsize, hquiet, hahead⟩ :=
    Block.findQueries_eq_ok hqueries
  have hmem : entry ∈ f.blocks := List.mem_of_mem_head? hentry
  have hb := block?_id hshape.blocks_nodup hmem
  have hphi : x.isPhi = false := Instr.isPhi_of_kind (by rw [hrankKind]; exact nofun)
  obtain ⟨label, blk', h₁, h₂, htake, happly⟩ := Edit.apply_isolate "cg.init" hshape hn hb hsplit hx
    hphi
  -- no barrier is among the queries, so each gets a home of its own
  have hall : ∀ i ∈ plan.barriers,
      ∃ z ∈ ((f.cut entry.id pre.length label).cut entry.id (ys.length + 1) "cg.init").instrs,
        z.id = i ∧ z.isPhi = false ∧ ∀ home ∈
          ([] ++ [⟨f.fresh, (f.cut entry.id pre.length label).fresh, ys ++ [y]⟩] : List Home),
          z ∉ home.instrs := by
    intro i hi
    obtain ⟨z, hz, hzid, hkind⟩ := hord.exists_barrier hi
    refine ⟨z, ?_, hzid, Instr.isPhi_of_kind (by rw [hkind]; exact nofun), fun home hhome hzh => ?_⟩
    · rwa [Splittable.instrs_cut, Splittable.instrs_cut]
    · rw [List.nil_append, List.mem_singleton] at hhome
      subst hhome
      exact hquiet z (List.mem_append_right _ hzh) hkind
  obtain ⟨g, homes, hmapM, hcuts, hapart, hholds, hkeep⟩ := Edit.apply_isolateAll plan.barriers _ _
    h₂.shaped_cut h₂.numbered_cut (htake ▸ f.apart_nil.snoc "cg.init" nofun h₁ h₂)
    (hord.nodup hn.instrs_nodup) hall
  have hcuts' : f.Cuts g := ((Cuts.refl.step _ h₁).step _ h₂).trans hcuts
  replace hapart : g.Apart
      (⟨f.fresh, (f.cut entry.id pre.length label).fresh, ys ++ [y]⟩ :: homes) := hapart
  -- what stood in front of the queries is in the new entry
  have hfront : ((f.cut entry.id pre.length label).cut entry.id (ys.length + 1) "cg.init").block?
      f.fresh = _ := h₂.block?_of_ne h₁.ne_fresh.symm h₁.block?_fresh
  have hpre : entry.instrs.take pre.length = pre := by rw [hsplit, List.take_left]
  rw [hpre] at hfront
  have hother : ∀ z ∈ pre, z.id ∉ plan.barriers := by
    intro z hz
    refine hord.id_not_mem hn.instrs_nodup (List.mem_flatMap.2 ⟨entry, hmem, ?_⟩)
      (hquiet z (List.mem_append_left _ hz))
    rw [hsplit]
    exact List.mem_append_left _ hz
  obtain ⟨⟨t, hfront'⟩, hstart⟩ := hkeep f.fresh _ hfront hother
  have hentry' : g.entryId? = some f.fresh := by
    refine hstart ?_
    rw [h₂.entryId?_eq, h₁.entryId?_eq, entryId?, hentry, Option.map_some, Option.map_some,
      if_pos rfl, Option.map_some, if_neg h₁.ne_fresh.symm]
  obtain ⟨regions, hregions, hdivided⟩ := Apart.divided hapart (hcuts'.shaped hshape).blocks_nodup
    hholds hentry' hyid ⟨x, List.mem_of_mem_head? hx, hrank, hrankKind⟩
    (by rwa [instrsOf_of_block? hfront'])
  have hqueriesApart : g.QueriesApart config.nameRule plan f.fresh
      (f.cut entry.id pre.length label).fresh entry := by
    obtain ⟨back, hfirst⟩ := hapart.isolated _ List.mem_cons_self
    obtain ⟨label, hblock⟩ := hfirst.block
    have hfirstInstrs := instrsOf_of_block? hblock
    have hfrontInstrs := instrsOf_of_block? hfront'
    refine ⟨by rw [hfrontInstrs, hahead], ?_, ?_, ?_⟩
    · rw [hfrontInstrs, hfirstInstrs, hsplit]
      exact ⟨post, by simp⟩
    · rw [hfirstInstrs, hx, Option.map_some, hxid]
    · rw [hfirstInstrs, List.getLast?_concat, Option.map_some, hyid]
  refine ⟨g, f.fresh, (f.cut entry.id pre.length label).fresh, regions, ?_, hcuts', hdivided, entry,
    hentry, hqueriesApart⟩
  unfold Plan.buildRegions
  rw [Edit.apply_bind, Edit.apply_lift, ← hxid, ← hyid, happly]
  dsimp only
  rw [Edit.apply_bind, hmapM]
  dsimp only
  rw [Edit.apply_bind, Edit.apply_get]
  dsimp only
  rw [hregions]
  rfl

end BarrierLowering
