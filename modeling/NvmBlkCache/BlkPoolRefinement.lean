import NvmBlkCache.BlkPoolEviction
import NvmBlkCache.FifoMap

/-!
# The pool refines a FIFO list and a finite map

`view` forgets nodes, buckets and the cursor. Every call on the pool is a step of `FifoMap` on what is
left, so a run of the pool holds exactly the blocks that its history says have been built and not
handed out.
-/
namespace NvmBlkCache
open FaultProgram LinkedChain LabelledRun HashTable NvmCacheBlkPool FifoMap

/-- `UINT64_MAX` in place of an LBA: the block is empty. -/
abbrev EmptyLba (lba : LbaType) : Prop := lba = uint64Max

namespace NvmCacheBlkPool

def view (p : NvmCacheBlkPool) : Store LbaType UInt64 := ⟨p.emptyIds, p.blockOf⟩

theorem view_withQueue (p : NvmCacheBlkPool) (q : Queue) :
    view { p with emptyBlocksQueue := q } = { p.view with fifo := q.ids } := rfl

theorem view_withTable (p : NvmCacheBlkPool) (ht : HashTable) :
    view { p with usedBlocksTable := ht } = { p.view with map := ht.lookup } := rfl

/-- A build through `build_nvm_block` of a real id that the pool does not manage, under an LBA that is
not mapped; its allocation succeeds. -/
def ManagedCall (p : NvmCacheBlkPool) : PoolOp → Prop
  | .build func id lba m => func = .buildNvmBlock ∧ id ≠ uint64Max ∧
      id ∉ p.emptyIds ++ p.usedIds ∧ (lba ≠ uint64Max → p.blockOf lba = none) ∧
      ∃ a, m = some a ∧ p.Fresh a
  | _ => True

end NvmCacheBlkPool

/-- The LBAs that a build function does something for. -/
def BuildFunc.Handles : BuildFunc → LbaType → Prop
  | .buildNvmBlock, _ => True
  | .buildNvmEmptyBlock, lba => lba = uint64Max
  | .buildNvmValidBlock, lba => lba ≠ uint64Max

instance (func : BuildFunc) (lba : LbaType) : Decidable (func.Handles lba) :=
  match func with
  | .buildNvmBlock => inferInstanceAs (Decidable True)
  | .buildNvmEmptyBlock => inferInstanceAs (Decidable (lba = uint64Max))
  | .buildNvmValidBlock => inferInstanceAs (Decidable (lba ≠ uint64Max))

namespace PoolOp

/-- What a call shows to its caller. -/
def event (p : NvmCacheBlkPool) : PoolOp → Event LbaType UInt64
  | .build _ id lba _ => .add lba id
  | .searchNvmBlkByLba key =>
    .look key ((returned (NvmBlkCache.searchNvmBlkByLba key p)).bind U64Ptr.val?)
  | .getEmptyBlock out init =>
    match returned (NvmBlkCache.getEmptyBlock (.cell out init) p) with
    | some (ret, .cell _ id) =>
      if ret = 0 then .take id else if id = uint64Max then .miss else .evict id
    | _ => .miss

def history (p : NvmCacheBlkPool) : List PoolOp → List (Event LbaType UInt64)
  | [] => []
  | op :: ops => op.event p :: history (op.exec p) ops

variable {p : NvmCacheBlkPool}

theorem view_enqueue (h : p.WF) {m : Option Addr} (hm : ∀ a ∈ m, p.Fresh a) (id : UInt64) :
    (stateAfter (onQueue (modify (enqueue id m)) p)).view =
      if m ≠ none then p.view.add EmptyLba uint64Max id else p.view := by
  cases m with
  | none => rfl
  | some a =>
    obtain ⟨q, hq, _, hids⟩ := h.build_empty (hm a rfl) id
    rw [hq, stateAfter_ok, view_withQueue, hids, if_pos (by simp), Store.add, if_pos rfl]
    rfl

theorem view_insert (h : p.WF) {m : Option Addr} (hm : ∀ a ∈ m, p.Fresh a) (id : UInt64)
    {lba : LbaType} (hl : lba ≠ uint64Max) :
    (stateAfter ((do let _ ← onTable (insert lba id m) : PoolM Unit) p)).view =
      if p.blockOf lba ≠ none ∨ m ≠ none then p.view.add EmptyLba lba id else p.view := by
  rcases h.table.insert_cases (fun a ha => (hm a ha).table) lba id with
    ⟨hn, rfl, hi⟩ | ⟨hc, ht, hi, _, _, hlookup⟩
  · have hi' : onTable (insert lba id none) p = .ok (-1) p := zoom_ok hi
    rw [bind_ok hi', if_neg (by simp [blockOf, hn])]
    rfl
  · have hi' : onTable (insert lba id m) p = .ok 0 { p with usedBlocksTable := ht } := zoom_ok hi
    have hc' : p.blockOf lba ≠ none ∨ m ≠ none := hc
    have hv : view { p with usedBlocksTable := ht } = p.view.add EmptyLba lba id := by
      rw [view_withTable, hlookup, Store.add, if_neg hl]
      rfl
    rw [bind_ok hi', if_pos hc', ← hv]
    rfl

/-- What a build by any of the three functions does, seen from outside: the block comes in, unless the
function is not for its LBA or the node that it needs is not to be had. -/
theorem view_build (h : p.WF) {m : Option Addr} (hm : ∀ a ∈ m, p.Fresh a) (func : BuildFunc)
    (id lba : UInt64) : (exec p (.build func id lba m)).view =
      if func.Handles lba ∧ ((lba ≠ uint64Max ∧ p.blockOf lba ≠ none) ∨ m ≠ none) then
        p.view.add EmptyLba lba id
      else p.view := by
  by_cases hl : lba = uint64Max
  · have hq := view_enqueue h hm id
    cases func with
    | buildNvmBlock => simpa [exec, BuildFunc.call, buildNvmBlock, BuildFunc.Handles, hl] using hq
    | buildNvmEmptyBlock =>
      simpa [exec, BuildFunc.call, buildNvmEmptyBlock, BuildFunc.Handles, hl] using hq
    | buildNvmValidBlock => simp [exec, BuildFunc.call, buildNvmValidBlock, BuildFunc.Handles, hl]
  · have ht := view_insert h hm id hl
    cases func with
    | buildNvmBlock => simpa [exec, BuildFunc.call, buildNvmBlock, BuildFunc.Handles, hl] using ht
    | buildNvmEmptyBlock =>
      simp [exec, BuildFunc.call, buildNvmEmptyBlock, BuildFunc.Handles, hl]
    | buildNvmValidBlock =>
      simpa [exec, BuildFunc.call, buildNvmValidBlock, BuildFunc.Handles, hl] using ht

theorem buildNvmBlock_exec (h : p.WF) {a : Addr} (ha : p.Fresh a) (id lba : UInt64) :
    Step EmptyLba p.view (.add lba id)
      (exec p (.build .buildNvmBlock id lba (some a))).view := by
  have hm : ∀ b ∈ some a, p.Fresh b := by
    rintro b ⟨rfl⟩
    exact ha
  rw [view_build h hm, if_pos ⟨trivial, .inr (by simp)⟩]
  exact .of_add _ _ _

/-- Forward simulation: one call is one step of the abstract machine, with the same event. -/
theorem exec_refines (h : p.RealIds) {op : PoolOp} (hc : p.ManagedCall op) :
    Step EmptyLba p.view (op.event p) (op.exec p).view := by
  cases op with
  | build func id lba m =>
    obtain ⟨rfl, _, _, _, a, rfl, ha⟩ := hc
    exact buildNvmBlock_exec h.wf ha id lba
  | searchNvmBlkByLba key =>
    obtain ⟨ptr, hs, hv⟩ := h.wf.search_spec key
    rw [exec_search h.wf, event, hs, returned_ok, Option.bind_some, hv]
    exact .look key
  | getEmptyBlock out init =>
    cases hi : p.emptyIds with
    | cons v vs =>
      obtain ⟨q, _, hids, hg, _⟩ := h.wf.getEmptyBlock_queue hi
      have hs : (exec p (.getEmptyBlock out init)).view = { p.view with fifo := vs } := by
        rw [exec, hg, stateAfter_ok, view_withQueue, hids]
      rw [hs, event, hg]
      exact .take hi
    | nil =>
      by_cases hr : p.usedBlocksTable.CursorReaches
      · obtain ⟨node, ht, cb, hev, _, hg, _⟩ := h.wf.getEmptyBlock_evict hi hr
        have hne : p.usedBlocksTable.value node ≠ uint64Max :=
          h.used_ne _ (List.mem_map.mpr ⟨node, hev.mem, rfl⟩)
        have hs : (exec p (.getEmptyBlock out init)).view = { p.view with
            map := Function.update p.view.map (p.usedBlocksTable.key node) none } := by
          rw [exec, hg, stateAfter_ok, view_withTable, hev.lookup_eq]
          rfl
        rw [hs, event, hg]
        simp only [returned_ok, if_neg hne]
        exact .evict hi (h.wf.table.lookup_key hev.mem)
      · obtain ⟨hg, _⟩ := h.wf.getEmptyBlock_giveUp hi hr
        have hs : (exec p (.getEmptyBlock out init)).view = p.view := by
          rw [exec, hg]
          rfl
        rw [hs, event, hg]
        exact .miss hi

end PoolOp
namespace NvmCacheBlkPool
variable {p : NvmCacheBlkPool} {out : List (LbaType × UInt64)}

theorem ManagedCall.plain {op : PoolOp} (hc : p.ManagedCall op) : p.PlainCall op := by
  cases op with
  | build func id lba m => exact ⟨hc.2.1, hc.2.2.2.2⟩
  | searchNvmBlkByLba key => trivial
  | getEmptyBlock out init => trivial

theorem WF.mem_managed (h : p.WF) (ht : Tracks EmptyLba p.view out) {v : UInt64} :
    v ∈ p.emptyIds ++ p.usedIds ↔ v ∈ out.map Prod.snd := by
  rw [List.mem_append, h.mem_usedIds, List.mem_map]
  change v ∈ p.view.fifo ∨ (∃ k, p.view.map k = some v) ↔ _
  rw [ht.fifo_eq, List.mem_map]
  constructor
  · rintro (⟨⟨l, w⟩, hm, rfl⟩ | ⟨k, hk⟩)
    · exact ⟨(l, w), (List.mem_filter.mp hm).1, rfl⟩
    · exact ⟨(k, v), ((ht.map_iff k v).mp hk).1, rfl⟩
  · rintro ⟨⟨l, w⟩, hm, rfl⟩
    by_cases hl : l = uint64Max
    · exact Or.inl ⟨(l, w), List.mem_filter.mpr ⟨hm, by simpa using hl⟩, rfl⟩
    · exact Or.inr ⟨l, (ht.map_iff l w).mpr ⟨hm, hl⟩⟩

theorem WF.managed_nodup (h : p.WF) (ht : Tracks EmptyLba p.view out) :
    (p.emptyIds ++ p.usedIds).Nodup := by
  have hq : p.emptyIds = (out.filter (fun e => decide (EmptyLba e.1))).map Prod.snd := ht.fifo_eq
  have hnode : ∀ a ∈ p.usedBlocksTable.linked,
      (p.usedBlocksTable.key a, p.usedBlocksTable.value a) ∈ out ∧
        p.usedBlocksTable.key a ≠ uint64Max :=
    fun a ha => (ht.map_iff _ _).mp (h.table.lookup_key ha)
  refine List.nodup_append.mpr ⟨?_, ?_, ?_⟩
  · rw [hq]
    exact ht.ids_nodup.sublist (List.filter_sublist.map Prod.snd)
  · refine (List.nodup_map_iff_inj_on h.table.linked_nodup).mpr (fun a ha b hb he => ?_)
    have hb' := (hnode b hb).1
    rw [← he] at hb'
    exact h.table.key_injective ha hb (ht.item_unique (hnode a ha).1 hb')
  · rintro v hv w hw rfl
    obtain ⟨a, ha, rfl⟩ := List.mem_map.mp hw
    rw [hq] at hv
    obtain ⟨⟨l, w⟩, hm, hw⟩ := List.mem_map.mp hv
    obtain ⟨hm, hl⟩ := List.mem_filter.mp hm
    have hl' : l = uint64Max := by simpa using hl
    obtain ⟨hk, hne⟩ := hnode a ha
    simp only at hw
    rw [hw] at hm
    exact hne ((ht.item_unique hm hk).symm.trans hl')

/-- What a call of `get_empty_block` on `p` answers and changes: the oldest empty block, or on an empty
queue the block of exactly one mapping, or `UINT64_MAX` and no change. -/
def HandsOutExactly (p : NvmCacheBlkPool) : Prop :=
  ∀ out init, ∃ ret id p', getEmptyBlock (.cell out init) p = .ok (ret, .cell out id) p' ∧
    (ret = 0 ∨ ret = 1) ∧
    (ret = 0 → p.emptyIds = id :: p'.emptyIds ∧ p'.blockOf = p.blockOf) ∧
    (ret = 1 → id ≠ uint64Max → p.emptyIds = [] ∧ p'.emptyIds = [] ∧
      ∃ l, (∀ l', p.blockOf l' = some id ↔ l' = l) ∧
        p'.blockOf = Function.update p.blockOf l none) ∧
    (id = uint64Max → ret = 1 ∧ p'.emptyIds = p.emptyIds ∧ p'.blockOf = p.blockOf)

theorem RealIds.handsOutExactly (h : p.RealIds) (ht : Tracks EmptyLba p.view out) :
    p.HandsOutExactly := by
  intro o init
  cases hi : p.emptyIds with
  | cons v vs =>
    obtain ⟨q, _, hids, hg, _⟩ := h.wf.getEmptyBlock_queue hi
    have hv : v ≠ uint64Max := h.empty_ne v (by simp [hi])
    refine ⟨0, v, _, hg o init, Or.inl rfl, fun _ => ⟨?_, rfl⟩, fun h01 => ?_, fun hm => ?_⟩
    · simp [emptyIds, hids]
    · exact absurd h01 (by decide)
    · exact absurd hm hv
  | nil =>
    by_cases hr : p.usedBlocksTable.CursorReaches
    · obtain ⟨node, ht', cb, hev, _, hg, _⟩ := h.wf.getEmptyBlock_evict hi hr
      have hv : p.usedBlocksTable.value node ≠ uint64Max :=
        h.used_ne _ (List.mem_map.mpr ⟨node, hev.mem, rfl⟩)
      have hk := h.wf.table.lookup_key hev.mem
      refine ⟨1, _, _, hg o init, Or.inr rfl, fun h10 => absurd h10 (by decide), fun _ _ => ?_,
        fun hm => absurd hm hv⟩
      refine ⟨rfl, hi, p.usedBlocksTable.key node, fun l' => ⟨fun hl => ?_, ?_⟩, hev.lookup_eq⟩
      · exact ht.item_unique ((ht.map_iff _ _).mp hl).1 ((ht.map_iff _ _).mp hk).1
      · rintro rfl
        exact hk
    · obtain ⟨hg, _⟩ := h.wf.getEmptyBlock_giveUp hi hr
      exact ⟨1, uint64Max, _, hg o init, Or.inr rfl, fun h10 => absurd h10 (by decide),
        fun _ hm => absurd rfl hm, fun _ => ⟨rfl, hi, rfl⟩⟩

/-- One call: what is in the pool stays what the history says. -/
theorem RealIds.tracks_exec (h : p.RealIds) (ht : Tracks EmptyLba p.view out) {op : PoolOp}
    (hc : p.ManagedCall op) : Tracks EmptyLba (op.exec p).view (settle out (op.event p)) := by
  refine ht.step (PoolOp.exec_refines h hc) ?_
  cases op with
  | build func id lba m =>
    obtain ⟨_, _, hid, hl, _⟩ := hc
    rw [h.wf.mem_managed ht] at hid
    exact ⟨hid, hl⟩
  | searchNvmBlkByLba key => trivial
  | getEmptyBlock o init =>
    simp only [PoolOp.event]
    split
    · split_ifs <;> trivial
    · trivial

theorem RealIds.tracks_run (h : p.RealIds) (ht : Tracks EmptyLba p.view out)
    {ops : List PoolOp} (hc : Along PoolOp.exec ManagedCall p ops) :
    (run PoolOp.exec p ops).RealIds ∧
      Tracks EmptyLba (run PoolOp.exec p ops).view ((PoolOp.history p ops).foldl settle out) := by
  induction ops generalizing p out with
  | nil => exact ⟨h, ht⟩
  | cons op ops ih => exact ih (h.exec hc.1.plain) (h.tracks_exec ht hc.1) hc.2

/-- Builds, each under an LBA of its own. -/
def rebuildOps (malloc : UInt64 → Addr) (items : List (LbaType × UInt64)) : List PoolOp :=
  items.map fun item => .build .buildNvmBlock item.2 item.1 (some (malloc item.2))

/-- Building items with new ids and new LBAs into a pool puts just these items into it. -/
theorem RealIds.tracks_rebuild {malloc : UInt64 → Addr} {items : List (LbaType × UInt64)} :
    ∀ {p : NvmCacheBlkPool} {out : List (LbaType × UInt64)}, p.RealIds →
      Tracks EmptyLba p.view out →
      Along PoolOp.exec PoolOp.MallocSound p (rebuildOps malloc items) →
      (∀ item ∈ items, item.2 ≠ uint64Max) →
      ((out ++ items).map Prod.snd).Nodup →
      (∀ x ∈ out ++ items, ∀ y ∈ out ++ items, x.1 = y.1 → x.1 ≠ uint64Max → x.2 = y.2) →
      Tracks EmptyLba (run PoolOp.exec p (rebuildOps malloc items)).view (out ++ items) := by
  induction items with
  | nil =>
    intro p out _ ht _ _ _ _
    simpa [rebuildOps] using ht
  | cons item items ih =>
    intro p out hr ht hmalloc hreal hids hkeys
    have hnew : item.2 ∉ out.map Prod.snd := by
      rw [List.map_append, List.map_cons] at hids
      exact fun hin => List.disjoint_of_nodup_append hids hin List.mem_cons_self
    have hmanaged : p.ManagedCall (.build .buildNvmBlock item.2 item.1 (some (malloc item.2))) := by
      refine ⟨rfl, hreal item List.mem_cons_self, ?_, fun hl => ?_, _, rfl, hmalloc.1 _ rfl⟩
      · rwa [hr.wf.mem_managed ht]
      · rw [Option.eq_none_iff_forall_ne_some]
        intro v hv
        have hmem := ((ht.map_iff _ _).mp hv).1
        have heq := hkeys _ (List.mem_append_left _ hmem) item (by simp) rfl hl
        exact hnew (heq ▸ List.mem_map_of_mem hmem)
    have hstep := hr.tracks_exec ht hmanaged
    rw [List.append_cons] at hids hkeys ⊢
    exact ih (hr.exec hmanaged.plain) hstep hmalloc.2
      (fun x hx => hreal x (List.mem_cons_of_mem _ hx)) hids hkeys

end NvmCacheBlkPool

theorem view_initNvmBlkPool (size : ℕ) (hs : 0 < size) :
    (initNvmBlkPool size hs).view = ⟨[], fun _ => none⟩ := by
  change (⟨initQueue.ids, (createHashtable size hs).lookup⟩ : Store LbaType UInt64) = _
  rw [Queue.ids_initQueue, createHashtable_lookup]

theorem initNvmBlkPool_tracks (size : ℕ) (hs : 0 < size) :
    Tracks EmptyLba (initNvmBlkPool size hs).view [] := by
  rw [view_initNvmBlkPool]
  exact tracks_nil

/-- After any run: no block is managed twice, and the managed ones are those built and not handed out
since; a search finds a block exactly under the LBA it was built with, and nothing under
`UINT64_MAX`; the queue has the empty ones in the order in which they were built; and the next call
of `get_empty_block` hands out one of them, or one mapped block, or changes nothing. -/
theorem pool_run_exact (size : ℕ) (hs : 0 < size) (ops : List PoolOp)
    (hc : Along PoolOp.exec ManagedCall (initNvmBlkPool size hs) ops) :
    let p := run PoolOp.exec (initNvmBlkPool size hs) ops
    let out := outstanding (PoolOp.history (initNvmBlkPool size hs) ops)
    ((p.emptyIds ++ p.usedIds).Nodup ∧
      ∀ v, v ∈ p.emptyIds ++ p.usedIds ↔ ∃ l, (l, v) ∈ out) ∧
    (∀ l, ∃ ptr, searchNvmBlkByLba l p = .ok ptr p ∧ ptr.val? = p.blockOf l ∧
      (l ≠ uint64Max → ∀ v, ptr.val? = some v ↔ (l, v) ∈ out) ∧
      (l = uint64Max → ptr.val? = none)) ∧
    p.emptyIds = (out.filter (fun e => e.1 = uint64Max)).map Prod.snd ∧
    p.HandsOutExactly := by
  intro p out
  obtain ⟨hr, ht⟩ := (initNvmBlkPool_realIds size hs).tracks_run
    (initNvmBlkPool_tracks size hs) hc
  have hm : ∀ l v, p.blockOf l = some v ↔ (l, v) ∈ out ∧ l ≠ uint64Max := ht.map_iff
  refine ⟨⟨hr.wf.managed_nodup ht, fun v => ?_⟩, fun l => ?_, ht.fifo_eq,
    hr.handsOutExactly ht⟩
  · rw [hr.wf.mem_managed ht, List.mem_map]
    constructor
    · rintro ⟨⟨l, w⟩, hlw, rfl⟩
      exact ⟨l, hlw⟩
    · rintro ⟨l, hlv⟩
      exact ⟨(l, v), hlv, rfl⟩
  · obtain ⟨ptr, hsearch, hv⟩ := hr.wf.search_spec l
    refine ⟨ptr, hsearch, hv, fun hl v => ?_, fun hl => ?_⟩
    · rw [hv, hm]
      simp [hl]
    · rw [hv, Option.eq_none_iff_forall_ne_some]
      exact fun v hlv => ((hm l v).mp hlv).2 hl

def evictFirst : List PoolOp :=
  [.build .buildNvmBlock 300 1 (some 1), .build .buildNvmBlock 400 2 (some 2),
    .getEmptyBlock 0 0]

theorem evictFirst_managed :
    Along PoolOp.exec ManagedCall (initNvmBlkPool 10 (by decide)) evictFirst :=
  ⟨⟨rfl, by decide, by decide, fun _ => by decide, 1, rfl, by decide, by decide⟩,
    ⟨rfl, by decide, by decide, fun _ => by decide, 2, rfl, by decide, by decide⟩, trivial, trivial⟩

theorem pool_run_exact_evictFirst :
    let p := run PoolOp.exec (initNvmBlkPool 10 (by decide)) evictFirst
    p.usedIds = [400] ∧ (p.emptyIds ++ p.usedIds).Nodup := by
  intro p
  exact ⟨by decide, (pool_run_exact 10 (by decide) evictFirst evictFirst_managed).1.1⟩

/-- An empty block is built with the LBA `UINT64_MAX`, and a search for that LBA does not find it. -/
theorem search_misses_empty_block :
    let ops : List PoolOp := [.build .buildNvmBlock 5 uint64Max (some 1)]
    let p := run PoolOp.exec (initNvmBlkPool 10 (by decide)) ops
    Along PoolOp.exec ManagedCall (initNvmBlkPool 10 (by decide)) ops ∧
      (uint64Max, 5) ∈ outstanding (PoolOp.history (initNvmBlkPool 10 (by decide)) ops) ∧
      returned (searchNvmBlkByLba uint64Max p) = some .null := by
  refine ⟨⟨⟨rfl, by decide, by decide, fun h => absurd rfl h, 1, rfl, by decide, by decide⟩,
    trivial⟩, by decide, by decide⟩

end NvmBlkCache
