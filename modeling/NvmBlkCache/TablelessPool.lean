import NvmBlkCache.PoolMemory

/-!
# A pool with and without its table

When `create_hashtable` succeeds, the pool with NULL guards is the pool of `BlkPool`, call by call. When it
fails, what is left is the queue.
-/
namespace NvmBlkCache
open FaultProgram LinkedChain LabelledRun
namespace PoolMemory
variable {p : PoolMemory}

/-- A pool whose table has been created, at these addresses. -/
def withTable (ht buckets : Addr) (p : NvmCacheBlkPool) : PoolMemory :=
  ⟨p.emptyBlocksQueue, some ⟨ht, buckets, p.usedBlocksTable⟩, {buckets, ht}⟩

variable {ht buckets : Addr}

theorem mirrors_onQueue {α : Type} (x : EStateM Fault Queue α) :
    Mirrors (withTable ht buckets) (PoolMemory.onQueue x) (NvmBlkCache.onQueue x) := by
  intro p
  unfold PoolMemory.onQueue NvmBlkCache.onQueue
  cases hx : x p.emptyBlocksQueue with
  | ok a q => rw [zoom_ok hx, zoom_ok (s := withTable ht buckets p) hx]; rfl
  | error e q => rw [zoom_error hx, zoom_error (s := withTable ht buckets p) hx]; rfl

theorem mirrors_onTable {α : Type} (null : α) (x : EStateM Fault HashTable α) :
    Mirrors (withTable ht buckets) (PoolMemory.onTable null x) (NvmBlkCache.onTable x) := by
  intro p
  unfold PoolMemory.onTable NvmBlkCache.onTable
  cases hx : x p.usedBlocksTable with
  | ok a t =>
    rw [zoom_ok hx]
    simp only [withTable, hx]
    rfl
  | error e t =>
    rw [zoom_error hx]
    simp only [withTable, hx]
    rfl

theorem mirrors_store (v : UInt64) (ptr : U64Ptr) :
    Mirrors (withTable ht buckets) (ptr.store v) (ptr.store v) := by
  cases ptr with
  | null => exact mirrors_throw _
  | cell a x => exact mirrors_pure _

theorem mirrors_insert (id lba : UInt64) (m : Option Addr) :
    Mirrors (withTable ht buckets) (do let _ ← PoolMemory.onTable (-1) (insert lba id m); pure PUnit.unit)
      (do let _ ← NvmBlkCache.onTable (insert lba id m); pure PUnit.unit) :=
  mirrors_bind (mirrors_onTable _ _) fun _ => mirrors_pure _

theorem mirrors_build (func : BuildFunc) (id lba : UInt64) (m : Option Addr) :
    Mirrors (withTable ht buckets) (build func id lba m) (func.call id lba m) := by
  cases func with
  | buildNvmBlock => exact mirrors_ite (mirrors_onQueue _) (mirrors_insert id lba m)
  | buildNvmEmptyBlock => exact mirrors_ite (mirrors_onQueue _) (mirrors_pure _)
  | buildNvmValidBlock => exact mirrors_ite (mirrors_insert id lba m) (mirrors_pure _)

theorem mirrors_getEmptyBlock (ptr : U64Ptr) :
    Mirrors (withTable ht buckets) (getEmptyBlock ptr) (NvmBlkCache.getEmptyBlock ptr) := by
  refine mirrors_get fun p => mirrors_ite ?_ ?_
  · refine mirrors_bind (mirrors_onTable _ _) fun a => ?_
    cases a with
    | none => exact mirrors_bind (mirrors_store _ _) fun _ => mirrors_pure _
    | some a =>
      refine mirrors_get fun p => mirrors_bind (mirrors_store _ _) fun _ => ?_
      exact mirrors_bind (mirrors_onTable _ _) fun _ => mirrors_pure _
  · exact mirrors_bind (mirrors_onQueue _) fun _ => mirrors_bind (mirrors_store _ _) fun _ =>
      mirrors_pure _

theorem exec_withTable (p : NvmCacheBlkPool) (op : PoolOp) :
    exec (withTable ht buckets p) op = withTable ht buckets (op.exec p) := by
  cases op with
  | build func id lba m =>
    rw [exec, mirrors_build func id lba m p, stateAfter_mapState]
    rfl
  | searchNvmBlkByLba key =>
    rw [exec, searchNvmBlkByLba, mirrors_onTable _ _ p, stateAfter_mapState]
    rfl
  | getEmptyBlock out init =>
    rw [exec, mirrors_getEmptyBlock _ p, stateAfter_mapState]
    rfl

theorem run_withTable (p : NvmCacheBlkPool) (ops : List PoolOp) :
    run exec (withTable ht buckets p) ops = withTable ht buckets (run PoolOp.exec p ops) := by
  induction ops generalizing p with
  | nil => rfl
  | cons op ops ih => rw [run_cons, run_cons, exec_withTable, ih]

/-- The ids that a pool without a table keeps. -/
def onIds (ids : List UInt64) : PoolOp → List UInt64
  | .build func id lba m =>
    if lba = uint64Max ∧ func ≠ .buildNvmValidBlock ∧ m ≠ none then ids ++ [id] else ids
  | .searchNvmBlkByLba _ => ids
  | .getEmptyBlock _ _ => ids.tail

/-- A pool whose table is NULL holds `ids`, oldest first. -/
structure Tableless (p : PoolMemory) (ids : List UInt64) : Prop where
  null : p.usedBlocksTable = none
  allocated : p.allocated = ∅
  queue : p.emptyBlocksQueue.WF
  ids_eq : p.emptyBlocksQueue.ids = ids

namespace Tableless
variable {ids : List UInt64} {v : UInt64}

theorem onTable (h : p.Tableless ids) {α : Type} (null : α) (x : EStateM Fault HashTable α) :
    PoolMemory.onTable null x p = .ok null p := by
  rw [PoolMemory.onTable, h.null]

theorem enqueue (h : p.Tableless ids) {m : Option Addr} (hm : ∀ a ∈ m, p.Fresh a) (id : UInt64) :
    (stateAfter (PoolMemory.onQueue (modify (enqueue id m)) p)).Tableless
      (if m ≠ none then ids ++ [id] else ids) := by
  cases m with
  | none => exact h
  | some a =>
    have ha := (hm a rfl).queue
    refine ⟨h.null, h.allocated, Queue.enqueue_wf h.queue ha id, ?_⟩
    rw [if_pos (by simp), ← h.ids_eq]
    exact Queue.ids_enqueue h.queue ha id

theorem insert (h : p.Tableless ids) (id lba : UInt64) (m : Option Addr) :
    stateAfter ((do
      let _ ← PoolMemory.onTable (-1) (NvmBlkCache.insert lba id m)
      pure PUnit.unit : MemoryM Unit) p) = p := by
  rw [stateAfter_bind_pure, h.onTable, stateAfter_ok]

theorem build (h : p.Tableless ids) {m : Option Addr} (hm : ∀ a ∈ m, p.Fresh a) (func : BuildFunc)
    (id lba : UInt64) :
    (stateAfter (build func id lba m p)).Tableless (onIds ids (.build func id lba m)) := by
  have henqueue := h.enqueue hm id
  have hinsert := h.insert id lba m
  cases func with
  | buildNvmBlock =>
    change (stateAfter (buildNvmBlock id lba m p)).Tableless _
    unfold buildNvmBlock onIds
    by_cases hl : lba = uint64Max
    · simpa [hl] using henqueue
    · rw [if_neg hl, hinsert]
      simpa [hl] using h
  | buildNvmEmptyBlock =>
    change (stateAfter (buildNvmEmptyBlock id lba m p)).Tableless _
    unfold buildNvmEmptyBlock onIds
    by_cases hl : lba = uint64Max
    · simpa [hl] using henqueue
    · simpa [hl] using h
  | buildNvmValidBlock =>
    change (stateAfter (buildNvmValidBlock id lba m p)).Tableless _
    unfold buildNvmValidBlock onIds
    by_cases hl : lba = uint64Max
    · simpa [hl] using h
    · rw [if_pos hl, hinsert]
      simpa [hl] using h

theorem getEmptyBlock_nil (h : p.Tableless []) (out : Addr) (init : UInt64) :
    getEmptyBlock (.cell out init) p = .ok (1, .cell out uint64Max) p := by
  have he : isEmpty p.emptyBlocksQueue = true := (Queue.isEmpty_iff h.queue).mpr h.ids_eq
  rw [getEmptyBlock, bind_ok (get_apply p), if_pos he, bind_ok (h.onTable none _)]
  rfl

theorem getEmptyBlock_cons (h : p.Tableless (v :: ids)) (out : Addr) (init : UInt64) :
    ∃ p', getEmptyBlock (.cell out init) p = .ok (0, .cell out v) p' ∧ p'.Tableless ids := by
  obtain ⟨q, hd, hq, hids⟩ := Queue.dequeue_cons h.queue h.ids_eq
  have hne : ¬ isEmpty p.emptyBlocksQueue = true := by
    rw [Queue.isEmpty_iff h.queue, h.ids_eq]
    exact List.cons_ne_nil v ids
  have hqueue : PoolMemory.onQueue NvmBlkCache.dequeue p =
      .ok v { p with emptyBlocksQueue := q } := zoom_ok hd
  refine ⟨{ p with emptyBlocksQueue := q }, ?_, h.null, h.allocated, hq, hids⟩
  rw [getEmptyBlock, bind_ok (get_apply p), if_neg hne, bind_ok hqueue]
  rfl

theorem exec (h : p.Tableless ids) {op : PoolOp} (hm : MallocSound p op) :
    (exec p op).Tableless (onIds ids op) := by
  cases op with
  | build func id lba m => exact h.build hm func id lba
  | searchNvmBlkByLba key =>
    rw [PoolMemory.exec, searchNvmBlkByLba, h.onTable, stateAfter_ok]
    exact h
  | getEmptyBlock out init =>
    cases ids with
    | nil =>
      rw [PoolMemory.exec, h.getEmptyBlock_nil, stateAfter_ok]
      exact h
    | cons v ids =>
      obtain ⟨p', he, h'⟩ := h.getEmptyBlock_cons out init
      rw [PoolMemory.exec, he, stateAfter_ok]
      exact h'

end Tableless
end PoolMemory

open PoolMemory in
/-- With its table the pool is the one of `BlkPool`. Without, when `create_hashtable` got no memory, it
goes on as a queue: a used block that it is told of is forgotten, no search finds one, and none is evicted. -/
theorem pool_table_or_null {size : ℕ} (hs : 0 < size) {ht buckets : Option Addr} {ops : List PoolOp} :
    let p := run PoolMemory.exec (PoolMemory.initNvmBlkPool size hs ht buckets) ops
    (∀ a ∈ ht, ∀ b ∈ buckets,
      p = withTable a b (run PoolOp.exec (NvmBlkCache.initNvmBlkPool size hs) ops)) ∧
    (ht = none ∨ buckets = none →
      Along PoolMemory.exec MallocSound (PoolMemory.initNvmBlkPool size hs ht buckets) ops →
      p.Tableless (run onIds [] ops) ∧
      (∀ key, PoolMemory.searchNvmBlkByLba key p = .ok .null p) ∧
      (run onIds [] ops = [] → ∀ out init,
        PoolMemory.getEmptyBlock (.cell out init) p = .ok (1, .cell out uint64Max) p) ∧
      ∀ v ids, run onIds [] ops = v :: ids → ∀ out init, ∃ p',
        PoolMemory.getEmptyBlock (.cell out init) p = .ok (0, .cell out v) p' ∧ p'.Tableless ids) := by
  intro p
  constructor
  · rintro a rfl b rfl
    exact run_withTable (NvmBlkCache.initNvmBlkPool size hs) ops
  · intro hnull hm
    have hinit : (PoolMemory.initNvmBlkPool size hs ht buckets).Tableless [] := by
      have heq : PoolMemory.initNvmBlkPool size hs ht buckets = ⟨initQueue, none, ∅⟩ := by
        rw [initNvmBlkPool_eq]
        rcases hnull with rfl | rfl
        · rfl
        · cases ht <;> rfl
      rw [heq]
      exact ⟨rfl, rfl, Queue.initQueue_linked.wf, Queue.ids_initQueue⟩
    have hstep : ∀ p ids op, Tableless p ids → MallocSound p op →
        Tableless (PoolMemory.exec p op) (onIds ids op) := fun _ _ _ h hm => h.exec hm
    have h : p.Tableless (run onIds [] ops) := run_simulates Tableless hstep hinit hm
    refine ⟨h, fun key => h.onTable U64Ptr.null (search key), fun hids => ?_, fun v ids hids => ?_⟩
    · exact (hids ▸ h : p.Tableless []).getEmptyBlock_nil
    · exact (hids ▸ h : p.Tableless (v :: ids)).getEmptyBlock_cons

open PoolMemory in
/-- The second allocation fails: block 1 is forgotten and block 0 is kept. -/
theorem pool_table_or_null_noBuckets :
    let ops : List PoolOp := [.build .buildNvmBlock 1 7 (some 0x200),
      .build .buildNvmBlock 0 uint64Max (some 0x100)]
    (run PoolMemory.exec (PoolMemory.initNvmBlkPool 4 (by decide) (some 0x10) none) ops).Tableless [0] := by
  intro ops
  have hm : Along PoolMemory.exec MallocSound
      (PoolMemory.initNvmBlkPool 4 (by decide) (some 0x10) none) ops := by
    refine ⟨?_, ?_, trivial⟩
    · rintro _ ⟨⟩
      decide
    · rintro _ ⟨⟩
      decide
  exact ((pool_table_or_null (by decide)).2 (Or.inr rfl) hm).1

end NvmBlkCache
