import NvmBlkCache.BlkPoolSpec
import NvmBlkCache.LabelledRun

/-!
# Runs of the block pool

Any sequence of calls on a pool, with `malloc` free to fail and to hand out any address that is not
allocated. Every call keeps the pool well-formed.
-/
namespace NvmBlkCache
open FaultProgram LinkedChain LabelledRun

inductive BuildFunc
  | buildNvmBlock
  | buildNvmEmptyBlock
  | buildNvmValidBlock
  deriving DecidableEq, Repr

def BuildFunc.call : BuildFunc → UInt64 → UInt64 → Option Addr → PoolM Unit
  | .buildNvmBlock => NvmBlkCache.buildNvmBlock
  | .buildNvmEmptyBlock => NvmBlkCache.buildNvmEmptyBlock
  | .buildNvmValidBlock => NvmBlkCache.buildNvmValidBlock

/-- A call on the pool. `malloc` is what the allocation in a build answers; `out` and `init` are the
address and the contents of the variable that receives the block id. -/
inductive PoolOp
  | build (func : BuildFunc) (nvmBlkId lba : UInt64) (malloc : Option Addr)
  | searchNvmBlkByLba (key : UInt64)
  | getEmptyBlock (out : Addr) (init : UInt64)

namespace PoolOp

def exec (p : NvmCacheBlkPool) : PoolOp → NvmCacheBlkPool
  | .build func id lba m => stateAfter (func.call id lba m p)
  | .searchNvmBlkByLba key => stateAfter (NvmBlkCache.searchNvmBlkByLba key p)
  | .getEmptyBlock out init => stateAfter (NvmBlkCache.getEmptyBlock (.cell out init) p)

/-- `malloc` hands out no address twice. -/
def MallocSound (p : NvmCacheBlkPool) : PoolOp → Prop
  | .build _ _ _ m => ∀ a ∈ m, p.Fresh a
  | _ => True

end PoolOp

open HashTable NvmCacheBlkPool

/-- What a build does to a pool: nothing, when it is not its kind of LBA or `malloc` fails; else it
queues the id, or maps the LBA to it. -/
inductive Built (p : NvmCacheBlkPool) (id lba : UInt64) : NvmCacheBlkPool → Prop
  | refused : Built p id lba p
  | queued (q : Queue) (hl : lba = uint64Max) (hq : q.WF) (hi : q.ids = p.emptyIds ++ [id]) :
      Built p id lba { p with emptyBlocksQueue := q }
  | mapped (ht : HashTable) (hl : lba ≠ uint64Max) (hi : Inserted p.usedBlocksTable ht lba id) :
      Built p id lba { p with usedBlocksTable := ht }

namespace NvmCacheBlkPool
variable {p : NvmCacheBlkPool} {m : Option Addr}

theorem WF.enqueue_built (h : p.WF) (hm : ∀ a ∈ m, p.Fresh a) (id : UInt64) :
    ∃ p', onQueue (modify (enqueue id m)) p = .ok ⟨⟩ p' ∧ Built p id uint64Max p' := by
  cases m with
  | none => exact ⟨p, rfl, .refused⟩
  | some a =>
    obtain ⟨q, hq, hwf, hids⟩ := h.build_empty (hm a rfl) id
    exact ⟨_, hq, .queued q rfl hwf hids⟩

theorem WF.insert_built (h : p.WF) (hm : ∀ a ∈ m, p.Fresh a) (id : UInt64) {lba : UInt64}
    (hl : lba ≠ uint64Max) :
    ∃ r p', onTable (insert lba id m) p = .ok r p' ∧ Built p id lba p' := by
  cases m with
  | some a =>
    obtain ⟨ht, hi, hins⟩ := h.build_valid (hm a rfl) id lba
    exact ⟨0, _, hi, .mapped ht hl hins⟩
  | none =>
    cases hf : p.usedBlocksTable.findNode lba with
    | none => exact ⟨-1, p, zoom_ok (h.table.insert_refused hf), .refused⟩
    | some c =>
      obtain ⟨ht, hi, hins⟩ := insert_present_spec h.table h.cursor hf none (v := id)
      exact ⟨0, _, zoom_ok hi, .mapped ht hl hins⟩

theorem WF.buildNvmBlock_built (h : p.WF) (hm : ∀ a ∈ m, p.Fresh a) (id lba : UInt64) :
    ∃ p', buildNvmBlock id lba m p = .ok ⟨⟩ p' ∧ Built p id lba p' := by
  unfold buildNvmBlock
  split_ifs with hl
  · exact hl ▸ h.enqueue_built hm id
  · obtain ⟨r, p', hi, hb⟩ := h.insert_built hm id hl
    exact ⟨p', by rw [bind_ok hi]; rfl, hb⟩

theorem WF.buildNvmEmptyBlock_built (h : p.WF) (hm : ∀ a ∈ m, p.Fresh a) (id lba : UInt64) :
    ∃ p', buildNvmEmptyBlock id lba m p = .ok ⟨⟩ p' ∧ Built p id lba p' := by
  unfold buildNvmEmptyBlock
  split_ifs with hl
  · exact hl ▸ h.enqueue_built hm id
  · exact ⟨p, rfl, .refused⟩

theorem WF.buildNvmValidBlock_built (h : p.WF) (hm : ∀ a ∈ m, p.Fresh a) (id lba : UInt64) :
    ∃ p', buildNvmValidBlock id lba m p = .ok ⟨⟩ p' ∧ Built p id lba p' := by
  unfold buildNvmValidBlock
  split_ifs with hl
  · obtain ⟨r, p', hi, hb⟩ := h.insert_built hm id hl
    exact ⟨p', by rw [bind_ok hi]; rfl, hb⟩
  · exact ⟨p, rfl, .refused⟩

theorem WF.built {p' : NvmCacheBlkPool} {id lba : UInt64} (h : p.WF)
    (hb : Built p id lba p') : p'.WF := by
  cases hb with
  | refused => exact h
  | queued q _ hq _ => exact h.withQueue hq
  | mapped ht _ hi => exact h.withTable hi.wf hi.cursor

end NvmCacheBlkPool

namespace PoolOp
variable {p : NvmCacheBlkPool}

theorem exec_search (h : p.WF) (key : UInt64) : exec p (.searchNvmBlkByLba key) = p := by
  obtain ⟨ptr, he, _⟩ := h.search_spec key
  simp [exec, he]

theorem call_built (h : p.WF) {m : Option Addr} (hm : ∀ a ∈ m, p.Fresh a) (func : BuildFunc)
    (id lba : UInt64) : ∃ p', func.call id lba m p = .ok ⟨⟩ p' ∧ Built p id lba p' := by
  cases func with
  | buildNvmBlock => exact h.buildNvmBlock_built hm id lba
  | buildNvmEmptyBlock => exact h.buildNvmEmptyBlock_built hm id lba
  | buildNvmValidBlock => exact h.buildNvmValidBlock_built hm id lba

/-- A build returns. -/
theorem call_exec (h : p.WF) {m : Option Addr} (hm : ∀ a ∈ m, p.Fresh a) (func : BuildFunc)
    (id lba : UInt64) : func.call id lba m p = .ok ⟨⟩ (exec p (.build func id lba m)) := by
  obtain ⟨p', he, _⟩ := call_built h hm func id lba
  rw [exec, he, stateAfter_ok]

theorem exec_build (h : p.WF) {func : BuildFunc} {id lba : UInt64} {m : Option Addr}
    (hm : ∀ a ∈ m, p.Fresh a) : Built p id lba (exec p (.build func id lba m)) := by
  obtain ⟨p', he, hb⟩ := call_built h hm func id lba
  rw [exec, he]
  exact hb

theorem exec_getEmptyBlock (h : p.WF) (out : Addr) (init : UInt64) :
    (∃ q, p.emptyIds ≠ [] ∧ q.WF ∧ q.ids = p.emptyIds.tail ∧
      exec p (.getEmptyBlock out init) = { p with emptyBlocksQueue := q }) ∨
    (∃ node ht, p.emptyIds = [] ∧ p.usedBlocksTable.CursorReaches ∧
      Evicted p.usedBlocksTable ht node ∧
      exec p (.getEmptyBlock out init) = { p with usedBlocksTable := ht }) ∨
    (p.emptyIds = [] ∧ ¬ p.usedBlocksTable.CursorReaches ∧
      exec p (.getEmptyBlock out init) = { p with usedBlocksTable :=
        { p.usedBlocksTable with cursorBucket := p.usedBlocksTable.size } }) := by
  cases hi : p.emptyIds with
  | cons v vs =>
    obtain ⟨q, hq, hids, hg, _⟩ := h.getEmptyBlock_queue hi
    exact Or.inl ⟨q, by simp, hq, hids, by simp [exec, hg]⟩
  | nil =>
    by_cases hr : p.usedBlocksTable.CursorReaches
    · obtain ⟨node, ht, cb, hev, _, hg, _⟩ := h.getEmptyBlock_evict hi hr
      exact Or.inr (Or.inl ⟨node, ht, rfl, hr, hev, by simp [exec, hg]⟩)
    · obtain ⟨hg, _⟩ := h.getEmptyBlock_giveUp hi hr
      exact Or.inr (Or.inr ⟨rfl, hr, by simp [exec, hg]⟩)

theorem exec_wf (h : p.WF) {op : PoolOp} (hm : op.MallocSound p) : (op.exec p).WF := by
  cases op with
  | build func id lba m => exact h.built (exec_build h hm)
  | searchNvmBlkByLba key => rwa [exec_search h]
  | getEmptyBlock out init =>
    rcases exec_getEmptyBlock h out init with ⟨q, _, hq, _, he⟩ | ⟨node, ht, _, _, hev, he⟩ |
      ⟨_, _, he⟩ <;> rw [he]
    · exact h.withQueue hq
    · exact h.withTable hev.wf hev.cursor
    · exact h.withTable (h.table.moveCursor _ _) h.cursor.moveToEnd

end PoolOp

/-- A pool that has been used in any way since `init_nvm_blk_pool` is well-formed. -/
theorem pool_run_wf (size : ℕ) (hs : 0 < size) (ops : List PoolOp)
    (hm : Along PoolOp.exec PoolOp.MallocSound (initNvmBlkPool size hs) ops) :
    (run PoolOp.exec (initNvmBlkPool size hs) ops).WF :=
  run_invariant NvmCacheBlkPool.WF (fun _ _ h hm => PoolOp.exec_wf h hm)
    (initNvmBlkPool_wf size hs) hm

end NvmBlkCache
