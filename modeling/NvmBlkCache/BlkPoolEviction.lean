import NvmBlkCache.BlkPoolRun

/-!
# When eviction keeps its promises

`blk_pool.h` says that `get_empty_block` answers `UINT64_MAX` only by a bug. It does so as soon as the
cursor has passed the bucket of an entry, and nothing moves the cursor back. And every eviction
leaves the cursor on the node that it has just freed.
-/
namespace NvmBlkCache
open FaultProgram LinkedChain LabelledRun HashTable NvmCacheBlkPool

namespace NvmCacheBlkPool

/-- A build passes a real id and its allocation succeeds, with an address that is not in use. -/
def PlainCall (p : NvmCacheBlkPool) : PoolOp → Prop
  | .build _ id _ m => id ≠ uint64Max ∧ ∃ a, m = some a ∧ p.Fresh a
  | _ => True

/-- What `blk_pool.h` promises of a call made on `p`: the answer is a block unless there is none, and
with no empty block left it is one that the table maps. -/
def EvictsWhilePossible (p : NvmCacheBlkPool) : Prop :=
  ∀ out init, ∃ ret id p', getEmptyBlock (.cell out init) p = .ok (ret, .cell out id) p' ∧
    (id = uint64Max → p.emptyIds = [] ∧ p.usedIds = []) ∧
    (p.emptyIds = [] → p.usedIds ≠ [] → ret = 1 ∧ id ∈ p.usedIds)

/-- The cursor is nowhere, or on a node that a bucket links; so the link that `next` reads is not
that of a freed node. -/
structure CursorLinked (p : NvmCacheBlkPool) : Prop where
  linked : ∀ a, p.usedBlocksTable.cursorNode = some a → a ∈ p.usedBlocksTable.linked
  live : ∀ a, p.usedBlocksTable.cursorNode = some a → a ∈ p.usedBlocksTable.nodes.live

/-- The call does not evict: there is an empty block, or the cursor reaches no entry. -/
def NoEviction (p : NvmCacheBlkPool) : PoolOp → Prop
  | .getEmptyBlock _ _ => p.emptyIds ≠ [] ∨ ¬ p.usedBlocksTable.CursorReaches
  | _ => True

/-- Well-formed, and `UINT64_MAX` is not among the ids. -/
structure RealIds (p : NvmCacheBlkPool) : Prop where
  wf : p.WF
  empty_ne : ∀ v ∈ p.emptyIds, v ≠ uint64Max
  used_ne : ∀ v ∈ p.usedIds, v ≠ uint64Max

variable {p p' : NvmCacheBlkPool}

theorem WF.cursorLinked (h : p.WF)
    (hl : ∀ a, p.usedBlocksTable.cursorNode = some a → a ∈ p.usedBlocksTable.linked) :
    p.CursorLinked := by
  exact ⟨hl, fun a ha => h.table.linked_live (hl a ha)⟩

theorem usedIds_eq_nil : p.usedIds = [] ↔ p.usedBlocksTable.linked = [] := by
  simp [usedIds, values]

theorem RealIds.built (h : p.RealIds) {id lba : UInt64} (hid : id ≠ uint64Max)
    (hb : Built p id lba p') : p'.RealIds := by
  have hw := h.wf.built hb
  cases hb with
  | refused => exact h
  | queued q _ _ hi =>
    refine ⟨hw, fun v hv => ?_, h.used_ne⟩
    have hv' : v ∈ p.emptyIds ++ [id] := hi ▸ hv
    rcases List.mem_append.mp hv' with hv | hv
    · exact h.empty_ne v hv
    · rwa [List.mem_singleton.mp hv]
  | mapped ht _ hi =>
    refine ⟨hw, h.empty_ne, fun v hv => ?_⟩
    obtain ⟨k, hk⟩ := hw.mem_usedIds.mp hv
    have hk' : Function.update p.usedBlocksTable.lookup lba (some id) k = some v :=
      hi.lookup_eq ▸ hk
    by_cases hkl : k = lba
    · rw [hkl, Function.update_self, Option.some.injEq] at hk'
      rwa [← hk']
    · rw [Function.update_of_ne hkl] at hk'
      exact h.used_ne v (h.wf.mem_usedIds.mpr ⟨k, hk'⟩)

theorem PlainCall.mallocSound {op : PoolOp} (hc : p.PlainCall op) : op.MallocSound p := by
  cases op with
  | build func id lba m =>
    obtain ⟨_, a, rfl, ha⟩ := hc
    intro b hb
    obtain rfl : a = b := by simpa using hb
    exact ha
  | searchNvmBlkByLba key => trivial
  | getEmptyBlock out init => trivial

theorem RealIds.exec (h : p.RealIds) {op : PoolOp} (hc : p.PlainCall op) :
    (op.exec p).RealIds := by
  have hw := PoolOp.exec_wf h.wf hc.mallocSound
  cases op with
  | build func id lba m => exact h.built hc.1 (PoolOp.exec_build h.wf hc.mallocSound)
  | searchNvmBlkByLba key => rwa [PoolOp.exec_search h.wf]
  | getEmptyBlock out init =>
    rcases PoolOp.exec_getEmptyBlock h.wf out init with ⟨q, _, _, hi, he⟩ |
      ⟨node, ht, _, _, hev, he⟩ | ⟨_, _, he⟩ <;> rw [he] at hw ⊢
    · refine ⟨hw, fun v hv => h.empty_ne v ?_, h.used_ne⟩
      have hv' : v ∈ p.emptyIds.tail := hi ▸ hv
      exact List.mem_of_mem_tail hv'
    · refine ⟨hw, h.empty_ne, fun v hv => h.used_ne v ?_⟩
      obtain ⟨a, ha, rfl⟩ := List.mem_map.mp hv
      refine List.mem_map.mpr ⟨a, ((hev.mem_linked a).mp ha).1, ?_⟩
      simp [hev.value_eq]
    · exact ⟨hw, h.empty_ne, h.used_ne⟩

/-- The pool keeps the promise exactly while there is an empty block, or no entry at all, or an entry
that the cursor still reaches. -/
theorem RealIds.evictsWhilePossible_iff (h : p.RealIds) :
    p.EvictsWhilePossible ↔
      p.emptyIds ≠ [] ∨ p.usedBlocksTable.linked = [] ∨ p.usedBlocksTable.CursorReaches := by
  constructor
  · intro hp
    by_contra hn
    simp only [not_or, not_not] at hn
    obtain ⟨hi, hl, hr⟩ := hn
    obtain ⟨hg, _⟩ := h.wf.getEmptyBlock_giveUp hi hr
    obtain ⟨ret, id, p', he, hmax, _⟩ := hp 0 0
    rw [hg] at he
    injection he with he _
    obtain ⟨rfl, hid⟩ := Prod.mk.inj he
    injection hid with _ hid
    exact hl (usedIds_eq_nil.mp (hmax hid.symm).2)
  · intro hc out init
    cases hi : p.emptyIds with
    | cons v vs =>
      obtain ⟨q, _, _, hg, _⟩ := h.wf.getEmptyBlock_queue hi
      refine ⟨0, v, _, hg out init, fun hv => ?_, by simp⟩
      exact absurd hv (h.empty_ne v (by simp [hi]))
    | nil =>
      by_cases hr : p.usedBlocksTable.CursorReaches
      · obtain ⟨node, ht, cb, hev, _, hg, _⟩ := h.wf.getEmptyBlock_evict hi hr
        have hm : p.usedBlocksTable.value node ∈ p.usedIds := List.mem_map.mpr ⟨node, hev.mem, rfl⟩
        exact ⟨1, _, _, hg out init, fun hv => absurd hv (h.used_ne _ hm), fun _ _ => ⟨rfl, hm⟩⟩
      · have hl : p.usedIds = [] := by
          rw [usedIds_eq_nil]
          simpa [hi, hr] using hc
        obtain ⟨hg, _⟩ := h.wf.getEmptyBlock_giveUp hi hr
        exact ⟨1, uint64Max, _, hg out init, fun _ => ⟨rfl, hl⟩, fun _ hne => absurd hl hne⟩

theorem initNvmBlkPool_realIds (size : ℕ) (hs : 0 < size) :
    (initNvmBlkPool size hs).RealIds where
  wf := initNvmBlkPool_wf size hs
  empty_ne := by simp [emptyIds, initNvmBlkPool]
  used_ne v hv := by
    obtain ⟨a, ha, _⟩ := List.mem_map.mp hv
    obtain ⟨b, hb, ha⟩ := (createHashtable_linked size hs).mem_linked.mp ha
    simp at ha

end NvmCacheBlkPool

/-- `get_empty_block` keeps its promise in a pool that has been used in any way, exactly when the
cursor has not left every remaining entry behind. -/
theorem getEmptyBlock_evicts_iff (size : ℕ) (hs : 0 < size) (ops : List PoolOp)
    (hc : Along PoolOp.exec PlainCall (initNvmBlkPool size hs) ops) :
    let p := run PoolOp.exec (initNvmBlkPool size hs) ops
    p.EvictsWhilePossible ↔
      p.emptyIds ≠ [] ∨ p.usedBlocksTable.linked = [] ∨ p.usedBlocksTable.CursorReaches :=
  (run_invariant RealIds (fun _ _ h hc => h.exec hc) (initNvmBlkPool_realIds size hs)
    hc).evictsWhilePossible_iff

/-- A block is built after a call that found the new pool empty: that call has already moved the
cursor past every bucket. -/
def lateEntry : List PoolOp := [.getEmptyBlock 0 0, .build .buildNvmBlock 7 5 (some 1)]

theorem lateEntry_plain :
    Along PoolOp.exec PlainCall (initNvmBlkPool 1 Nat.one_pos) lateEntry :=
  ⟨trivial, ⟨by decide, 1, rfl, by decide, by decide⟩, trivial⟩

/-- The entry of `lateEntry` is in the table, and the pool answers that it has no block. -/
theorem lateEntry_gives_up :
    let p := run PoolOp.exec (initNvmBlkPool 1 Nat.one_pos) lateEntry
    Along PoolOp.exec PlainCall (initNvmBlkPool 1 Nat.one_pos) lateEntry ∧ p.usedIds = [7] ∧
      returned (getEmptyBlock (.cell 0 0) p) = some (1, .cell 0 uint64Max) ∧
      ¬ p.EvictsWhilePossible := by
  refine ⟨lateEntry_plain, by decide, by decide, fun h => ?_⟩
  obtain ⟨ret, id, p', he, hmax, _⟩ := h 0 0
  have hr := congrArg returned he
  rw [show returned (getEmptyBlock (.cell 0 0) _) = some (1, .cell 0 uint64Max) by decide] at hr
  have hid : ret = 1 ∧ id = uint64Max := by simpa using hr.symm
  exact absurd (hmax hid.2).2 (by decide)

theorem getEmptyBlock_evicts_iff_lateEntry :
    let p := run PoolOp.exec (initNvmBlkPool 1 Nat.one_pos) lateEntry
    p.EvictsWhilePossible ↔
      p.emptyIds ≠ [] ∨ p.usedBlocksTable.linked = [] ∨ p.usedBlocksTable.CursorReaches :=
  getEmptyBlock_evicts_iff 1 Nat.one_pos lateEntry lateEntry_plain

namespace PoolOp
variable {p : NvmCacheBlkPool}

theorem exec_cursorLinked_iff (h : p.WF) {op : PoolOp} (hm : op.MallocSound p)
    (hl : p.CursorLinked) : (op.exec p).CursorLinked ↔ p.NoEviction op := by
  cases op with
  | build func id lba m =>
    refine iff_of_true ?_ trivial
    have hw := exec_wf h hm
    generalize hp : exec p (.build func id lba m) = p' at hw ⊢
    have hb : Built p id lba p' := hp ▸ exec_build h hm
    cases hb with
    | refused => exact hl
    | queued q _ _ _ => exact ⟨hl.linked, hl.live⟩
    | mapped ht _ hi =>
      refine hw.cursorLinked (fun a ha => ?_)
      exact hi.linked_mono a (hl.linked a (hi.cursorNode_eq ▸ ha))
  | searchNvmBlkByLba key =>
    rw [exec_search h]
    exact iff_of_true hl trivial
  | getEmptyBlock out init =>
    rcases exec_getEmptyBlock h out init with ⟨q, hne, _, _, he⟩ | ⟨node, ht, hi, hr, hev, he⟩ |
      ⟨_, hr, he⟩ <;> rw [he]
    · exact iff_of_true ⟨hl.linked, hl.live⟩ (Or.inl hne)
    · refine iff_of_false (fun hc => ?_) (by simp [NoEviction, hi, hr])
      exact ((hev.mem_linked node).mp (hc.linked node hev.cursorNode_eq)).2 rfl
    · exact iff_of_true ⟨hl.linked, hl.live⟩ (Or.inr hr)

end PoolOp

/-- In every state of a run the cursor is nowhere or on a linked node, exactly if no call of the run
evicts. A call of `next` reads the link of the cursor's node in one of these states. -/
theorem cursor_linked_iff (size : ℕ) (hs : 0 < size) (ops : List PoolOp)
    (hm : Along PoolOp.exec PoolOp.MallocSound (initNvmBlkPool size hs) ops) :
    (∀ p ∈ trajectory PoolOp.exec (initNvmBlkPool size hs) ops, p.CursorLinked) ↔
      Along PoolOp.exec NoEviction (initNvmBlkPool size hs) ops :=
  trajectory_good_iff NvmCacheBlkPool.WF CursorLinked PoolOp.MallocSound
    (fun _ _ h hm => PoolOp.exec_wf h hm)
    (fun _ _ h hm hl => PoolOp.exec_cursorLinked_iff h hm hl)
    (initNvmBlkPool_wf size hs) ⟨fun a ha => (by cases ha), fun a ha => (by cases ha)⟩ hm

/-- The pool of a test of the repository: one used block, then a call that evicts it. -/
def evictOne : List PoolOp := [.build .buildNvmBlock 200 123 (some 1), .getEmptyBlock 0 0]

theorem evictOne_mallocSound :
    Along PoolOp.exec PoolOp.MallocSound (initNvmBlkPool 10 (by decide)) evictOne := by
  refine ⟨?_, trivial, trivial⟩
  intro a ha
  obtain rfl : 1 = a := by simpa using ha
  exact ⟨by decide, by decide⟩

/-- The eviction of `evictOne` frees the node at address 1 and leaves the cursor there. -/
theorem evictOne_dangles :
    let p := run PoolOp.exec (initNvmBlkPool 10 (by decide)) evictOne
    Along PoolOp.exec PoolOp.MallocSound (initNvmBlkPool 10 (by decide)) evictOne ∧
      p.usedBlocksTable.cursorNode = some 1 ∧ 1 ∉ p.usedBlocksTable.nodes.live ∧
      p.usedBlocksTable.linked = [] ∧ ¬ p.CursorLinked := by
  refine ⟨evictOne_mallocSound, by decide, by decide, by decide, fun h => ?_⟩
  exact absurd (h.linked 1 (by decide)) (by decide)

theorem cursor_linked_iff_evictOne :
    (∀ p ∈ trajectory PoolOp.exec (initNvmBlkPool 10 (by decide)) evictOne, p.CursorLinked) ↔
      Along PoolOp.exec NoEviction (initNvmBlkPool 10 (by decide)) evictOne :=
  cursor_linked_iff 10 (by decide) evictOne evictOne_mallocSound

end NvmBlkCache
