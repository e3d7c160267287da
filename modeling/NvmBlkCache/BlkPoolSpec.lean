import NvmBlkCache.BlkPool

/-!
# What each call on the pool can do

One lemma a function: on a well-formed pool it returns, and this is the pool that it leaves. The
lemmas for `getEmptyBlock` list its three ways out, once for a valid pointer and once for NULL.
-/
namespace NvmBlkCache
open FaultProgram LinkedChain

namespace HashTable
variable {ht ht' : HashTable}

structure Inserted (ht ht' : HashTable) (k v : UInt64) : Prop where
  wf : ht'.WF
  cursor : ht'.CursorInv
  size_eq : ht'.size = ht.size
  linked_mono : ∀ a ∈ ht.linked, a ∈ ht'.linked
  lookup_eq : ht'.lookup = Function.update ht.lookup k (some v)
  cursorNode_eq : ht'.cursorNode = ht.cursorNode
  cursorBucket_eq : ht'.cursorBucket = ht.cursorBucket

/-- `ht'` is `ht` after the cursor has moved to `a` and `a` has been deleted. -/
structure Evicted (ht ht' : HashTable) (a : Addr) : Prop where
  mem : a ∈ ht.linked
  wf : ht'.WF
  cursor : ht'.CursorInv
  size_eq : ht'.size = ht.size
  mem_linked : ∀ c, c ∈ ht'.linked ↔ c ∈ ht.linked ∧ c ≠ a
  lookup_eq : ht'.lookup = Function.update ht.lookup (ht.key a) none
  key_eq : ht'.key = ht.key
  value_eq : ht'.value = ht.value
  cursorNode_eq : ht'.cursorNode = some a

theorem insert_present_spec (h : ht.WF) (hc : ht.CursorInv) {k v : UInt64} {c : Addr}
    (hf : ht.findNode k = some c) (m : Option Addr) :
    ∃ ht', insert k v m ht = .ok 0 ht' ∧ Inserted ht ht' k v := by
  obtain ⟨hm, rfl⟩ := findNode_some hf
  have hl : (ht.setValue c v).Linked ht.chain := Linked.setValue h c
  exact ⟨ht.setValue c v, h.insert_present hf _, hl.wf, hc.setValue h c v, rfl,
    fun b hb => (h.mem_linked_setValue c b).mpr hb, h.lookup_setValue hm, rfl, rfl⟩

theorem insert_spec (h : ht.WF) (hc : ht.CursorInv) {a : Addr} (ha : a ∉ ht.nodes.live)
    (k v : UInt64) : ∃ ht', insert k v (some a) ht = .ok 0 ht' ∧ Inserted ht ht' k v := by
  cases hf : ht.findNode k with
  | some c => exact insert_present_spec h hc hf _
  | none =>
    have hk : ∀ b ∈ ht.linked, ht.key b ≠ k := by
      apply h.lookup_eq_none.mp
      simp [lookup, hf]
    have hl := h.pushNode_linked (v := v) ha hk
    exact ⟨ht.pushNode k v a, h.insert_absent hf a, hl.wf, hc.pushNode h ha hk, rfl,
      fun b hb => (h.mem_linked_pushNode ha hk b).mpr (Or.inr hb), h.lookup_pushNode ha hk,
      rfl, rfl⟩

/-- Deleting the node that `next` has just returned unlinks exactly that node. -/
theorem evict_spec (h : ht.WF) {a : Addr} (ha : a ∈ ht.linked) {cb : ℕ} (hcb : cb ≤ ht.size) :
    ∃ ht', deleteKey (ht.key a) { ht with cursorBucket := cb, cursorNode := some a } = .ok 0 ht' ∧
      Evicted ht ht' a := by
  have hw := h.moveCursor cb (some a)
  have hf : { ht with cursorBucket := cb, cursorNode := some a }.findNode (ht.key a) = some a :=
    hw.findNode_key ha
  obtain ⟨xs, ys, hx, hd⟩ := hw.deleteKey_present hf
  have hi := ht.hashFunc_lt (ht.key a)
  exact ⟨_, hd, ha, (Linked.unlinkNode hw hi hx).wf,
    hw.cursorInv_unlinkNode hi hx hcb rfl, unlinkNode_size a,
    hw.mem_linked_unlinkNode hi hx, hw.lookup_unlinkNode hi hx, unlinkNode_key a,
    unlinkNode_value a, unlinkNode_cursorNode a⟩

theorem next_some (h : ht.WF) (hc : ht.CursorInv) (hr : ht.CursorReaches) :
    ∃ a ∈ ht.linked, ∃ cb ≤ ht.size,
      next ht = (some a, { ht with cursorBucket := cb, cursorNode := some a }) := by
  rcases next_cases h hc with ⟨_, he⟩ | ⟨hn, _⟩
  · exact he
  · exact absurd hr hn

theorem next_none (h : ht.WF) (hc : ht.CursorInv) (hr : ¬ ht.CursorReaches) :
    next ht = (none, { ht with cursorBucket := ht.size }) := by
  rcases next_cases h hc with ⟨hr', _⟩ | ⟨_, he⟩
  · exact absurd hr' hr
  · exact he

end HashTable

open HashTable

namespace NvmCacheBlkPool
variable {p : NvmCacheBlkPool}

theorem initNvmBlkPool_wf (size : ℕ) (hs : 0 < size) : (initNvmBlkPool size hs).WF :=
  ⟨Queue.initQueue_linked.wf, (createHashtable_linked size hs).wf,
    createHashtable_cursorInv size hs⟩

theorem WF.mem_usedIds (h : p.WF) {v : UInt64} : v ∈ p.usedIds ↔ ∃ k, p.blockOf k = some v := by
  simp only [usedIds, values, List.mem_map, blockOf, h.table.lookup_iff]
  constructor
  · rintro ⟨a, ha, rfl⟩
    exact ⟨_, a, ha, rfl, rfl⟩
  · rintro ⟨k, a, ha, _, rfl⟩
    exact ⟨a, ha, rfl⟩

theorem WF.blockOf_eq_none (h : p.WF) (hu : p.usedIds = []) (k : UInt64) : p.blockOf k = none := by
  rw [Option.eq_none_iff_forall_ne_some]
  intro v hv
  have hused := h.mem_usedIds.mpr ⟨k, hv⟩
  rw [hu] at hused
  cases hused

/-- When no block is under two LBAs, an LBA is known by its block. -/
theorem WF.blockOf_injective (h : p.WF) (hu : p.usedIds.Nodup) {k l v : UInt64}
    (hk : p.blockOf k = some v) (hl : p.blockOf l = some v) : k = l := by
  obtain ⟨a, ha, rfl, hav⟩ := h.table.lookup_iff.mp hk
  obtain ⟨b, hb, rfl, hbv⟩ := h.table.lookup_iff.mp hl
  rw [List.inj_on_of_nodup_map hu ha hb (hav.trans hbv.symm)]

theorem WF.search_spec (h : p.WF) (k : UInt64) :
    ∃ ptr, searchNvmBlkByLba k p = .ok ptr p ∧ ptr.val? = p.blockOf k := by
  obtain ⟨ptr, hs, hv⟩ := h.table.search_eq k
  exact ⟨ptr, by rw [searchNvmBlkByLba, onTable, zoom_ok hs], hv⟩

theorem WF.build_empty (h : p.WF) {a : Addr} (ha : p.Fresh a) (id : UInt64) :
    ∃ q, onQueue (modify (enqueue id (some a))) p = .ok ⟨⟩ { p with emptyBlocksQueue := q } ∧
      q.WF ∧ q.ids = p.emptyIds ++ [id] :=
  ⟨_, rfl, Queue.enqueue_wf h.queue ha.queue id, Queue.ids_enqueue h.queue ha.queue id⟩

theorem WF.build_valid (h : p.WF) {a : Addr} (ha : p.Fresh a) (id lba : UInt64) :
    ∃ ht, onTable (insert lba id (some a)) p = .ok 0 { p with usedBlocksTable := ht } ∧
      Inserted p.usedBlocksTable ht lba id := by
  obtain ⟨ht, hi, hins⟩ := insert_spec h.table h.cursor ha.table lba id
  exact ⟨ht, zoom_ok hi, hins⟩

theorem WF.withQueue (h : p.WF) {q : Queue} (hq : q.WF) :
    { p with emptyBlocksQueue := q }.WF := ⟨hq, h.table, h.cursor⟩

theorem WF.withTable (h : p.WF) {ht : HashTable} (hw : ht.WF) (hc : ht.CursorInv) :
    { p with usedBlocksTable := ht }.WF := ⟨h.queue, hw, hc⟩

/-- Way out 1 of `getEmptyBlock`: the oldest empty block. The store through NULL faults after the
dequeue. -/
theorem WF.getEmptyBlock_queue (h : p.WF) {v : UInt64} {vs : List UInt64}
    (hi : p.emptyIds = v :: vs) : ∃ q, q.WF ∧ q.ids = vs ∧
      (∀ a x, getEmptyBlock (.cell a x) p =
        .ok (0, .cell a v) { p with emptyBlocksQueue := q }) ∧
      getEmptyBlock .null p = .error .nullDeref { p with emptyBlocksQueue := q } := by
  obtain ⟨q, hd, hq, hids⟩ := Queue.dequeue_cons h.queue hi
  have hne : isEmpty p.emptyBlocksQueue = false := by
    rw [Bool.eq_false_iff, ne_eq, Queue.isEmpty_iff h.queue]
    exact fun he => by simp [emptyIds, he] at hi
  have hq' : onQueue dequeue p = .ok v { p with emptyBlocksQueue := q } := zoom_ok hd
  refine ⟨q, hq, hids, fun a x => ?_, ?_⟩
  · rw [getEmptyBlock, bind_ok (get_apply p), if_neg (by simp [hne]), bind_ok hq']
    rfl
  · rw [getEmptyBlock, bind_ok (get_apply p), if_neg (by simp [hne]), bind_ok hq']
    rfl

/-- On an empty queue the entry of the node that `next` moves to goes. -/
theorem WF.getEmptyBlock_next (h : p.WF) (hi : p.emptyIds = []) {node : Addr} {cb : ℕ}
    {ht : HashTable}
    (hn : next p.usedBlocksTable =
      (some node, { p.usedBlocksTable with cursorBucket := cb, cursorNode := some node }))
    (hd : deleteKey (p.usedBlocksTable.key node)
      { p.usedBlocksTable with cursorBucket := cb, cursorNode := some node } = .ok 0 ht) :
    (∀ a x, getEmptyBlock (.cell a x) p =
      .ok (1, .cell a (p.usedBlocksTable.value node)) { p with usedBlocksTable := ht }) ∧
    getEmptyBlock .null p = .error .nullDeref
      { p with usedBlocksTable :=
        { p.usedBlocksTable with cursorBucket := cb, cursorNode := some node } } := by
  have he : isEmpty p.emptyBlocksQueue = true := (Queue.isEmpty_iff h.queue).mpr hi
  have hnext : onTable (modifyGet next) p = .ok (some node)
      { p with usedBlocksTable :=
        { p.usedBlocksTable with cursorBucket := cb, cursorNode := some node } } := by
    apply zoom_ok
    simp [modifyGet, MonadStateOf.modifyGet, EStateM.modifyGet, hn]
  refine ⟨fun a x => ?_, ?_⟩
  · rw [getEmptyBlock, bind_ok (get_apply p), if_pos he, bind_ok hnext]
    have hdel : onTable (deleteKey (p.usedBlocksTable.key node))
        { p with usedBlocksTable :=
          { p.usedBlocksTable with cursorBucket := cb, cursorNode := some node } } =
        .ok 0 { p with usedBlocksTable := ht } := zoom_ok hd
    simp only [bind_ok (get_apply _)]
    exact bind_ok hdel
  · rw [getEmptyBlock, bind_ok (get_apply p), if_pos he, bind_ok hnext]
    rfl

/-- Way out 2: no empty block, but the cursor reaches a used one, and its entry goes. The store
through NULL faults before the entry is deleted. -/
theorem WF.getEmptyBlock_evict (h : p.WF) (hi : p.emptyIds = [])
    (hr : p.usedBlocksTable.CursorReaches) :
    ∃ node ht cb, Evicted p.usedBlocksTable ht node ∧ cb ≤ p.usedBlocksTable.size ∧
      (∀ a x, getEmptyBlock (.cell a x) p =
        .ok (1, .cell a (p.usedBlocksTable.value node)) { p with usedBlocksTable := ht }) ∧
      getEmptyBlock .null p = .error .nullDeref
        { p with usedBlocksTable :=
          { p.usedBlocksTable with cursorBucket := cb, cursorNode := some node } } := by
  obtain ⟨node, hm, cb, hcb, hn⟩ := next_some h.table h.cursor hr
  obtain ⟨ht, hd, hev⟩ := evict_spec h.table hm hcb
  exact ⟨node, ht, cb, hev, hcb, h.getEmptyBlock_next hi hn hd⟩

/-- Way out 3: the cursor is past every entry, and the answer is no block at all. -/
theorem WF.getEmptyBlock_giveUp (h : p.WF) (hi : p.emptyIds = [])
    (hr : ¬ p.usedBlocksTable.CursorReaches) :
    (∀ a x, getEmptyBlock (.cell a x) p = .ok (1, .cell a uint64Max)
      { p with usedBlocksTable :=
        { p.usedBlocksTable with cursorBucket := p.usedBlocksTable.size } }) ∧
    getEmptyBlock .null p = .error .nullDeref
      { p with usedBlocksTable :=
        { p.usedBlocksTable with cursorBucket := p.usedBlocksTable.size } } := by
  have he : isEmpty p.emptyBlocksQueue = true := (Queue.isEmpty_iff h.queue).mpr hi
  have hnext : onTable (modifyGet next) p = .ok none
      { p with usedBlocksTable :=
        { p.usedBlocksTable with cursorBucket := p.usedBlocksTable.size } } := by
    apply zoom_ok
    simp [modifyGet, MonadStateOf.modifyGet, EStateM.modifyGet, next_none h.table h.cursor hr]
  refine ⟨fun a x => ?_, ?_⟩ <;>
  · rw [getEmptyBlock, bind_ok (get_apply p), if_pos he, bind_ok hnext]
    rfl

/-- `p'` is what `getEmptyBlock` leaves of `p` when its pointer is NULL: the oldest empty block is in
neither list any more, and no entry of the table has gone. -/
structure LeftByNull (p p' : NvmCacheBlkPool) : Prop where
  wf : p'.WF
  emptyIds_eq : p'.emptyIds = p.emptyIds.tail
  usedIds_eq : p'.usedIds = p.usedIds
  blockOf_eq : p'.blockOf = p.blockOf

/-- Called with NULL, `getEmptyBlock` faults on all its ways out. -/
theorem WF.getEmptyBlock_null (h : p.WF) :
    ∃ p', getEmptyBlock .null p = .error .nullDeref p' ∧ LeftByNull p p' := by
  cases hi : p.emptyIds with
  | cons v vs =>
    obtain ⟨q, hq, hids, _, hnull⟩ := h.getEmptyBlock_queue hi
    exact ⟨_, hnull, h.withQueue hq, by rw [hi]; exact hids, rfl, rfl⟩
  | nil =>
    by_cases hr : p.usedBlocksTable.CursorReaches
    · obtain ⟨node, ht, cb, hev, hcb, _, hnull⟩ := h.getEmptyBlock_evict hi hr
      exact ⟨_, hnull, h.withTable (h.table.moveCursor _ _) (h.table.cursorInv_at hev.mem hcb),
        by rw [hi]; exact hi, rfl, rfl⟩
    · obtain ⟨_, hnull⟩ := h.getEmptyBlock_giveUp hi hr
      exact ⟨_, hnull, h.withTable (h.table.moveCursor _ _) h.cursor.moveToEnd,
        by rw [hi]; exact hi, rfl, rfl⟩

end NvmCacheBlkPool
end NvmBlkCache
