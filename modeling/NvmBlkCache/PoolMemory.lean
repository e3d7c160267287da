import NvmBlkCache.BlkPoolRun

/-!
# The memory of a pool

A pool from `init_nvm_blk_pool` to `destroy_nvm_blk_pool`, with all that it allocates. Either allocation
of `create_hashtable` may fail: then the pool's table is NULL, and the functions of `hashtable.c` have a
guard against that. In `create_hashtable` and `destroy_nvm_blk_pool` it is a fault to free what is not
allocated, and to read or write a node that is not.
-/
namespace NvmBlkCache
open FaultProgram LinkedChain LabelledRun

inductive MemoryFault
  | call (fault : Fault)
  | notAllocated (a : Addr)
  deriving DecidableEq

/-- What `create_hashtable` allocates, with the table that it is for. -/
structure TableAlloc where
  ht : Addr
  buckets : Addr
  table : HashTable

/-- `usedBlocksTable` may be NULL; `allocated` is what is allocated besides nodes. -/
structure PoolMemory where
  emptyBlocksQueue : Queue
  usedBlocksTable : Option TableAlloc
  allocated : Finset Addr

/-- `free(a)` -/
def freeCell (a : Addr) : EStateM MemoryFault (Finset Addr) Unit := fun allocated =>
  if a ∈ allocated then .ok ⟨⟩ (allocated.erase a) else .error (.notAllocated a) allocated

/-- The loop of `destruct_hashtable` over a chain: it reads the link of a node and frees the node. -/
def freeChain : ℕ → Option Addr → EStateM MemoryFault HashTable Unit
  | _, none => pure ⟨⟩
  | 0, some _ => throw (.call .hang)
  | fuel + 1, some temp => fun ht =>
    if temp ∈ ht.nodes.live then
      freeChain fuel (ht.link temp) { ht with nodes := ht.nodes.free temp }
    else .error (.notAllocated temp) ht

def freeBucket (i : ℕ) : EStateM MemoryFault HashTable Unit := fun ht =>
  freeChain ht.nodes.live.card (ht.buckets i) ht

def readNode (a : Addr) : EStateM MemoryFault Queue Node := fun q =>
  if a ∈ q.nodes.live then .ok (q.nodes.cell a) q else .error (.notAllocated a) q

def writeNode (a : Addr) (n : Node) : EStateM MemoryFault Queue Unit := fun q =>
  if a ∈ q.nodes.live then .ok ⟨⟩ { q with nodes := q.nodes.write a n }
  else .error (.notAllocated a) q

def freeNode (a : Addr) : EStateM MemoryFault Queue Unit := fun q =>
  if a ∈ q.nodes.live then .ok ⟨⟩ { q with nodes := q.nodes.free a } else .error (.notAllocated a) q

/-- The loop of `dequeue`: the last node, and the one before it. -/
def lastNode : ℕ → Option Addr → Option Addr → EStateM MemoryFault Queue (Option Addr × Addr)
  | _, _, none => throw (.call .nullDeref)
  | 0, _, some _ => throw (.call .hang)
  | fuel + 1, previous, some current => do
    match (← readNode current).next with
    | none => return (previous, current)
    | some next => lastNode fuel (some current) (some next)

namespace PoolMemory

abbrev MemoryM := EStateM Fault PoolMemory

def dequeue : EStateM MemoryFault Queue UInt64 := do
  let q ← get
  if isEmpty q then return 0
  let (previous, current) ← lastNode q.nodes.live.card none q.head
  let value := (← readNode current).data
  match previous with
  | none => modify fun q => { q with head := none, tail := none }
  | some previous =>
    writeNode previous { ← readNode previous with next := none }
    modify fun q => { q with tail := some previous }
  freeNode current
  modify fun q => { q with size := q.size - 1 }
  return value

def emptyOut : ℕ → EStateM MemoryFault Queue Unit
  | 0 => do
    if !isEmpty (← get) then throw (.call .hang)
  | fuel + 1 => do
    if isEmpty (← get) then return
    let _ ← dequeue
    emptyOut fuel

def destructQueue : EStateM MemoryFault Queue Unit := fun q => emptyOut q.size q

/-- `ht` and `buckets` are what the two allocations answer. -/
def createHashtable (size : ℕ) (size_pos : 0 < size) (ht buckets : Option Addr) :
    EStateM MemoryFault (Finset Addr) (Option TableAlloc) := do
  match ht with
  | none => return none
  | some ht =>
    modify (Insert.insert ht)
    match buckets with
    | none =>
      freeCell ht
      return none
    | some buckets =>
      modify (Insert.insert buckets)
      return some ⟨ht, buckets, NvmBlkCache.createHashtable size size_pos⟩

def initNvmBlkPool (size : ℕ) (size_pos : 0 < size) (ht buckets : Option Addr) : PoolMemory :=
  match createHashtable size size_pos ht buckets ∅ with
  | .ok table allocated => ⟨initQueue, table, allocated⟩
  | .error _ allocated => ⟨initQueue, none, allocated⟩

def onQueue {α : Type} (x : EStateM Fault Queue α) : MemoryM α :=
  zoom PoolMemory.emptyBlocksQueue (fun q p => { p with emptyBlocksQueue := q }) x

/-- A function of the hash table, which answers `null` for a table that is NULL. -/
def onTable {α : Type} (null : α) (x : EStateM Fault HashTable α) : MemoryM α := fun p =>
  match p.usedBlocksTable with
  | none => .ok null p
  | some t =>
    match x t.table with
    | .ok a ht => .ok a { p with usedBlocksTable := some { t with table := ht } }
    | .error e ht => .error e { p with usedBlocksTable := some { t with table := ht } }

def node (p : PoolMemory) (a : Addr) : HashNode :=
  match p.usedBlocksTable with
  | none => default
  | some t => t.table.nodes.cell a

def buildNvmBlock (nvmBlkId lba : UInt64) (malloc : Option Addr) : MemoryM Unit := do
  if lba = uint64Max then
    onQueue (modify (enqueue nvmBlkId malloc))
  else
    let _ ← onTable (-1) (NvmBlkCache.insert lba nvmBlkId malloc)

def buildNvmEmptyBlock (nvmBlkId lba : UInt64) (malloc : Option Addr) : MemoryM Unit := do
  if lba = uint64Max then
    onQueue (modify (enqueue nvmBlkId malloc))

def buildNvmValidBlock (nvmBlkId lba : UInt64) (malloc : Option Addr) : MemoryM Unit := do
  if lba ≠ uint64Max then
    let _ ← onTable (-1) (NvmBlkCache.insert lba nvmBlkId malloc)

def getEmptyBlock (nvmBlkId : U64Ptr) : MemoryM (Int32 × U64Ptr) := do
  if isEmpty (← get).emptyBlocksQueue then
    match ← onTable none (modifyGet next) with
    | some a =>
      let node := (← get).node a
      let nvmBlkId ← nvmBlkId.store node.value
      let _ ← onTable (-1) (deleteKey node.key)
      return (1, nvmBlkId)
    | none =>
      let nvmBlkId ← nvmBlkId.store uint64Max
      return (1, nvmBlkId)
  else
    let id ← onQueue NvmBlkCache.dequeue
    let nvmBlkId ← nvmBlkId.store id
    return (0, nvmBlkId)

def searchNvmBlkByLba (key : UInt64) : MemoryM U64Ptr := onTable .null (search key)

def onAllocated (x : EStateM MemoryFault (Finset Addr) Unit) : EStateM MemoryFault PoolMemory Unit :=
  zoom PoolMemory.allocated (fun s p => { p with allocated := s }) x

/-- `destruct_hashtable` behind its guard; the pointer of the pool is left as it is. -/
def freeTable (t : TableAlloc) : EStateM MemoryFault PoolMemory Unit := do
  zoom (fun _ => t.table) (fun ht p => { p with usedBlocksTable := some { t with table := ht } })
    ((List.range t.table.size).forM freeBucket)
  onAllocated (freeCell t.buckets)
  onAllocated (freeCell t.ht)

def destructHashtable : EStateM MemoryFault PoolMemory Unit := do
  match (← get).usedBlocksTable with
  | none => return
  | some t => freeTable t

def destroyNvmBlkPool : EStateM MemoryFault PoolMemory Unit := do
  zoom PoolMemory.emptyBlocksQueue (fun q p => { p with emptyBlocksQueue := q }) destructQueue
  destructHashtable

def build : BuildFunc → UInt64 → UInt64 → Option Addr → MemoryM Unit
  | .buildNvmBlock => buildNvmBlock
  | .buildNvmEmptyBlock => buildNvmEmptyBlock
  | .buildNvmValidBlock => buildNvmValidBlock

def exec (p : PoolMemory) : PoolOp → PoolMemory
  | .build func id lba m => stateAfter (build func id lba m p)
  | .searchNvmBlkByLba key => stateAfter (searchNvmBlkByLba key p)
  | .getEmptyBlock out init => stateAfter (getEmptyBlock (.cell out init) p)

/-- Not allocated by the pool. -/
structure Fresh (p : PoolMemory) (a : Addr) : Prop where
  queue : a ∉ p.emptyBlocksQueue.nodes.live
  table : ∀ t ∈ p.usedBlocksTable, a ∉ t.table.nodes.live
  other : a ∉ p.allocated

def MallocSound (p : PoolMemory) : PoolOp → Prop
  | .build _ _ _ m => ∀ a ∈ m, p.Fresh a
  | _ => True

theorem fresh_iff (p : PoolMemory) (a : Addr) : p.Fresh a ↔ a ∉ p.emptyBlocksQueue.nodes.live ∧
    (∀ t ∈ p.usedBlocksTable, a ∉ t.table.nodes.live) ∧ a ∉ p.allocated :=
  ⟨fun h => ⟨h.queue, h.table, h.other⟩, fun h => ⟨h.1, h.2.1, h.2.2⟩⟩

instance (p : PoolMemory) (a : Addr) : Decidable (p.Fresh a) := decidable_of_iff' _ (p.fresh_iff a)

structure NothingAllocated (p : PoolMemory) : Prop where
  queue : p.emptyBlocksQueue.nodes.live = ∅
  table : ∀ t ∈ p.usedBlocksTable, t.table.nodes.live = ∅
  other : p.allocated = ∅

end PoolMemory

/-- No node has been lost: what is allocated is as much as the counter says. -/
structure Queue.Tight (q : Queue) : Prop where
  wf : q.WF
  counted : q.nodes.live.card = q.size

structure HashTable.Tight (ht : HashTable) : Prop where
  wf : ht.WF
  counted : ht.nodes.live.card = ht.count

namespace Queue
variable {q : Queue} {xs : List Addr} {a : Addr}

theorem Tight.enqueue (h : q.Tight) {malloc : Option Addr} (hm : ∀ a ∈ malloc, a ∉ q.nodes.live)
    (v : UInt64) : (enqueue v malloc q).Tight := by
  cases malloc with
  | none => exact h
  | some a =>
    refine ⟨enqueue_wf h.wf (hm a rfl) v, ?_⟩
    simp [NvmBlkCache.enqueue, Finset.card_insert_of_notMem (hm a rfl), h.counted]

/-- `dequeue` frees the last node and no other. -/
theorem dequeue_live (h : q.Linked (xs ++ [a])) :
    (stateAfter (dequeue q)).nodes.live = q.nodes.live.erase a := by
  have hne : ¬ isEmpty q = true := by simp [isEmpty, h.size_eq]
  rw [dequeue, if_neg hne, walk_last h]
  cases xs.getLast? <;> rfl

theorem Tight.dequeue : Preserves Queue.Tight dequeue := by
  intro q h
  rcases List.eq_nil_or_concat q.chain with hn | ⟨xs, a, hc⟩
  · rw [dequeue_empty h.wf (by simp [ids, hn])]
    exact h
  · rw [List.concat_eq_append] at hc
    have hl : q.Linked (xs ++ [a]) := hc ▸ h.wf
    have hlive := dequeue_live hl
    have ha : a ∈ q.nodes.live := hl.live a (by simp)
    obtain ⟨q', hd, hl', -⟩ := dequeue_linked hl
    rw [hd, stateAfter_ok] at hlive ⊢
    refine ⟨hl'.wf, ?_⟩
    rw [hlive, Finset.card_erase_of_mem ha, h.counted, hl.size_eq, hl'.size_eq, List.length_append]
    rfl

theorem emptyOut_tight (fuel : ℕ) : Preserves Queue.Tight (emptyOut fuel) := by
  induction fuel with
  | zero =>
    intro q h
    rw [emptyOut, bind_ok (get_apply q)]
    split_ifs
    · exact h
    · exact h
  | succ fuel ih =>
    intro q h
    rw [emptyOut, bind_ok (get_apply q)]
    split_ifs
    · exact h
    · exact preserves_bind Tight.dequeue (fun _ => ih) q h

theorem Tight.live_eq (h : q.Tight) : q.nodes.live = q.chain.toFinset :=
  live_eq_of_card h.wf.chained.nodup h.wf.live (h.counted.trans h.wf.size_eq)

theorem readNode_live (ha : a ∈ q.nodes.live) : readNode a q = .ok (q.nodes.cell a) q := if_pos ha

theorem lastNode_spec {p : Option Addr} {fuel : ℕ} (h : IsChain q.link p (xs ++ [a]))
    (hlive : ∀ b ∈ xs ++ [a], b ∈ q.nodes.live) (hfuel : (xs ++ [a]).length ≤ fuel)
    (previous : Option Addr) :
    lastNode fuel previous p q = .ok (xs.getLast?.or previous, a) q := by
  induction xs generalizing p fuel previous with
  | nil =>
    obtain ⟨rfl, hend⟩ := h
    cases fuel with
    | zero => simp at hfuel
    | succ fuel =>
      have hnext : (q.nodes.cell a).next = none := hend
      rw [lastNode, bind_ok (readNode_live (hlive a (by simp))), hnext]
      rfl
  | cons b xs ih =>
    obtain ⟨rfl, hrest⟩ := h
    cases fuel with
    | zero => simp at hfuel
    | succ fuel =>
      have hnext : ∃ c, (q.nodes.cell b).next = some c := by
        cases xs with
        | nil => exact ⟨a, hrest.1⟩
        | cons c xs => exact ⟨c, hrest.1⟩
      obtain ⟨c, hc⟩ := hnext
      rw [show q.link b = some c from hc] at hrest
      rw [lastNode, bind_ok (readNode_live (hlive b (by simp))), hc]
      refine (ih hrest (fun d hd => hlive d (by simp [hd])) (by simpa using hfuel) (some b)).trans ?_
      cases xs with
      | nil => rfl
      | cons d xs => simp [List.getLast?_cons]

/-- On a queue in order all checks of `dequeue` pass, and it does what it does without them. -/
theorem dequeue_checked (h : q.WF) {v : UInt64} {q' : Queue} (hd : dequeue q = .ok v q') :
    PoolMemory.dequeue q = .ok v q' := by
  rcases List.eq_nil_or_concat q.chain with hn | ⟨xs, a, hc⟩
  · have hids : q.ids = [] := by simp [ids, hn]
    rw [dequeue_empty h hids] at hd
    obtain ⟨rfl, rfl⟩ := EStateM.Result.ok.inj hd
    rw [PoolMemory.dequeue, bind_ok (get_apply q), if_pos ((isEmpty_iff h).mpr hids)]
    rfl
  · rw [List.concat_eq_append] at hc
    have hl : q.Linked (xs ++ [a]) := hc ▸ h
    have hne : ¬ isEmpty q = true := by simp [isEmpty, hl.size_eq]
    have ha : a ∈ q.nodes.live := hl.live a (by simp)
    have hlast := lastNode_spec hl.chained hl.live hl.length_le none
    rw [Option.or_none] at hlast
    rw [dequeue, if_neg hne, walk_last hl] at hd
    rw [PoolMemory.dequeue, bind_ok (get_apply q), if_neg hne, bind_ok hlast]
    dsimp only
    rw [bind_ok (readNode_live ha)]
    cases hp : xs.getLast? with
    | none =>
      rw [hp] at hd
      obtain ⟨rfl, rfl⟩ := EStateM.Result.ok.inj hd
      simp [freeNode, ha, data, removeOnly, bind, EStateM.bind]
    | some previous =>
      rw [hp] at hd
      obtain ⟨rfl, rfl⟩ := EStateM.Result.ok.inj hd
      have hprev : previous ∈ q.nodes.live := hl.live previous (by simp [List.mem_of_getLast? hp])
      simp [freeNode, readNode, writeNode, ha, hprev, data, removeAfter, bind, EStateM.bind]

theorem emptyOut_checked {fuel : ℕ} (h : q.WF) {q' : Queue} (he : emptyOut fuel q = .ok ⟨⟩ q') :
    PoolMemory.emptyOut fuel q = .ok ⟨⟩ q' := by
  induction fuel generalizing q with
  | zero =>
    rw [emptyOut, bind_ok (get_apply q)] at he
    rw [PoolMemory.emptyOut, bind_ok (get_apply q)]
    cases hempty : isEmpty q with
    | true =>
      rw [hempty] at he
      obtain rfl : q = q' := (EStateM.Result.ok.inj he).2
      rfl
    | false =>
      rw [hempty] at he
      cases he
  | succ fuel ih =>
    rw [emptyOut, bind_ok (get_apply q)] at he
    rw [PoolMemory.emptyOut, bind_ok (get_apply q)]
    by_cases hempty : isEmpty q = true
    · rw [if_pos hempty] at he ⊢
      obtain rfl : q = q' := (EStateM.Result.ok.inj he).2
      rfl
    · rw [if_neg hempty] at he ⊢
      obtain ⟨v, vs, hids⟩ := List.exists_cons_of_ne_nil (mt (isEmpty_iff h).mpr hempty)
      obtain ⟨q₁, hd, hwf, -⟩ := dequeue_cons h hids
      rw [bind_ok hd] at he
      rw [bind_ok (dequeue_checked h hd)]
      exact ih hwf he

/-- `destruct_queue` frees each node once and leaves none allocated. -/
theorem Tight.destructs (h : q.Tight) :
    ∃ q', PoolMemory.destructQueue q = .ok ⟨⟩ q' ∧ q'.nodes.live = ∅ := by
  obtain ⟨q', hd, hwf, hids⟩ := destructQueue_spec h.wf
  have ht : q'.Tight := by
    have hafter := emptyOut_tight q.size q h
    rwa [show emptyOut q.size q = _ from hd] at hafter
  refine ⟨q', emptyOut_checked h.wf hd, ?_⟩
  rw [ht.live_eq]
  simpa [ids] using hids

end Queue

namespace HashTable
variable {ht : HashTable} {k v : UInt64}

theorem Tight.insert (h : ht.Tight) {malloc : Option Addr} (hm : ∀ a ∈ malloc, a ∉ ht.nodes.live) :
    (stateAfter (insert k v malloc ht)).Tight := by
  cases hf : ht.findNode k with
  | some c =>
    rw [h.wf.insert_present hf]
    exact ⟨(Linked.setValue h.wf c).wf, h.counted⟩
  | none =>
    cases malloc with
    | none =>
      rw [h.wf.insert_refused hf]
      exact h
    | some a =>
      have ha := hm a rfl
      have hk : ∀ b ∈ ht.linked, ht.key b ≠ k := by
        apply h.wf.lookup_eq_none.mp
        simp [lookup, hf]
      rw [h.wf.insert_absent hf]
      refine ⟨(h.wf.pushNode_linked ha hk).wf, ?_⟩
      simp [pushNode, Finset.card_insert_of_notMem ha, h.counted]

theorem Tight.deleteKey : Preserves HashTable.Tight (deleteKey k) := by
  intro ht h
  cases hf : ht.findNode k with
  | none =>
    rw [h.wf.deleteKey_absent hf]
    exact h
  | some a =>
    obtain ⟨xs, ys, hx, hd⟩ := h.wf.deleteKey_present hf
    rw [hd, stateAfter_ok]
    refine ⟨(Linked.unlinkNode h.wf (ht.hashFunc_lt k) hx).wf, ?_⟩
    rw [unlinkNode_live, unlinkNode_count,
      Finset.card_erase_of_mem (h.wf.linked_live (findNode_some hf).1), h.counted]

theorem Tight.next : Preserves HashTable.Tight (modifyGet next : EStateM Fault HashTable (Option Addr)) := by
  intro ht h
  obtain ⟨cb, cn, he⟩ := next_moves ht
  change (NvmBlkCache.next ht).2.Tight
  rw [he]
  exact ⟨h.wf.moveCursor cb cn, h.counted⟩

theorem Tight.live_eq (h : ht.Tight) : ht.nodes.live = ht.linked.toFinset :=
  live_eq_of_card h.wf.linked_nodup (fun _ ha => h.wf.linked_live ha)
    (h.counted.trans h.wf.count_eq)

/-- The table with other nodes allocated. -/
def withLive (ht : HashTable) (live : Finset Addr) : HashTable :=
  { ht with nodes := { ht.nodes with live := live } }

theorem sdiff_append (live : Finset Addr) (xs ys : List Addr) :
    live \ (xs ++ ys).toFinset = (live \ xs.toFinset) \ ys.toFinset := by
  ext a
  simp [and_assoc]

/-- The loop over a chain frees the nodes of the chain. -/
theorem freeChain_spec {p : Option Addr} {xs : List Addr} {live : Finset Addr} {fuel : ℕ}
    (h : IsChain ht.link p xs) (hlive : ∀ a ∈ xs, a ∈ live) (hfuel : xs.length ≤ fuel) :
    freeChain fuel p (ht.withLive live) = .ok ⟨⟩ (ht.withLive (live \ xs.toFinset)) := by
  induction xs generalizing p live fuel with
  | nil =>
    rw [isChain_nil] at h
    subst h
    rw [List.toFinset_nil, Finset.sdiff_empty]
    cases fuel <;> rfl
  | cons a xs ih =>
    have hnd := List.nodup_cons.mp h.nodup
    obtain ⟨rfl, hrest⟩ := h
    cases fuel with
    | zero => simp at hfuel
    | succ fuel =>
      rw [List.forall_mem_cons] at hlive
      have hrest' : ∀ b ∈ xs, b ∈ live.erase a := by
        intro b hb
        refine Finset.mem_erase.mpr ⟨?_, hlive.2 b hb⟩
        rintro rfl
        exact hnd.1 hb
      have hnext := ih hrest hrest' (by simpa using hfuel)
      have hfreed : live \ (a :: xs).toFinset = live.erase a \ xs.toFinset := by
        rw [← List.singleton_append, sdiff_append]
        simp [Finset.sdiff_singleton_eq_erase]
      rw [hfreed, ← hnext, freeChain]
      exact if_pos hlive.1

theorem WF.disjoint_chains (h : ht.WF) {b c : ℕ} (hb : b < ht.size) (hc : c < ht.size) (hne : b ≠ c)
    {a : Addr} (ha : a ∈ ht.chain b) : a ∉ ht.chain c := by
  intro ha'
  exact hne ((h.hashed b hb a ha).symm.trans (h.hashed c hc a ha'))

/-- The loop over the buckets: what has been freed for one bucket is not met in another. -/
theorem WF.freeBuckets_spec (h : ht.WF) {bs : List ℕ} (hbs : ∀ b ∈ bs, b < ht.size) (hnd : bs.Nodup)
    {live : Finset Addr} (hlive : ∀ b ∈ bs, ∀ a ∈ ht.chain b, a ∈ live) :
    bs.forM freeBucket (ht.withLive live) =
      .ok ⟨⟩ (ht.withLive (live \ (bs.flatMap ht.chain).toFinset)) := by
  induction bs generalizing live with
  | nil =>
    rw [List.flatMap_nil, List.toFinset_nil, Finset.sdiff_empty]
    rfl
  | cons b bs ih =>
    rw [List.forall_mem_cons] at hbs hlive
    rw [List.nodup_cons] at hnd
    have hfirst : freeBucket b (ht.withLive live) =
        .ok ⟨⟩ (ht.withLive (live \ (ht.chain b).toFinset)) :=
      freeChain_spec (h.chained b hbs.1) hlive.1 ((h.chained b hbs.1).length_le_card hlive.1)
    have hrest : ∀ c ∈ bs, ∀ a ∈ ht.chain c, a ∈ live \ (ht.chain b).toFinset := by
      intro c hc a ha
      refine Finset.mem_sdiff.mpr ⟨hlive.2 c hc a ha, ?_⟩
      rw [List.mem_toFinset]
      have hne : c ≠ b := fun he => hnd.1 (he ▸ hc)
      exact h.disjoint_chains (hbs.2 c hc) hbs.1 hne ha
    change (freeBucket b >>= fun _ => bs.forM freeBucket) (ht.withLive live) = _
    rw [bind_ok hfirst, ih hbs.2 hnd.2 hrest, List.flatMap_cons, sdiff_append]

/-- `destruct_hashtable` frees each node once. -/
theorem Tight.freesNodes (h : ht.Tight) :
    (List.range ht.size).forM freeBucket ht = .ok ⟨⟩ (ht.withLive ∅) := by
  have hlive : ∀ b ∈ List.range ht.size, ∀ a ∈ ht.chain b, a ∈ ht.nodes.live :=
    fun b hb a ha => h.wf.live b (List.mem_range.mp hb) a ha
  have hrun := h.wf.freeBuckets_spec (fun b hb => List.mem_range.mp hb) List.nodup_range hlive
  rw [show (List.range ht.size).flatMap ht.chain = ht.linked from rfl, ← h.live_eq,
    Finset.sdiff_self] at hrun
  exact hrun

end HashTable

namespace PoolMemory
variable {p : PoolMemory}

/-- Whatever is allocated is the pool's: its nodes, and the two allocations of its table if it has one. -/
structure Owned (p : PoolMemory) : Prop where
  queue : p.emptyBlocksQueue.Tight
  table : ∀ t ∈ p.usedBlocksTable,
    t.table.Tight ∧ t.ht ≠ t.buckets ∧ p.allocated = {t.ht, t.buckets}
  null : p.usedBlocksTable = none → p.allocated = ∅

theorem Owned.onQueue {α : Type} {x : EStateM Fault Queue α} (h : p.Owned)
    (hx : (stateAfter (x p.emptyBlocksQueue)).Tight) : (stateAfter (onQueue x p)).Owned := by
  unfold PoolMemory.onQueue
  cases he : x p.emptyBlocksQueue with
  | ok a q =>
    rw [he] at hx
    rw [zoom_ok he]
    exact ⟨hx, h.table, h.null⟩
  | error e q =>
    rw [he] at hx
    rw [zoom_error he]
    exact ⟨hx, h.table, h.null⟩

theorem Owned.onTable {α : Type} {null : α} {x : EStateM Fault HashTable α} (h : p.Owned)
    (hx : ∀ t ∈ p.usedBlocksTable, (stateAfter (x t.table)).Tight) :
    (stateAfter (onTable null x p)).Owned := by
  unfold PoolMemory.onTable
  cases ht : p.usedBlocksTable with
  | none => exact h
  | some t =>
    have hx' := hx t ht
    have hown := (h.table t ht).2
    cases he : x t.table with
    | ok a t' =>
      rw [he] at hx'
      simp only [he]
      exact ⟨h.queue, by rintro _ ⟨⟩; exact ⟨hx', hown⟩, nofun⟩
    | error e t' =>
      rw [he] at hx'
      simp only [he]
      exact ⟨h.queue, by rintro _ ⟨⟩; exact ⟨hx', hown⟩, nofun⟩

theorem preserves_onTable {α : Type} {null : α} {x : EStateM Fault HashTable α}
    (hx : Preserves HashTable.Tight x) : Preserves Owned (PoolMemory.onTable null x) :=
  fun _ h => h.onTable fun t ht => hx t.table (h.table t ht).1

theorem preserves_store (v : UInt64) (ptr : U64Ptr) :
    Preserves Owned (ptr.store v : MemoryM U64Ptr) := by
  cases ptr with
  | null => exact preserves_throw _
  | cell a x => exact preserves_pure _

theorem getEmptyBlock_owned (ptr : U64Ptr) : Preserves Owned (getEmptyBlock ptr) := by
  refine preserves_get fun p => preserves_ite ?_ ?_
  · refine preserves_bind (preserves_onTable HashTable.Tight.next) fun a => ?_
    cases a with
    | none => exact preserves_bind (preserves_store _ _) fun _ => preserves_pure _
    | some a =>
      refine preserves_get fun p' => preserves_bind (preserves_store _ _) fun _ => ?_
      exact preserves_bind (preserves_onTable HashTable.Tight.deleteKey) fun _ => preserves_pure _
  · have hdequeue : Preserves Owned (PoolMemory.onQueue NvmBlkCache.dequeue) :=
      fun p h => h.onQueue (Queue.Tight.dequeue _ h.queue)
    exact preserves_bind hdequeue fun _ => preserves_bind (preserves_store _ _) fun _ =>
      preserves_pure _

theorem Owned.build (h : p.Owned) {m : Option Addr} (hm : ∀ a ∈ m, p.Fresh a) (func : BuildFunc)
    (id lba : UInt64) : (stateAfter (build func id lba m p)).Owned := by
  have henqueue : (stateAfter (PoolMemory.onQueue (modify (enqueue id m)) p)).Owned :=
    h.onQueue (h.queue.enqueue (fun a ha => (hm a ha).queue) id)
  have hinsert : (stateAfter ((do
      let _ ← PoolMemory.onTable (-1) (insert lba id m)
      pure ⟨⟩ : MemoryM Unit) p)).Owned := by
    rw [stateAfter_bind_pure]
    exact h.onTable fun t ht => (h.table t ht).1.insert fun a ha => (hm a ha).table t ht
  cases func with
  | buildNvmBlock =>
    change (stateAfter (buildNvmBlock id lba m p)).Owned
    unfold buildNvmBlock
    split_ifs
    · exact henqueue
    · exact hinsert
  | buildNvmEmptyBlock =>
    change (stateAfter (buildNvmEmptyBlock id lba m p)).Owned
    unfold buildNvmEmptyBlock
    split_ifs
    · exact henqueue
    · exact h
  | buildNvmValidBlock =>
    change (stateAfter (buildNvmValidBlock id lba m p)).Owned
    unfold buildNvmValidBlock
    split_ifs
    · exact hinsert
    · exact h

theorem Owned.exec (h : p.Owned) {op : PoolOp} (hm : MallocSound p op) : (exec p op).Owned := by
  cases op with
  | build func id lba m => exact h.build hm func id lba
  | searchNvmBlkByLba key =>
    refine h.onTable fun t ht => ?_
    obtain ⟨ptr, hs, -⟩ := (h.table t ht).1.wf.search_eq key
    rw [hs]
    exact (h.table t ht).1
  | getEmptyBlock out init => exact getEmptyBlock_owned _ p h

theorem Owned.run (h : p.Owned) {ops : List PoolOp} (hm : Along PoolMemory.exec MallocSound p ops) :
    (LabelledRun.run PoolMemory.exec p ops).Owned :=
  run_invariant Owned (fun _ _ h hm => h.exec hm) h hm

theorem initQueue_tight : initQueue.Tight := ⟨Queue.initQueue_linked.wf, rfl⟩

theorem createHashtable_tight (size : ℕ) (hs : 0 < size) :
    (NvmBlkCache.createHashtable size hs).Tight :=
  ⟨(HashTable.createHashtable_linked size hs).wf, rfl⟩

/-- `create_hashtable` gives back its first allocation when the second one fails. -/
theorem initNvmBlkPool_eq (size : ℕ) (hs : 0 < size) (ht buckets : Option Addr) :
    initNvmBlkPool size hs ht buckets = match ht, buckets with
      | some a, some b => ⟨initQueue, some ⟨a, b, NvmBlkCache.createHashtable size hs⟩, {b, a}⟩
      | _, _ => ⟨initQueue, none, ∅⟩ := by
  cases ht with
  | none => rfl
  | some a =>
    cases buckets with
    | none => simp [initNvmBlkPool, createHashtable, freeCell, bind, EStateM.bind]
    | some b => rfl

theorem initNvmBlkPool_owned (size : ℕ) (hs : 0 < size) {ht buckets : Option Addr}
    (hne : ∀ a ∈ ht, a ∉ buckets) : (initNvmBlkPool size hs ht buckets).Owned := by
  rw [initNvmBlkPool_eq]
  cases ht with
  | none => exact ⟨initQueue_tight, nofun, fun _ => rfl⟩
  | some a =>
    cases buckets with
    | none => exact ⟨initQueue_tight, nofun, fun _ => rfl⟩
    | some b =>
      refine ⟨initQueue_tight, ?_, nofun⟩
      rintro _ ⟨⟩
      refine ⟨createHashtable_tight size hs, fun hab => hne a rfl ?_, Finset.pair_comm b a⟩
      exact congrArg some hab.symm

theorem freeCell_mem {a : Addr} {s : Finset Addr} (ha : a ∈ s) : freeCell a s = .ok ⟨⟩ (s.erase a) :=
  if_pos ha

theorem onAllocated_ok {x : EStateM MemoryFault (Finset Addr) Unit} {q : Queue}
    {t : Option TableAlloc} {s s' : Finset Addr} (h : x s = .ok ⟨⟩ s') :
    onAllocated x ⟨q, t, s⟩ = .ok ⟨⟩ ⟨q, t, s'⟩ := by
  simp [onAllocated, zoom, h]

theorem freeTable_spec {t : TableAlloc} (h : t.table.Tight) (hne : t.ht ≠ t.buckets)
    (halloc : p.allocated = {t.ht, t.buckets}) :
    freeTable t p = .ok ⟨⟩
      { p with usedBlocksTable := some { t with table := t.table.withLive ∅ }, allocated := ∅ } := by
  have hnodes : zoom (fun _ => t.table)
      (fun ht p => { p with usedBlocksTable := some { t with table := ht } })
      ((List.range t.table.size).forM freeBucket) p =
      .ok ⟨⟩ { p with usedBlocksTable := some { t with table := t.table.withLive ∅ } } :=
    zoom_ok h.freesNodes
  have hbuckets : freeCell t.buckets p.allocated = .ok ⟨⟩ {t.ht} := by
    rw [halloc, freeCell_mem (by simp), Finset.pair_comm, Finset.erase_insert (by simpa using hne.symm)]
  have hht : freeCell t.ht {t.ht} = .ok ⟨⟩ ∅ := by
    rw [freeCell_mem (by simp), Finset.erase_singleton]
  rw [freeTable, bind_ok hnodes, bind_ok (onAllocated_ok hbuckets), onAllocated_ok hht]

/-- `destroy_nvm_blk_pool` frees all that the pool has allocated. -/
theorem Owned.destroys (h : p.Owned) :
    ∃ p', destroyNvmBlkPool p = .ok ⟨⟩ p' ∧ p'.NothingAllocated := by
  obtain ⟨q, hq, hqlive⟩ := h.queue.destructs
  rw [destroyNvmBlkPool, bind_ok (zoom_ok hq), destructHashtable, bind_ok (get_apply _)]
  cases ht : p.usedBlocksTable with
  | none =>
    exact ⟨_, rfl, hqlive, nofun, h.null ht⟩
  | some t =>
    obtain ⟨htight, hne, halloc⟩ := h.table t ht
    refine ⟨_, freeTable_spec htight hne halloc, hqlive, ?_, rfl⟩
    rintro _ ⟨⟩
    rfl

end PoolMemory

open PoolMemory in
/-- From `init_nvm_blk_pool` on, with any allocation failing, the pool loses no memory: the nodes that are
allocated are those that are linked in the queue and in the table, and `destroy_nvm_blk_pool` frees each of
them and the table once. -/
theorem pool_memory_owned {size : ℕ} (hs : 0 < size) {ht buckets : Option Addr}
    (hne : ∀ a ∈ ht, a ∉ buckets) {ops : List PoolOp}
    (hm : Along PoolMemory.exec MallocSound (PoolMemory.initNvmBlkPool size hs ht buckets) ops) :
    let p := run PoolMemory.exec (PoolMemory.initNvmBlkPool size hs ht buckets) ops
    p.emptyBlocksQueue.nodes.live = p.emptyBlocksQueue.chain.toFinset ∧
    p.emptyBlocksQueue.nodes.live.card = p.emptyBlocksQueue.size ∧
    (∀ t ∈ p.usedBlocksTable, t.table.nodes.live = t.table.linked.toFinset) ∧
    ∃ p', destroyNvmBlkPool p = .ok ⟨⟩ p' ∧ p'.NothingAllocated := by
  have h := (initNvmBlkPool_owned size hs hne).run hm
  exact ⟨h.queue.live_eq, h.queue.counted, fun t ht => (h.table t ht).1.live_eq, h.destroys⟩

open PoolMemory in
/-- One build gets no node and one block is taken out again, so two are queued and one is in use. -/
theorem pool_memory_owned_inUse :
    let ops : List PoolOp := [.build .buildNvmBlock 0 uint64Max (some 0x100),
      .build .buildNvmBlock 1 7 none, .build .buildNvmBlock 2 8 (some 0x200),
      .build .buildNvmBlock 3 uint64Max (some 0x300), .build .buildNvmBlock 4 uint64Max (some 0x400),
      .getEmptyBlock 0x500 0]
    let p := run PoolMemory.exec
      (PoolMemory.initNvmBlkPool 4 (by decide) (some 0x10) (some 0x20)) ops
    p.emptyBlocksQueue.nodes.live = {0x300, 0x400} ∧
      ∃ p', destroyNvmBlkPool p = .ok ⟨⟩ p' ∧ p'.NothingAllocated := by
  intro ops p
  have hm : Along PoolMemory.exec MallocSound
      (PoolMemory.initNvmBlkPool 4 (by decide) (some 0x10) (some 0x20)) ops := by
    refine ⟨?_, nofun, ?_, ?_, ?_, trivial, trivial⟩ <;>
    · rintro _ ⟨⟩
      decide
  obtain ⟨hlive, -, -, hdestroy⟩ := pool_memory_owned (by decide) (by simp) hm
  refine ⟨hlive.trans ?_, hdestroy⟩
  decide

end NvmBlkCache
