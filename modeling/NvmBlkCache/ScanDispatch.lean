import NvmBlkCache.PoolDrain
import NvmBlkCache.ScanRegistration

/-!
# What a scan builds

The loop of `cache_mapper_scan` hands every block to every function of the array. On an empty pool that
comes to one build a block if the array holds one pair of functions; with more pairs an empty block is
queued once for each of them, and then handed out as often.
-/
namespace NvmBlkCache
open FaultProgram ByteMemory LinkedChain LabelledRun HashTable NvmCacheBlkPool FifoMap

/-- A `get_lba` that finds these LBAs. -/
def readsLba (lbas : NvmCacheBlkId → LbaType) (blkIndex : NvmCacheBlkId) : Prog Int32 := do
  storeU64 (← get).lbaVar (lbas blkIndex)
  return 0

/-- The calls `build_nvm_block(i, l_i)`, with the nodes that `malloc` answers them. -/
def scanBuilds (lbas : NvmCacheBlkId → LbaType) (nodes : ℕ → Addr) (n : ℕ) : List BlockBuild :=
  (List.range n).map fun i => ⟨UInt64.ofNat i, lbas (UInt64.ofNat i), some (nodes i)⟩

/-- The blocks without an LBA, in ascending order. -/
def emptyBlocks (lbas : NvmCacheBlkId → LbaType) (n : ℕ) : List NvmCacheBlkId :=
  ((List.range n).map UInt64.ofNat).filter fun id => lbas id = uint64Max

/-- The scan of `n` blocks that finds `lbas` leaves the queue and the map that the builds, one a block,
leave; every empty block is queued once. -/
def DispatchesOnce (m : Machine) (lbas : NvmCacheBlkId → LbaType) (n : ℕ) : Prop :=
  ∃ m', cacheMapperScanWith (readsLba lbas) m = .ok 0 m' ∧
    (∀ nodes, Along PoolOp.exec PoolOp.MallocSound m.cache.blkPool
        ((scanBuilds lbas nodes n).map BlockBuild.op) →
      m'.cache.blkPool.view =
        (run PoolOp.exec m.cache.blkPool ((scanBuilds lbas nodes n).map BlockBuild.op)).view) ∧
    m'.cache.blkPool.emptyIds = emptyBlocks lbas n

/-- The next `n` allocations of nodes succeed, each with an address of its own. -/
def Machine.AllocatesNodes (m : Machine) (n : ℕ) : Prop :=
  ∀ i < n, ∃ a, m.outcomes.malloc.get i = some a ∧ ∀ j < i, m.outcomes.malloc.get j ≠ some a

/-- What one function of the array does to the contents of the pool. -/
def dispatch (id : NvmCacheBlkId) (lba : LbaType) (s : Store LbaType UInt64) (func : BuildFunc) :
    Store LbaType UInt64 :=
  if func.Handles lba then s.add EmptyLba lba id else s

/-- The contents of an empty pool after `n` blocks have been handed to `funcs`. -/
def dispatched (funcs : List BuildFunc) (lbas : NvmCacheBlkId → LbaType) (n : ℕ) :
    Store LbaType UInt64 :=
  (List.range n).foldl (fun s i =>
    funcs.foldl (dispatch (UInt64.ofNat i) (lbas (UInt64.ofNat i))) s) ⟨[], fun _ => none⟩

theorem dispatched_succ (funcs : List BuildFunc) (lbas : NvmCacheBlkId → LbaType) (n : ℕ) :
    dispatched funcs lbas (n + 1) =
      funcs.foldl (dispatch (UInt64.ofNat n) (lbas (UInt64.ofNat n)))
        (dispatched funcs lbas n) := by
  rw [dispatched, List.range_succ, List.foldl_append]
  rfl

/-- The first `c` allocations of `m₀` have been made, and the pool holds `s`. -/
structure Scanning (m₀ : Machine) (c : ℕ) (s : Store LbaType UInt64) (m : Machine) : Prop where
  mapper : m.cache.mapper = m₀.cache.mapper
  lbaVar : m.lbaVar = m₀.lbaVar
  malloc : m.outcomes.malloc = m₀.outcomes.malloc.drop c
  wf : m.cache.blkPool.WF
  view : m.cache.blkPool.view = s
  fresh : ∀ a, (∀ j < c, m₀.outcomes.malloc.get j ≠ some a) → m.cache.blkPool.Fresh a

variable {m₀ m : Machine} {c n : ℕ} {s : Store LbaType UInt64}

section Pool
variable {p : NvmCacheBlkPool}

theorem stateAfter_onTable {α : Type} (x : EStateM Fault HashTable α) (p : NvmCacheBlkPool) :
    stateAfter (onTable x p) = { p with usedBlocksTable := stateAfter (x p.usedBlocksTable) } := by
  rw [onTable, zoom]
  cases x p.usedBlocksTable <;> rfl

theorem insert_fresh {ht : HashTable} {malloc : Option Addr} {a : Addr} (k v : UInt64)
    (ha : a ∉ ht.nodes.live) (hne : malloc ≠ some a) :
    a ∉ (stateAfter (insert k v malloc ht)).nodes.live := by
  unfold NvmBlkCache.insert
  split
  · exact ha
  · exact ha
  · cases malloc with
    | none => exact ha
    | some b =>
      have hab : a ≠ b := fun h => hne (by rw [h])
      simpa [HashTable.pushNode, hab] using ha

/-- A build uses no other address than the one it gets. -/
theorem build_fresh {malloc : Option Addr} {a : Addr} (ha : p.Fresh a) (hne : malloc ≠ some a)
    (func : BuildFunc) (id lba : UInt64) :
    (PoolOp.exec p (.build func id lba malloc)).Fresh a := by
  have hqueue : (stateAfter (onQueue (modify (enqueue id malloc)) p)).Fresh a := by
    refine ⟨?_, ha.table⟩
    cases malloc with
    | none => exact ha.queue
    | some b =>
      have hab : a ≠ b := fun h => hne (by rw [h])
      have hq := ha.queue
      change a ∉ (enqueue id (some b) p.emptyBlocksQueue).nodes.live
      simpa [enqueue, hab] using hq
  have htable :
      (stateAfter ((do let _ ← onTable (insert lba id malloc) : PoolM Unit) p)).Fresh a := by
    rw [stateAfter_bind_pure, stateAfter_onTable]
    exact ⟨ha.queue, insert_fresh lba id ha.table hne⟩
  cases func with
  | buildNvmBlock =>
    rw [PoolOp.exec, BuildFunc.call, buildNvmBlock]
    split_ifs
    · exact hqueue
    · exact htable
  | buildNvmEmptyBlock =>
    rw [PoolOp.exec, BuildFunc.call, buildNvmEmptyBlock]
    split_ifs
    · exact hqueue
    · exact ha
  | buildNvmValidBlock =>
    rw [PoolOp.exec, BuildFunc.call, buildNvmValidBlock]
    split_ifs
    · exact htable
    · exact ha

end Pool

/-- One call through the array. -/
theorem Scanning.call (h : Scanning m₀ c s m) (halloc : m₀.AllocatesNodes n) (hc : c < n)
    (hvar : m₀.lbaVar ≠ 0) (id : NvmCacheBlkId) (func : BuildFunc) :
    ∃ m', callScanFunc id func m = .ok ⟨⟩ m' ∧ m'.dram = m.dram ∧
      Scanning m₀ (c + 1) (dispatch id (m.dram.load64 m₀.lbaVar) s func) m' := by
  obtain ⟨a, ha, hnew⟩ := halloc c hc
  have hhead : m.outcomes.malloc.head = some a := by
    rw [h.malloc, Stream'.head_drop, ha]
  have hfresh : ∀ b ∈ some a, m.cache.blkPool.Fresh b := by
    rintro b ⟨rfl⟩
    exact h.fresh a hnew
  let lba := m.dram.load64 m.lbaVar
  let p := PoolOp.exec m.cache.blkPool (.build func id lba (some a))
  let m' := { m with
    outcomes.malloc := m.outcomes.malloc.tail, cache := { m.cache with blkPool := p } }
  have hcall : onPool (func.call id lba (some a))
      { m with outcomes.malloc := m.outcomes.malloc.tail } = .ok ⟨⟩ m' :=
    onPool_ok (PoolOp.call_exec h.wf hfresh func id lba)
  have hmalloc : m'.outcomes.malloc = m₀.outcomes.malloc.drop (c + 1) := by
    rw [← Stream'.tail_drop', ← h.malloc]
  have hview : p.view = dispatch id lba s func := by
    rw [dispatch, ← h.view]
    simpa using PoolOp.view_build h.wf hfresh func id lba
  have hlba : lba = m.dram.load64 m₀.lbaVar := by rw [← h.lbaVar]
  refine ⟨m', ?_, rfl, h.mapper, h.lbaVar, hmalloc, ?_, hlba ▸ hview, ?_⟩
  · rw [callScanFunc, bind_ok (get_apply m), bind_ok (loadU64_apply (h.lbaVar ▸ hvar)),
      bind_ok mallocNode_apply, hhead]
    exact hcall
  · have hsound : (PoolOp.build func id lba (some a)).MallocSound m.cache.blkPool := hfresh
    exact PoolOp.exec_wf h.wf hsound
  · intro b hb
    have hne : some a ≠ some b := by
      rw [← ha]
      exact hb c (by omega)
    exact build_fresh (h.fresh b fun j hj => hb j (by omega)) hne func id lba

theorem Scanning.calls (h : Scanning m₀ c s m) (halloc : m₀.AllocatesNodes n)
    (hvar : m₀.lbaVar ≠ 0) (id : NvmCacheBlkId) {funcs : List BuildFunc}
    (hc : c + funcs.length ≤ n) :
    ∃ m', funcs.forM (callScanFunc id) m = .ok ⟨⟩ m' ∧
      Scanning m₀ (c + funcs.length)
        (funcs.foldl (dispatch id (m.dram.load64 m₀.lbaVar)) s) m' := by
  induction funcs generalizing c s m with
  | nil => exact ⟨m, rfl, h⟩
  | cons func funcs ih =>
    rw [List.length_cons] at hc
    obtain ⟨m₁, hrun, hdram, h₁⟩ := h.call halloc (by omega) hvar id func
    obtain ⟨m', hrest, h'⟩ := ih h₁ (by omega)
    refine ⟨m', ?_, ?_⟩
    · exact (bind_ok hrun).trans hrest
    · rw [hdram] at h'
      rw [List.length_cons, show c + (funcs.length + 1) = c + 1 + funcs.length by omega]
      exact h'

/-- One block: its LBA is stored, and every function of the array is called with it. -/
theorem Scanning.element (h : Scanning m₀ c s m) (halloc : m₀.AllocatesNodes n)
    (hvar : m₀.lbaVar ≠ 0) {mapper : NvmCacheMapper} {funcs : List BuildFunc}
    (hm : m₀.cache.mapper = some mapper) (hf : mapper.funcArray = some funcs)
    (hc : c + funcs.length ≤ n) (lbas : NvmCacheBlkId → LbaType) (id : NvmCacheBlkId) :
    ∃ m', scanElementWith (readsLba lbas) id m = .ok none m' ∧
      Scanning m₀ (c + funcs.length) (funcs.foldl (dispatch id (lbas id)) s) m' := by
  let read := { m with dram := m.dram.store64 m.lbaVar (lbas id) }
  have hread : readsLba lbas id m = .ok 0 read := by
    rw [readsLba, bind_ok (get_apply m), bind_ok (storeU64_apply (h.lbaVar ▸ hvar) _)]
    rfl
  have h₁ : Scanning m₀ c s read := ⟨h.mapper, h.lbaVar, h.malloc, h.wf, h.view, h.fresh⟩
  have hlba : read.dram.load64 m₀.lbaVar = lbas id := by
    rw [← h.lbaVar]
    exact Mem.load64_store64 _
  obtain ⟨m', hrun, h'⟩ := h₁.calls halloc hvar id hc
  rw [hlba] at h'
  refine ⟨m', ?_, h'⟩
  have hmapper : read.cache.mapper = some mapper := h.mapper.trans hm
  rw [scanElementWith, bind_ok hread, if_neg (by simp), bind_ok (get_apply read), hmapper]
  simp only [hf, Option.getD_some]
  exact bind_ok hrun

/-- The loop comes to its end, with all blocks handed to all functions. -/
theorem scan_loop {size : ℕ} {hs : 0 < size} (hpool : m₀.cache.blkPool = initNvmBlkPool size hs)
    {mapper : NvmCacheMapper} {funcs : List BuildFunc} (hm : m₀.cache.mapper = some mapper)
    (hf : mapper.funcArray = some funcs) {k : ℕ}
    (halloc : m₀.AllocatesNodes (k * funcs.length)) (hvar : m₀.lbaVar ≠ 0)
    (lbas : NvmCacheBlkId → LbaType) :
    ∃ m', countUp (scanElementWith (readsLba lbas)) 0 k m₀ = .ok none m' ∧
      m'.cache.blkPool.view = dispatched funcs lbas k := by
  have hstart : Scanning m₀ (0 * funcs.length) (dispatched funcs lbas 0) m₀ := by
    rw [Nat.zero_mul]
    refine ⟨rfl, rfl, rfl, ?_, ?_, ?_⟩
    · rw [hpool]
      exact initNvmBlkPool_wf size hs
    · rw [hpool]
      exact view_initNvmBlkPool size hs
    · intro a _
      rw [hpool]
      exact ⟨Finset.notMem_empty a, Finset.notMem_empty a⟩
  have hround : ∀ j < k, ∀ m, Scanning m₀ (j * funcs.length) (dispatched funcs lbas j) m →
      ∃ m', scanElementWith (readsLba lbas) (UInt64.ofNat j) m = .ok none m' ∧
        Scanning m₀ ((j + 1) * funcs.length) (dispatched funcs lbas (j + 1)) m' := by
    intro j hj m h
    have hc : j * funcs.length + funcs.length ≤ k * funcs.length := by
      rw [← Nat.succ_mul]
      exact Nat.mul_le_mul_right _ hj
    rw [dispatched_succ, Nat.succ_mul]
    exact h.element halloc hvar hm hf hc lbas (UInt64.ofNat j)
  obtain ⟨m', hrun, h'⟩ := countUp_progress _ hstart hround
  exact ⟨m', hrun, h'.view⟩

section Contents
variable {id : NvmCacheBlkId} {lba : LbaType}

/-- The contents after one build a block. -/
def builtOnce (lbas : NvmCacheBlkId → LbaType) (n : ℕ) : Store LbaType UInt64 :=
  (List.range n).foldl (fun s i =>
    s.add EmptyLba (lbas (UInt64.ofNat i)) (UInt64.ofNat i)) ⟨[], fun _ => none⟩

theorem builtOnce_succ (lbas : NvmCacheBlkId → LbaType) (n : ℕ) :
    builtOnce lbas (n + 1) =
      (builtOnce lbas n).add EmptyLba (lbas (UInt64.ofNat n)) (UInt64.ofNat n) := by
  rw [builtOnce, List.range_succ, List.foldl_append]
  rfl

/-- Of the two functions one acts, whatever the LBA. -/
theorem dispatch_pair (s : Store LbaType UInt64) :
    [BuildFunc.buildNvmEmptyBlock, .buildNvmValidBlock].foldl (dispatch id lba) s =
      s.add EmptyLba lba id := by
  by_cases hl : lba = uint64Max
  · simp [dispatch, BuildFunc.Handles, hl]
  · simp [dispatch, BuildFunc.Handles, hl]

/-- With more pairs an empty block is queued more often, and another is bound again. -/
theorem dispatch_pairs (r : ℕ) (s : Store LbaType UInt64) :
    (List.replicate (r + 1) [BuildFunc.buildNvmEmptyBlock, .buildNvmValidBlock]).flatten.foldl
        (dispatch id lba) s =
      if lba = uint64Max then { s with fifo := s.fifo ++ List.replicate (r + 1) id }
      else s.add EmptyLba lba id := by
  induction r generalizing s with
  | zero =>
    have hone : (List.replicate (0 + 1)
        [BuildFunc.buildNvmEmptyBlock, .buildNvmValidBlock]).flatten =
        [.buildNvmEmptyBlock, .buildNvmValidBlock] := rfl
    rw [hone, dispatch_pair]
    by_cases hl : lba = uint64Max
    · simp [Store.add, hl]
    · simp [hl]
  | succ r ih =>
    rw [List.replicate_succ, List.flatten_cons, List.foldl_append, dispatch_pair, ih]
    by_cases hl : lba = uint64Max
    · simp [Store.add, hl, List.replicate_succ]
    · simp [Store.add, hl]

theorem builtOnce_fifo (lbas : NvmCacheBlkId → LbaType) (n : ℕ) :
    (builtOnce lbas n).fifo = emptyBlocks lbas n := by
  induction n with
  | zero => rfl
  | succ n ih =>
    rw [builtOnce_succ, emptyBlocks, List.range_succ, List.map_append, List.filter_append, Store.add,
      ← emptyBlocks]
    by_cases hl : lbas (UInt64.ofNat n) = uint64Max
    · simp [hl, ih]
    · simp [hl, ih]

/-- The map comes out the same, and the queue with every block repeated. -/
theorem dispatched_scanFuncs (k : ℕ) (lbas : NvmCacheBlkId → LbaType) (n : ℕ) :
    dispatched (scanFuncs (k + 1)) lbas n =
      ⟨(emptyBlocks lbas n).flatMap (List.replicate (min (k + 1) 5)), (builtOnce lbas n).map⟩ := by
  obtain ⟨r, hr⟩ : ∃ r, min (k + 1) 5 = r + 1 := ⟨min k 4, by omega⟩
  rw [← builtOnce_fifo]
  induction n with
  | zero => rfl
  | succ n ih =>
    rw [dispatched_succ, ih, scanFuncs, hr, dispatch_pairs, builtOnce_succ]
    by_cases hl : lbas (UInt64.ofNat n) = uint64Max
    · simp [Store.add, hl]
    · simp [Store.add, hl]

theorem flatMap_replicate_eq_self_iff {α : Type*} {xs : List α} {r : ℕ} :
    xs.flatMap (List.replicate r) = xs ↔ r = 1 ∨ xs = [] := by
  constructor
  · intro h
    have hlen := congrArg List.length h
    rw [List.length_flatMap] at hlen
    simp only [List.length_replicate, List.map_const', List.sum_replicate, smul_eq_mul] at hlen
    rcases Nat.eq_zero_or_pos xs.length with h0 | hpos
    · exact .inr (List.length_eq_zero_iff.mp h0)
    · exact .inl (Nat.eq_of_mul_eq_mul_left hpos (by omega))
  · rintro (rfl | rfl)
    · exact List.flatMap_singleton' xs
    · rfl

theorem emptyBlocks_eq_nil_iff {lbas : NvmCacheBlkId → LbaType} {n : ℕ} :
    emptyBlocks lbas n = [] ↔ ∀ i < n, lbas (UInt64.ofNat i) ≠ uint64Max := by
  simp [emptyBlocks]

theorem scanBuilds_onStore (lbas : NvmCacheBlkId → LbaType) (nodes : ℕ → Addr) (n : ℕ) :
    (scanBuilds lbas nodes n).foldl BlockBuild.onStore ⟨[], fun _ => none⟩ = builtOnce lbas n := by
  rw [scanBuilds, List.foldl_map, builtOnce]
  simp [BlockBuild.onStore]

end Contents

/-- What the scan leaves in an empty pool when `k` scans of the mapper have gone before. -/
theorem scan_view {k : ℕ} {mapper : NvmCacheMapper} (hm : m.cache.mapper = some mapper)
    (hf : mapper.funcArray = some (scanFuncs k)) {size : ℕ} {hs : 0 < size}
    (hpool : m.cache.blkPool = initNvmBlkPool size hs) (hvar : m.lbaVar ≠ 0)
    (halloc : m.AllocatesNodes (mapper.elementNum.toNat * numMapperScanFuncs))
    (lbas : NvmCacheBlkId → LbaType) :
    ∃ m', cacheMapperScanWith (readsLba lbas) m = .ok 0 m' ∧ m'.cache.blkPool.view =
      ⟨(emptyBlocks lbas mapper.elementNum.toNat).flatMap (List.replicate (min (k + 1) 5)),
        (builtOnce lbas mapper.elementNum.toNat).map⟩ := by
  have hlen : (scanFuncs (k + 1)).length ≤ numMapperScanFuncs := by
    rw [scanFuncs_length, numMapperScanFuncs]
    omega
  have hinit : (m.registered mapper k).cache.blkPool = initNvmBlkPool size hs := hpool
  obtain ⟨m', hloop, hm'⟩ := scan_loop hinit rfl rfl
    (fun i hi => halloc i (hi.trans_le (Nat.mul_le_mul_left _ hlen))) hvar lbas
  refine ⟨m', ?_, hm'.trans (dispatched_scanFuncs k lbas _)⟩
  rw [register_both hm hf, bind_ok hloop]
  rfl

/-- A scan comes to one build a block exactly if the function array could be allocated and this is the
first scan of the mapper, or finds no empty block. -/
theorem scan_dispatches_once_iff {k : ℕ} {mapper : NvmCacheMapper} (h : ScannedTimes k mapper)
    (hm : m.cache.mapper = some mapper) {size : ℕ} {hs : 0 < size}
    (hpool : m.cache.blkPool = initNvmBlkPool size hs) (hvar : m.lbaVar ≠ 0)
    (halloc : m.AllocatesNodes (mapper.elementNum.toNat * numMapperScanFuncs))
    (lbas : NvmCacheBlkId → LbaType) :
    DispatchesOnce m lbas mapper.elementNum.toNat ↔
      mapper.funcArray ≠ none ∧
        (k = 0 ∨ ∀ i < mapper.elementNum.toNat, lbas (UInt64.ofNat i) ≠ uint64Max) := by
  rcases h.funcArray_eq with hf | hf
  · have hrun : cacheMapperScanWith (readsLba lbas) m = .error .nullDeref m :=
      bind_error (registerMapperScanFunc_null hm hf _)
    simp [DispatchesOnce, hrun, hf]
  · obtain ⟨m', hrun, hview⟩ := scan_view hm hf hpool hvar halloc lbas
    have hids : m'.cache.blkPool.emptyIds =
        (emptyBlocks lbas mapper.elementNum.toNat).flatMap (List.replicate (min (k + 1) 5)) :=
      congrArg Store.fifo hview
    have hone : min (k + 1) 5 = 1 ↔ k = 0 := by omega
    rw [← emptyBlocks_eq_nil_iff, ← hone, ← flatMap_replicate_eq_self_iff]
    constructor
    · rintro ⟨t, ht, -, hempty⟩
      rw [hrun] at ht
      cases ht
      exact ⟨by simp [hf], hids.symm.trans hempty⟩
    · rintro ⟨-, hempty⟩
      refine ⟨m', hrun, fun nodes hsound => ?_, hids.trans hempty⟩
      rw [hpool] at hsound ⊢
      have hbuilt := ((initNvmBlkPool_wf size hs).run_builds ⟨rfl, rfl⟩ hsound).2.2
      rw [hbuilt, view_initNvmBlkPool, scanBuilds_onStore, hview, hempty, ← builtOnce_fifo]

/-- A device with room for one block, and an empty pool, after `k` scans. -/
def scannedBlock (k : ℕ) : Machine :=
  Machine.zeroed ⟨some smallNvm, some ⟨1, some (scanFuncs k)⟩, initNvmBlkPool 1 Nat.one_pos⟩

theorem scannedBlock_initialised : ScannedTimes 0 ⟨1, some (scanFuncs 0)⟩ := by
  have hinit : cacheMapperInit (some ⟨0, none⟩) 520 (some 0x10000) =
      (0, some ⟨1, some (scanFuncs 0)⟩) := rfl
  exact .init hinit

theorem scannedBlock_scannedOnce : ScannedTimes 1 ⟨1, some (scanFuncs 1)⟩ :=
  .scan scannedBlock_initialised (scannedBlock 0) rfl readLba readLba_keeps rfl

theorem scannedBlock_allocatesNodes (k : ℕ) : (scannedBlock k).AllocatesNodes 10 := by
  have hdistinct : ∀ i < 10, ∀ j < i,
      Outcomes.healthy.malloc.get j ≠ Outcomes.healthy.malloc.get i := by decide
  exact fun i hi => ⟨_, rfl, hdistinct i hi⟩

/-- The first scan gives up at once, and the second queues the only block twice. -/
theorem second_scan_queues_twice :
    returned (cacheMapperScan (scannedBlock 0)) = some (-1) ∧
      ScannedTimes 1 ⟨1, some (scanFuncs 1)⟩ ∧
      (∃ m', cacheMapperScanWith (readsLba fun _ => uint64Max) (scannedBlock 1) = .ok 0 m' ∧
        m'.cache.blkPool.emptyIds = [0, 0]) ∧
      ¬ DispatchesOnce (scannedBlock 1) (fun _ => uint64Max) 1 := by
  obtain ⟨m', hrun, hview⟩ := scan_view (m := scannedBlock 1) rfl rfl rfl (by decide)
    (scannedBlock_allocatesNodes 1) fun _ => uint64Max
  have hids : m'.cache.blkPool.emptyIds = [0, 0] := congrArg Store.fifo hview
  refine ⟨by decide, scannedBlock_scannedOnce, ⟨m', hrun, hids⟩, ?_⟩
  rintro ⟨t, ht, -, hempty⟩
  rw [hrun] at ht
  cases ht
  rw [hids] at hempty
  exact absurd hempty (by decide)

theorem first_scan_dispatches_once : DispatchesOnce (scannedBlock 0) (fun _ => uint64Max) 1 :=
  (scan_dispatches_once_iff scannedBlock_initialised rfl rfl (by decide) (scannedBlock_allocatesNodes 0)
    _).mpr ⟨by simp, .inl rfl⟩

end NvmBlkCache
