import NvmBlkCache.IoLoop

/-!
# Runs of I/O requests

Requests come with whatever their callers have put into DRAM and with whatever the allocators and
the lower device will answer. A request that stops on a fault leaves the cache as it is then, and
the next request finds it so.
-/
namespace NvmBlkCache
open FaultProgram ByteMemory LabelledRun NvmCacheBlkPool

structure IoEvent where
  req : NvmCacheIoReq
  dram : Mem
  outcomes : Outcomes

namespace Machine

def arrive (m : Machine) (ev : IoEvent) : Machine :=
  { m with dram := ev.dram, outcomes := ev.outcomes }

def HasMiss (m : Machine) (req : NvmCacheIoReq) : Prop :=
  ∃ k < req.lbaNum.toNat, m.blockOf (req.sector k) = none

/-- A write has to serve a sector that the pool does not know while the queue has an empty block. -/
def TakesBlock (m : Machine) (ev : IoEvent) : Prop :=
  ev.req.dir = .cacheWrite ∧ m.HasMiss ev.req ∧ m.cache.blkPool.emptyIds ≠ []

end Machine

def IoEvent.exec (m : Machine) (ev : IoEvent) : Machine :=
  stateAfter (nvmCacheHandleIo ev.req (m.arrive ev))

/-- `m'` is what the request leaves of the machine: the table maps what it mapped, the lower device is
as it was, NVM has changed in blocks of the request at most, and a write that takes an empty block
loses it. -/
structure Executed (m : Machine) (ev : IoEvent) (m' : Machine) : Prop where
  accessor_eq : m'.cache.accessor = m.cache.accessor
  mapper_eq : m'.cache.mapper = m.cache.mapper
  lowerBdev_eq : m'.lowerBdev = m.lowerBdev
  wf : m'.cache.blkPool.WF
  usedIds_eq : m'.cache.blkPool.usedIds = m.cache.blkPool.usedIds
  blockOf_eq : m'.blockOf = m.blockOf
  emptyIds_kept : ¬ m.TakesBlock ev → m'.cache.blkPool.emptyIds = m.cache.blkPool.emptyIds
  emptyIds_lost : m.TakesBlock ev → m'.cache.blkPool.emptyIds = m.cache.blkPool.emptyIds.tail
  untouched : ∀ a, (∀ k < ev.req.lbaNum.toNat, ∀ id, m.blockOf (ev.req.sector k) = some id →
    m.blockVaddr id ≠ 0 → ¬ InWindow (m.blockVaddr id) 512 a) → m'.nvm a = m.nvm a
  read_nvm : ev.req.dir = .cacheRead → m'.nvm = m.nvm

namespace Machine
variable {m t : Machine} {ev : IoEvent}

theorem executed_kept (hwf : m.cache.blkPool.WF) (ht : ¬ m.TakesBlock ev)
    (hcache : t.cache = m.cache) (hlower : t.lowerBdev = m.lowerBdev)
    (huntouched : ∀ a, (∀ k < ev.req.lbaNum.toNat, ∀ id, m.blockOf (ev.req.sector k) = some id →
      m.blockVaddr id ≠ 0 → ¬ InWindow (m.blockVaddr id) 512 a) → t.nvm a = m.nvm a)
    (hread : ev.req.dir = .cacheRead → t.nvm = m.nvm) : Executed m ev t where
  accessor_eq := by rw [hcache]
  mapper_eq := by rw [hcache]
  lowerBdev_eq := hlower
  wf := by rwa [hcache]
  usedIds_eq := by rw [hcache]
  blockOf_eq := by simp only [funext_iff, blockOf, hcache, implies_true]
  emptyIds_kept := fun _ => by rw [hcache]
  emptyIds_lost := fun h => absurd h ht
  untouched := huntouched
  read_nvm := hread

theorem executed_read (hwf : m.cache.blkPool.WF) (hm : m.cache.mapper.isSome)
    (hdir : ev.req.dir = .cacheRead) : Executed m ev (ev.exec m) := by
  obtain ⟨ret, t, he, hf⟩ := readIo_frame (m := m.arrive ev) ev.req hwf hm hdir
  rw [IoEvent.exec, he, stateAfter_ok]
  apply executed_kept hwf
  · rintro ⟨hw, -⟩
    rw [hdir] at hw
    cases hw
  · rw [hf]
    rfl
  · rw [hf]
    rfl
  · intro a _
    rw [hf]
    rfl
  · intro _
    rw [hf]
    rfl

theorem executed_write (hwf : m.cache.blkPool.WF) (hm : m.cache.mapper.isSome)
    (hdir : ev.req.dir = .cacheWrite) : Executed m ev (ev.exec m) := by
  by_cases hmiss : m.HasMiss ev.req
  · obtain ⟨k, t, p, hk, hp, hleft, he⟩ := writeIo_faults (m := m.arrive ev) hwf hm hdir hmiss
    rw [IoEvent.exec, he, stateAfter_error]
    have hframe := hp.frame
    refine ⟨rfl, rfl, by rw [hframe]; rfl, hleft.wf, hleft.usedIds_eq, hleft.blockOf_eq,
      fun hnot => ?_, fun _ => hleft.emptyIds_eq, fun a ha => ?_, fun hr => ?_⟩
    · have hnil : m.cache.blkPool.emptyIds = [] := by
        by_contra hne
        exact hnot ⟨hdir, hmiss, hne⟩
      have htail : p.emptyIds = m.cache.blkPool.emptyIds.tail := hleft.emptyIds_eq
      exact htail.trans (by rw [hnil, List.tail_nil])
    · exact hp.untouched a (fun j hj => ha j (hj.trans hk))
    · rw [hdir] at hr
      cases hr
  · have hknown : ∀ j < ev.req.lbaNum.toNat, (m.arrive ev).blockOf (ev.req.sector j) ≠ none :=
      fun j hj hnone => hmiss ⟨j, hj, hnone⟩
    obtain ⟨t, he, hp⟩ := writeIo_returns (m := m.arrive ev) hwf hm hdir hknown
    rw [IoEvent.exec, he, stateAfter_ok]
    have hframe := hp.frame
    apply executed_kept hwf (fun ht => hmiss ht.2.1)
    · rw [hframe]
      rfl
    · rw [hframe]
      rfl
    · exact hp.untouched
    · intro hr
      rw [hdir] at hr
      cases hr

theorem executed (hwf : m.cache.blkPool.WF) (hm : m.cache.mapper.isSome) :
    Executed m ev (ev.exec m) := by
  cases hdir : ev.req.dir with
  | cacheRead => exact executed_read hwf hm hdir
  | cacheWrite => exact executed_write hwf hm hdir

structure Ready (m : Machine) : Prop where
  wf : m.cache.blkPool.WF
  mapper : m.cache.mapper.isSome

theorem Ready.of_eq (h : m.Ready) (hcache : t.cache = m.cache) : t.Ready where
  wf := by simpa only [hcache] using h.wf
  mapper := by simpa only [hcache] using h.mapper

theorem Ready.executed (h : m.Ready) (ev : IoEvent) : Executed m ev (ev.exec m) :=
  Machine.executed h.wf h.mapper

/-- A write returns exactly if the pool knows all of its sectors. -/
theorem Ready.write_returns_iff (h : m.Ready) (hdir : ev.req.dir = .cacheWrite) :
    (∃ ret t, nvmCacheHandleIo ev.req (m.arrive ev) = .ok ret t) ↔ ¬ m.HasMiss ev.req := by
  constructor
  · rintro ⟨ret, t, hok⟩ hmiss
    obtain ⟨k, s, p, -, -, -, he⟩ := writeIo_faults (m := m.arrive ev) h.wf h.mapper hdir hmiss
    rw [he] at hok
    cases hok
  · intro hmiss
    obtain ⟨t, he, -⟩ := writeIo_returns (m := m.arrive ev) h.wf h.mapper hdir
      (fun j hj hnone => hmiss ⟨j, hj, hnone⟩)
    exact ⟨0, t, he⟩

theorem Ready.exec (h : m.Ready) (ev : IoEvent) : (ev.exec m).Ready where
  wf := (h.executed ev).wf
  mapper := by
    rw [(h.executed ev).mapper_eq]
    exact h.mapper

end Machine

/-- The pool holds each of the first `n` block ids exactly once, and nothing else. -/
def HoldsEachOnce (n : UInt64) (p : NvmCacheBlkPool) : Prop :=
  (p.emptyIds ++ p.usedIds).Perm ((List.range n.toNat).map UInt64.ofNat)

instance (n : UInt64) (p : NvmCacheBlkPool) : Decidable (HoldsEachOnce n p) :=
  inferInstanceAs (Decidable (List.Perm _ _))

namespace Machine
variable {m : Machine} {ev : IoEvent}

theorem Ready.holdsEachOnce_iff (h : m.Ready) {n : UInt64}
    (hheld : HoldsEachOnce n m.cache.blkPool) :
    HoldsEachOnce n (ev.exec m).cache.blkPool ↔ ¬ m.TakesBlock ev := by
  have he := h.executed ev
  constructor
  · intro hafter htakes
    -- one block fewer cannot be the same blocks
    have hlost := hafter.length_eq.trans hheld.length_eq.symm
    rw [he.emptyIds_lost htakes, he.usedIds_eq, List.length_append, List.length_append,
      List.length_tail] at hlost
    have hpos := List.length_pos_iff.mpr htakes.2.2
    omega
  · intro hkeeps
    unfold HoldsEachOnce
    rwa [he.emptyIds_kept hkeeps, he.usedIds_eq]

end Machine

/-- No block is lost in a run exactly when no write of it has to serve a sector that the pool does not
know while there is an empty block to take. -/
theorem io_keeps_blocks_iff {m : Machine} (h : m.Ready)
    (hheld : HoldsEachOnce m.elements m.cache.blkPool) (evs : List IoEvent) :
    (∀ t ∈ trajectory IoEvent.exec m evs, HoldsEachOnce m.elements t.cache.blkPool) ↔
      Along IoEvent.exec (fun t ev => ¬ t.TakesBlock ev) m evs :=
  trajectory_good_iff Machine.Ready (fun t => HoldsEachOnce m.elements t.cache.blkPool)
    (fun _ _ => True) (fun _ ev ht _ => ht.exec ev) (fun _ _ ht _ hg => ht.holdsEachOnce_iff hg) h
    hheld (along_of_forall fun _ _ => trivial)

/-- A cache of one block, which is empty in the pool and on NVM. -/
def oneBlock : Machine :=
  let pool := initNvmBlkPool 1 Nat.one_pos
  { Machine.zeroed ⟨some smallNvm, some ⟨1, some []⟩,
      PoolOp.exec pool (.build .buildNvmBlock 0 uint64Max (some 0x20000))⟩ with
    nvm := fun _ => 0xFF }

theorem oneBlock_ready : oneBlock.Ready :=
  ⟨pool_run_wf 1 (by decide) [.build .buildNvmBlock 0 uint64Max (some 0x20000)] (by
    refine ⟨fun a ha => ?_, trivial⟩
    obtain rfl : 0x20000 = a := by simpa using ha
    exact ⟨by decide, by decide⟩), rfl⟩

theorem oneBlock_unmapped (l : LbaType) : oneBlock.blockOf l = none :=
  oneBlock_ready.wf.blockOf_eq_none (by decide) l

def oneSector (dir : NvmCacheIoDir) (lba : LbaType) : IoEvent :=
  ⟨⟨lba, 1, 0x3000, dir⟩, fun _ => 0, oneBlock.outcomes⟩

/-- The block that the write takes is in neither list afterwards. -/
theorem first_write_loses_block :
    HoldsEachOnce oneBlock.elements oneBlock.cache.blkPool ∧
      returned (nvmCacheHandleIo ⟨5, 1, 0x3000, .cacheWrite⟩ oneBlock) = none ∧
      ((oneSector .cacheWrite 5).exec oneBlock).cache.blkPool.emptyIds = [] ∧
      ((oneSector .cacheWrite 5).exec oneBlock).cache.blkPool.usedIds = [] ∧
      ¬ HoldsEachOnce oneBlock.elements ((oneSector .cacheWrite 5).exec oneBlock).cache.blkPool := by
  decide

theorem io_keeps_blocks_iff_oneBlock :
    let evs := [oneSector .cacheRead 5, oneSector .cacheWrite 5]
    (∀ t ∈ trajectory IoEvent.exec oneBlock evs,
        HoldsEachOnce oneBlock.elements t.cache.blkPool) ↔
      Along IoEvent.exec (fun t ev => ¬ t.TakesBlock ev) oneBlock evs :=
  io_keeps_blocks_iff oneBlock_ready (by decide) _

def threeBlocksBuilt : List PoolOp :=
  [.build .buildNvmBlock 0 6 (some 0x20000), .build .buildNvmBlock 1 5 (some 0x30000),
    .build .buildNvmBlock 2 uint64Max (some 0x40000)]

/-- A cache of three blocks: 0 holds LBA 6, 1 holds LBA 5, and 2 is empty in the pool and on NVM. -/
def threeBlocks : Machine :=
  { Machine.zeroed ⟨some smallNvm, some ⟨3, some []⟩,
      run PoolOp.exec (initNvmBlkPool 2 Nat.two_pos) threeBlocksBuilt⟩ with
    nvm := Mem.store64 (Mem.store64 (fun _ => 0xFF) (8192 + slotOffset 0) 6) (8192 + slotOffset 1) 5 }

theorem threeBlocks_ready : threeBlocks.Ready where
  wf := by
    apply pool_run_wf 2 Nat.two_pos threeBlocksBuilt
    refine ⟨?_, ?_, ?_, trivial⟩ <;>
    · rintro a ⟨⟩
      exact ⟨by decide, by decide⟩
  mapper := rfl

theorem threeBlocks_blockOf {l : LbaType} {id : NvmCacheBlkId} :
    threeBlocks.blockOf l = some id ↔ (l = 5 ∧ id = 1) ∨ (l = 6 ∧ id = 0) := by
  have hlinked : threeBlocks.cache.blkPool.usedBlocksTable.linked = [0x20000, 0x30000] := by decide
  constructor
  · intro hb
    obtain ⟨a, ha, rfl, rfl⟩ := threeBlocks_ready.wf.table.lookup_iff.mp hb
    simp only [hlinked, List.mem_cons, List.not_mem_nil, or_false] at ha
    rcases ha with rfl | rfl
    · decide
    · decide
  · rintro (⟨rfl, rfl⟩ | ⟨rfl, rfl⟩)
    · decide
    · decide

theorem threeBlocks_ids :
    threeBlocks.cache.blkPool.emptyIds ++ threeBlocks.cache.blkPool.usedIds = [2, 0, 1] := by decide

end NvmBlkCache
