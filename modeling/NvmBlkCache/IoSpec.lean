import NvmBlkCache.IoHandler
import NvmBlkCache.Layout

/-!
# What a request can do

One lemma for each way through a round of the two loops, and from them what a whole request does. A
read runs to its end unless an allocation fails. A write runs to its end when the pool knows all of
its sectors, and stops on the NULL pointer at the first that the pool does not know.
-/
namespace NvmBlkCache
open FaultProgram ByteMemory NvmCacheBlkPool

def sectorOf (mem : Mem) (p : Addr) : Sector := fun j => mem.bytes p j

namespace NvmCacheIoReq

/-- The LBA of sector `k` of a request, and where its data is in DRAM. -/
def sector (req : NvmCacheIoReq) (k : ℕ) : LbaType := req.lba + UInt64.ofNat k

def target (req : NvmCacheIoReq) (k : ℕ) : Addr := req.buffer + UInt64.ofNat k * cacheBlockSize

end NvmCacheIoReq

def BioOutcome.ret : BioOutcome → Int32
  | .allocFailed err => err
  | .submitted ret => ret

namespace Machine
variable (m : Machine)

def elements : UInt64 :=
  match m.cache.mapper with
  | some mapper => mapper.elementNum
  | none => 0

def blockOf (l : LbaType) : Option NvmCacheBlkId := m.cache.blkPool.blockOf l

/-- Where the accessor finds block `id`. -/
def blockVaddr (id : NvmCacheBlkId) : Addr :=
  getVaddrByLba m.cache.accessor (calculateBlkId m.elements + id)

/-- After `nvm_accessor_read_block`, refused or not. -/
def readBlock (buffer : Addr) (id : NvmCacheBlkId) : Machine :=
  if Copies buffer (m.blockVaddr id) then m.loadNvm buffer (m.blockVaddr id) 512 else m

/-- After `nvm_accessor_write_block`, refused or not. -/
def writeBlock (buffer : Addr) (id : NvmCacheBlkId) : Machine :=
  if Copies buffer (m.blockVaddr id) then m.storeNvm (m.blockVaddr id) buffer 512 else m

/-- What the cache holds for an LBA: its block, or else the lower device's sector. -/
def dataAt (l : LbaType) : Sector :=
  match m.blockOf l with
  | some id => sectorOf m.nvm (m.blockVaddr id)
  | none => m.lowerBdev l

def afterKmalloc : Machine := { m with outcomes.kmalloc := m.outcomes.kmalloc.tail }

/-- After `lower_dev_io`, whether or not it has transferred anything. -/
def afterBio (r : LowerDevIoReq) : Machine :=
  let m' := { m with outcomes.bio := m.outcomes.bio.tail }
  if m.outcomes.bio.head = .submitted 0 then m'.bioTransfer r else m'

/-- How many of the first `k` sectors of a request the pool does not know. -/
def misses (req : NvmCacheIoReq) (k : ℕ) : ℕ :=
  (List.range k).countP fun j => m.blockOf (req.sector j) = none

end Machine

section Rounds
variable {m : Machine} {id : NvmCacheBlkId} (req : NvmCacheIoReq) {off : UInt64}

theorem elementNum_eq (hm : m.cache.mapper.isSome) : elementNum m = .ok m.elements m := by
  obtain ⟨mapper, hmapper⟩ := Option.isSome_iff_exists.mp hm
  rw [elementNum_apply hmapper, Machine.elements, hmapper]

theorem search_hit (h : m.cache.blkPool.WF) {l : LbaType} (hb : m.blockOf l = some id) :
    ∃ a, onPool (searchNvmBlkByLba l) m = .ok (.cell a id) m := by
  obtain ⟨ptr, hs, hv⟩ := h.search_spec l
  cases ptr with
  | null => exact absurd (hv.trans hb) (by simp [U64Ptr.val?])
  | cell a v =>
    obtain rfl : v = id := by simpa [U64Ptr.val?] using hv.trans hb
    exact ⟨a, onPool_ok hs⟩

theorem search_miss (h : m.cache.blkPool.WF) {l : LbaType} (hb : m.blockOf l = none) :
    onPool (searchNvmBlkByLba l) m = .ok .null m := by
  obtain ⟨ptr, hs, hv⟩ := h.search_spec l
  cases ptr with
  | null => exact onPool_ok hs
  | cell a v => exact absurd (hv.trans hb) (by simp [U64Ptr.val?])

def blockCount (buffer virtAddr : Addr) : UInt64 :=
  if Copies buffer virtAddr then cacheBlockSize else einval

theorem blockCount_eq_iff {buffer virtAddr : Addr} :
    blockCount buffer virtAddr = cacheBlockSize ↔ Copies buffer virtAddr := by
  unfold blockCount
  split_ifs with h
  · simp [h]
  · simpa [h] using (by decide : einval ≠ cacheBlockSize)

/-- Neither answer is negative as an `int`. -/
theorem blockCount_nonneg (buffer virtAddr : Addr) : ¬ toInt (blockCount buffer virtAddr) < 0 := by
  unfold blockCount
  split_ifs <;> decide

theorem nvmAccessorReadBlock_apply (buffer : Addr) (id : NvmCacheBlkId) :
    nvmAccessorReadBlock m.cache.accessor buffer (calculateBlkId m.elements + id) m =
      .ok (blockCount buffer (m.blockVaddr id)) (m.readBlock buffer id) := by
  unfold nvmAccessorReadBlock blockCount Machine.readBlock
  split_ifs with h
  · exact nvmAccessorRead_copies h _
  · exact nvmAccessorRead_refused h _

theorem nvmAccessorWriteBlock_apply (buffer : Addr) (id : NvmCacheBlkId) :
    nvmAccessorWriteBlock m.cache.accessor buffer (calculateBlkId m.elements + id) m =
      .ok (blockCount buffer (m.blockVaddr id)) (m.writeBlock buffer id) := by
  unfold nvmAccessorWriteBlock blockCount Machine.writeBlock
  split_ifs with h
  · exact nvmAccessorWrite_copies h _
  · exact nvmAccessorWrite_refused h _

theorem readSector_hit (h : m.cache.blkPool.WF) (hm : m.cache.mapper.isSome)
    (hb : m.blockOf (req.lba + off) = some id) :
    readSector req off m = .ok none (m.readBlock (req.buffer + off * cacheBlockSize) id) := by
  obtain ⟨a, hs⟩ := search_hit h hb
  rw [readSector, bind_ok hs]
  simp only [U64Ptr.load]
  rw [bind_ok (elementNum_eq hm), bind_ok (pure_apply _ _), bind_ok (get_apply _),
    bind_ok (nvmAccessorReadBlock_apply _ id), if_neg (blockCount_nonneg _ _)]
  rfl

theorem writeSector_hit (h : m.cache.blkPool.WF) (hm : m.cache.mapper.isSome)
    (hb : m.blockOf (req.lba + off) = some id) :
    writeSector req off m = .ok none (m.writeBlock (req.buffer + off * cacheBlockSize) id) := by
  obtain ⟨a, hs⟩ := search_hit h hb
  rw [writeSector, bind_ok hs]
  simp only [U64Ptr.load]
  rw [bind_ok (elementNum_eq hm), bind_ok (pure_apply _ _), bind_ok (get_apply _),
    bind_ok (nvmAccessorWriteBlock_apply _ id), if_neg (blockCount_nonneg _ _)]
  rfl

theorem lowerDevIo_apply (r : LowerDevIoReq) :
    lowerDevIo r m = .ok m.outcomes.bio.head.ret (m.afterBio r) := by
  rw [lowerDevIo, bind_ok submitBio_apply]
  unfold Machine.afterBio
  cases m.outcomes.bio.head with
  | allocFailed err => rfl
  | submitted ret =>
    by_cases hret : ret = 0
    · subst hret
      rfl
    · simp [hret, BioOutcome.ret]

theorem sectorBytes_first (dev : LbaType → Sector) (l : LbaType) (i : Fin 512) :
    sectorBytes dev l i = dev l i := by
  have hdiv : (i : ℕ) / 512 = 0 := Nat.div_eq_of_lt i.isLt
  have hmod : Fin.ofNat 512 i = i := Fin.ext (Nat.mod_eq_of_lt i.isLt)
  rw [sectorBytes, hdiv, hmod]
  congr 1
  exact UInt64.add_zero l

theorem len_one (l : LbaType) (buffer : Addr) (dir : NvmCacheIoDir) :
    (LowerDevIoReq.mk l 1 buffer dir).len = 512 := by
  change (1 * 512 : UInt64).toUInt32.toNat = 512
  decide

theorem bioTransfer_read (l : LbaType) (buffer : Addr) :
    m.bioTransfer ⟨l, 1, buffer, .cacheRead⟩ =
      { m with dram := m.dram.write buffer 512 (sectorBytes m.lowerBdev l) } := by
  unfold Machine.bioTransfer
  rw [len_one]

theorem readSector_noMemory (h : m.cache.blkPool.WF) (hb : m.blockOf (req.lba + off) = none)
    (hk : m.outcomes.kmalloc.head = 0) :
    readSector req off m = .ok (some (-enomem)) m.afterKmalloc := by
  rw [readSector, bind_ok (search_miss h hb)]
  simp only [bind_ok kmalloc_apply, hk, if_pos]
  rfl

theorem readSector_miss (h : m.cache.blkPool.WF) (hb : m.blockOf (req.lba + off) = none)
    (hk : m.outcomes.kmalloc.head ≠ 0) :
    readSector req off m = .ok none (m.afterKmalloc.afterBio
      ⟨req.lba + off, 1, req.buffer + off * cacheBlockSize, req.dir⟩) := by
  rw [readSector, bind_ok (search_miss h hb)]
  simp only [bind_ok kmalloc_apply, if_neg hk]
  exact bind_ok (lowerDevIo_apply _)

/-- A write of a sector that the pool does not know stops on the NULL pointer. -/
theorem writeSector_miss (h : m.cache.blkPool.WF) (hb : m.blockOf (req.lba + off) = none) :
    ∃ p, LeftByNull m.cache.blkPool p ∧ writeSector req off m =
      .error .nullDeref { m with cache := { m.cache with blkPool := p } } := by
  obtain ⟨p, hget, hleft⟩ := h.getEmptyBlock_null
  refine ⟨p, hleft, ?_⟩
  rw [writeSector, bind_ok (search_miss h hb)]
  exact bind_error (onPool_error hget)

end Rounds
end NvmBlkCache
