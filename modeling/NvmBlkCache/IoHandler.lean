import NvmBlkCache.Mapper

/-!
# The I/O path

`lower_dev.c` and `io_handler.c`. A sector that the pool knows is served from its NVM block; one that
it does not know is read from the lower device, or written into a block that the pool gives up.
-/
namespace NvmBlkCache
open FaultProgram ByteMemory

structure NvmCacheIoReq where
  lba : LbaType
  lbaNum : UInt64
  buffer : Addr
  dir : NvmCacheIoDir

structure LowerDevIoReq where
  sector : LbaType
  sectorNum : UInt64
  buffer : Addr
  dir : NvmCacheIoDir

/-- The bytes that a bio moves: `len` is an `unsigned int`. -/
def LowerDevIoReq.len (req : LowerDevIoReq) : ℕ := (req.sectorNum * 512).toUInt32.toNat

def sectorBytes (dev : LbaType → Sector) (sector : LbaType) : ℕ → UInt8 := fun i =>
  dev (sector + UInt64.ofNat (i / 512)) (Fin.ofNat 512 i)

/-- The device with `n` bytes written over it from the first byte of a sector on. -/
def writeSectors (dev : LbaType → Sector) (sector : LbaType) (n : ℕ) (f : ℕ → UInt8) :
    LbaType → Sector := fun l j =>
  let i := (l - sector).toNat * 512 + j
  if i < n then f i else dev l j

namespace Machine

def bioTransfer (m : Machine) (req : LowerDevIoReq) : Machine :=
  match req.dir with
  | .cacheRead =>
    { m with dram := m.dram.write req.buffer req.len (sectorBytes m.lowerBdev req.sector) }
  | .cacheWrite =>
    { m with lowerBdev := writeSectors m.lowerBdev req.sector req.len (m.dram.bytes req.buffer) }

end Machine

/-- A bio that reports an error has moved nothing. -/
def lowerDevIo (req : LowerDevIoReq) : Prog Int32 := do
  match ← submitBio with
  | .allocFailed err => return err
  | .submitted ret =>
    if ret = 0 then modify fun m => m.bioTransfer req
    return ret

/-- One round of the loop of `nvm_cache_handle_read_io`; `some ret` returns `ret`. -/
def readSector (req : NvmCacheIoReq) (lbaOffset : UInt64) : Prog (Option Int32) := do
  let targetBuffer := req.buffer + lbaOffset * cacheBlockSize
  match ← onPool (searchNvmBlkByLba (req.lba + lbaOffset)) with
  | .cell a v =>
    let blkId := calculateBlkId (← elementNum) + (← (U64Ptr.cell a v).load)
    let ret := toInt (← nvmAccessorReadBlock (← get).cache.accessor targetBuffer blkId)
    if ret < 0 then return some (-1)
    return none
  | .null =>
    let lowerReq ← kmalloc
    if lowerReq = 0 then return some (-enomem)
    -- an error is logged, and the loop goes on
    let _ ← lowerDevIo ⟨req.lba + lbaOffset, 1, targetBuffer, req.dir⟩
    return none

def nvmCacheHandleReadIo (req : NvmCacheIoReq) : Prog Int32 := do
  match ← countUp (readSector req) 0 req.lbaNum.toNat with
  | some ret => return ret
  | none => return 0

/-- The branch of `nvm_cache_handle_write_io` for a block that was in use. -/
def writeBack (req : NvmCacheIoReq) (lbaOffset : UInt64) (nvmBlkPtr : U64Ptr) :
    Prog (Option Int32) := do
  let writeBackBuffer ← kmalloc
  if writeBackBuffer = 0 then return some (-enomem)
  let writeBackLba : Addr := 0
  let ret ← getLba (← get).cache.accessor writeBackLba (← nvmBlkPtr.load)
  if ret < 0 then return some ret
  -- that `write_back_lba` is still NULL is logged before it is read
  let writeBackBlkId := calculateBlkId (← elementNum) + (← loadU64 writeBackLba)
  let ret := toInt (← nvmAccessorReadBlock (← get).cache.accessor writeBackBuffer writeBackBlkId)
  if ret < 0 then return some (-1)
  let lowerReq ← kmalloc
  if lowerReq = 0 then return some (-enomem)
  let _ ← lowerDevIo ⟨← loadU64 writeBackLba, 1, writeBackBuffer, req.dir⟩
  let targetBuffer := req.buffer + lbaOffset * cacheBlockSize
  let ret := toInt (← nvmAccessorWriteBlock (← get).cache.accessor targetBuffer writeBackBlkId)
  if ret < 0 then return some (-1)
  onPool (buildNvmBlock nvmBlkPtr.toU64 (req.lba + lbaOffset) (← mallocNode))
  return none

/-- One round of the loop of `nvm_cache_handle_write_io`. A sector that the pool does not know asks
it for a block through the NULL pointer that the search has left. -/
def writeSector (req : NvmCacheIoReq) (lbaOffset : UInt64) : Prog (Option Int32) := do
  let targetBuffer := req.buffer + lbaOffset * cacheBlockSize
  match ← onPool (searchNvmBlkByLba (req.lba + lbaOffset)) with
  | .cell a v =>
    let blkId := calculateBlkId (← elementNum) + (← (U64Ptr.cell a v).load)
    let ret := toInt (← nvmAccessorWriteBlock (← get).cache.accessor targetBuffer blkId)
    if ret < 0 then return some (-1)
    return none
  | .null =>
    let (ret, nvmBlkPtr) ← onPool (getEmptyBlock .null)
    -- the answer UINT64_MAX is logged, and used as a block id all the same
    if ret = 1 then let _ ← nvmBlkPtr.load
    if ret ≠ 0 then writeBack req lbaOffset nvmBlkPtr else return none

def nvmCacheHandleWriteIo (req : NvmCacheIoReq) : Prog Int32 := do
  match ← countUp (writeSector req) 0 req.lbaNum.toNat with
  | some ret => return ret
  | none => return 0

def serveSector (req : NvmCacheIoReq) : UInt64 → Prog (Option Int32) :=
  match req.dir with
  | .cacheRead => readSector req
  | .cacheWrite => writeSector req

def nvmCacheHandleIo (req : NvmCacheIoReq) : Prog Int32 :=
  match req.dir with
  | .cacheRead => nvmCacheHandleReadIo req
  | .cacheWrite => nvmCacheHandleWriteIo req

end NvmBlkCache
