import NvmBlkCache.BlkPoolRun
import NvmBlkCache.ByteMemory

/-!
# The cache and the machine it runs on

The structures of `core.h`, `manager.h`, `access.h` and `mapper.h`, and the state that the code of
the module reads and writes: DRAM, the mapped NVM and its persistent image, and the lower device.
What the kernel answers to allocations and to block I/O is read off one stream each.
-/
namespace NvmBlkCache
open FaultProgram ByteMemory

/-- The data of an `NvmManager`, which its address function reads. -/
structure NvmMapping where
  isValid : Bool
  nvmPhyStartAddr : UInt64
  nvmPhyLength : UInt64
  nvmVirtStartAddr : UInt64

structure NvmManager extends NvmMapping where
  phyAddrMapVirtAddrFunc : NvmMapping → UInt64 → UInt64

structure NvmAccessor where
  nvmAddrMapManager : NvmManager

/-- `funcArray` holds the first `func_count` entries of the array; `none` is a NULL array. -/
structure NvmCacheMapper where
  elementNum : UInt64
  funcArray : Option (List BuildFunc)

structure NvmCache where
  accessor : Option NvmAccessor
  mapper : Option NvmCacheMapper
  blkPool : NvmCacheBlkPool

abbrev Sector := Fin 512 → UInt8

/-- How one bio ends: `bio_alloc` fails, or `submit_bio_wait` returns. -/
inductive BioOutcome
  | allocFailed (err : Int32)
  | submitted (ret : Int32)
  deriving DecidableEq, Repr

/-- What the allocators and the lower device will answer, call after call. `kmalloc` answers 0 for
NULL. -/
structure Outcomes where
  kmalloc : Stream' Addr
  malloc : Stream' (Option Addr)
  bio : Stream' BioOutcome

/-- `lbaVar` and `bufferVar` are the addresses of the local variables `lba` and `buffer` of the
functions that pass a pointer to them. -/
structure Machine where
  cache : NvmCache
  dram : Mem
  nvm : Mem
  persisted : Mem
  lowerBdev : LbaType → Sector
  outcomes : Outcomes
  lbaVar : Addr
  bufferVar : Addr

def Outcomes.healthy : Outcomes where
  kmalloc := Stream'.const 0x10000
  malloc := (Stream'.iterate (· + 1) 0x20000).map some
  bio := Stream'.const (.submitted 0)

def Machine.zeroed (cache : NvmCache) : Machine where
  cache := cache
  dram := fun _ => 0
  nvm := fun _ => 0
  persisted := fun _ => 0
  lowerBdev := fun _ _ => 0
  outcomes := Outcomes.healthy
  lbaVar := 0x100
  bufferVar := 0x108

abbrev Prog := EStateM Fault Machine

/-- `EINVAL`, which the accessor returns as a byte count. -/
def einval : UInt64 := 22

def enomem : Int32 := 12

/-- A `size_t` stored in an `int`. -/
def toInt (n : UInt64) : Int32 := n.toUInt32.toInt32

/-- `count < sizeof(u64)`: the `int` is converted to `size_t` first. -/
def shortOfU64 (count : Int32) : Bool := count.toInt64.toUInt64 < 8

def onPool {α : Type} (x : PoolM α) : Prog α :=
  zoom (fun m => m.cache.blkPool) (fun p m => { m with cache := { m.cache with blkPool := p } }) x

def kmalloc : Prog Addr := modifyGet fun m =>
  (m.outcomes.kmalloc.head, { m with outcomes.kmalloc := m.outcomes.kmalloc.tail })

def mallocNode : Prog (Option Addr) := modifyGet fun m =>
  (m.outcomes.malloc.head, { m with outcomes.malloc := m.outcomes.malloc.tail })

def submitBio : Prog BioOutcome := modifyGet fun m =>
  (m.outcomes.bio.head, { m with outcomes.bio := m.outcomes.bio.tail })

def loadU64 (p : Addr) : Prog UInt64 := do
  if p = 0 then throw .nullDeref
  return (← get).dram.load64 p

def storeU64 (p : Addr) (v : UInt64) : Prog Unit := do
  if p = 0 then throw .nullDeref
  modify fun m => { m with dram := m.dram.store64 p v }

/-- `cache->mapper->element_num` -/
def elementNum : Prog UInt64 := do
  match (← get).cache.mapper with
  | some mapper => return mapper.elementNum
  | none => throw .nullDeref

variable {m : Machine}

theorem onPool_ok {α : Type} {x : PoolM α} {a : α} {p : NvmCacheBlkPool}
    (h : x m.cache.blkPool = .ok a p) :
    onPool x m = .ok a { m with cache := { m.cache with blkPool := p } } := zoom_ok h

theorem onPool_error {α : Type} {x : PoolM α} {e : Fault} {p : NvmCacheBlkPool}
    (h : x m.cache.blkPool = .error e p) :
    onPool x m = .error e { m with cache := { m.cache with blkPool := p } } := zoom_error h

theorem kmalloc_apply : kmalloc m =
    .ok m.outcomes.kmalloc.head { m with outcomes.kmalloc := m.outcomes.kmalloc.tail } := rfl

theorem mallocNode_apply : mallocNode m =
    .ok m.outcomes.malloc.head { m with outcomes.malloc := m.outcomes.malloc.tail } := rfl

theorem submitBio_apply : submitBio m =
    .ok m.outcomes.bio.head { m with outcomes.bio := m.outcomes.bio.tail } := rfl

theorem loadU64_apply {p : Addr} (hp : p ≠ 0) : loadU64 p m = .ok (m.dram.load64 p) m := by
  simp [loadU64, hp]
  rfl

theorem storeU64_apply {p : Addr} (hp : p ≠ 0) (v : UInt64) :
    storeU64 p v m = .ok ⟨⟩ { m with dram := m.dram.store64 p v } := by
  simp [storeU64, hp]

theorem elementNum_apply {mapper : NvmCacheMapper} (h : m.cache.mapper = some mapper) :
    elementNum m = .ok mapper.elementNum m := by
  rw [elementNum, bind_ok (get_apply m), h]
  rfl

end NvmBlkCache
