import NvmBlkCache.EmptyQueue
import NvmBlkCache.UsedTableCursor

/-!
# The block pool

`NvmBlkPoolManager/blk_pool.c`: block ids are either empty, in the queue, or used, in the hash table
under the LBA that they cache.
-/
namespace NvmBlkCache
open FaultProgram LinkedChain

structure NvmCacheBlkPool where
  emptyBlocksQueue : Queue
  usedBlocksTable : HashTable

abbrev PoolM := EStateM Fault NvmCacheBlkPool

def onQueue {α : Type} (x : EStateM Fault Queue α) : PoolM α :=
  zoom NvmCacheBlkPool.emptyBlocksQueue (fun q p => { p with emptyBlocksQueue := q }) x

def onTable {α : Type} (x : EStateM Fault HashTable α) : PoolM α :=
  zoom NvmCacheBlkPool.usedBlocksTable (fun ht p => { p with usedBlocksTable := ht }) x

/-- Both allocations of `create_hashtable` succeed. -/
def initNvmBlkPool (hashTableSize : ℕ) (size_pos : 0 < hashTableSize) : NvmCacheBlkPool :=
  ⟨initQueue, createHashtable hashTableSize size_pos⟩

def buildNvmBlock (nvmBlkId lba : UInt64) (malloc : Option Addr) : PoolM Unit := do
  if lba = uint64Max then
    onQueue (modify (enqueue nvmBlkId malloc))
  else
    let _ ← onTable (insert lba nvmBlkId malloc)

def buildNvmEmptyBlock (nvmBlkId lba : UInt64) (malloc : Option Addr) : PoolM Unit := do
  if lba = uint64Max then
    onQueue (modify (enqueue nvmBlkId malloc))

def buildNvmValidBlock (nvmBlkId lba : UInt64) (malloc : Option Addr) : PoolM Unit := do
  if lba ≠ uint64Max then
    let _ ← onTable (insert lba nvmBlkId malloc)

/-- The id goes through the pointer `nvmBlkId`; each store comes after the dequeue or the cursor move
that found the id, and before `delete_key`. -/
def getEmptyBlock (nvmBlkId : U64Ptr) : PoolM (Int32 × U64Ptr) := do
  if isEmpty (← get).emptyBlocksQueue then
    match ← onTable (modifyGet next) with
    | some node =>
      let ht := (← get).usedBlocksTable
      let nvmBlkId ← nvmBlkId.store (ht.value node)
      let _ ← onTable (deleteKey (ht.key node))
      return (1, nvmBlkId)
    | none =>
      let nvmBlkId ← nvmBlkId.store uint64Max
      return (1, nvmBlkId)
  else
    let id ← onQueue dequeue
    let nvmBlkId ← nvmBlkId.store id
    return (0, nvmBlkId)

def searchNvmBlkByLba (key : UInt64) : PoolM U64Ptr := onTable (search key)

namespace NvmCacheBlkPool

/-- The empty blocks, oldest first. -/
def emptyIds (p : NvmCacheBlkPool) : List UInt64 := p.emptyBlocksQueue.ids

/-- The blocks that the table maps some LBA to. -/
def usedIds (p : NvmCacheBlkPool) : List UInt64 := p.usedBlocksTable.values

def blockOf (p : NvmCacheBlkPool) (lba : LbaType) : Option UInt64 := p.usedBlocksTable.lookup lba

structure WF (p : NvmCacheBlkPool) : Prop where
  queue : p.emptyBlocksQueue.WF
  table : p.usedBlocksTable.WF
  cursor : p.usedBlocksTable.CursorInv

/-- An address that `malloc` can answer with: not allocated to a node of either kind. -/
structure Fresh (p : NvmCacheBlkPool) (a : Addr) : Prop where
  queue : a ∉ p.emptyBlocksQueue.nodes.live
  table : a ∉ p.usedBlocksTable.nodes.live

end NvmCacheBlkPool
end NvmBlkCache
