import NvmBlkCache.Access

/-!
# The mapping array

`mapper.h` and `mapper.c`: NVM begins with a header slot and one slot of eight bytes for each cache
block, in which the block's LBA is kept; the cache blocks follow, counted in blocks of 512 bytes.
-/
namespace NvmBlkCache
open FaultProgram ByteMemory

def numMapperScanFuncs : ℕ := 10

def cacheBlockStartIndex : UInt64 := 1

def mapperElementSize : UInt64 := 8

/-- `CALCULATE_BLK_ID`: the first block behind the slots. -/
def calculateBlkId (elementNum : UInt64) : UInt64 :=
  ((elementNum + cacheBlockStartIndex) * mapperElementSize + (cacheBlockSize - 1)) / cacheBlockSize

/-- `malloc` is what the allocation of the function array answers; it is not checked. -/
def cacheMapperInit (mapper : Option NvmCacheMapper) (nvmPhyLength : UInt64)
    (malloc : Option Addr) : Int32 × Option NvmCacheMapper :=
  match mapper with
  | none => (-1, none)
  | some _ =>
    let elementSize := cacheBlockSize + mapperElementSize
    (0, some ⟨nvmPhyLength / elementSize, malloc.map fun _ => []⟩)

def NvmCacheMapper.funcCount (mapper : NvmCacheMapper) : ℕ := (mapper.funcArray.getD []).length

def Machine.setScanFuncs (m : Machine) (mapper : NvmCacheMapper) (funcs : List BuildFunc) :
    Machine :=
  { m with cache := { m.cache with mapper := some { mapper with funcArray := some funcs } } }

def registerMapperScanFunc (func : BuildFunc) : Prog Unit := do
  match (← get).cache.mapper with
  | none => throw .nullDeref
  | some mapper =>
    if mapper.funcCount < numMapperScanFuncs then
      match mapper.funcArray with
      | none => throw .nullDeref
      | some funcs => modify fun m => m.setScanFuncs mapper (funcs ++ [func])

def slotOffset (id : NvmCacheBlkId) : UInt64 := (id + cacheBlockStartIndex) * mapperElementSize

def getLba (accessor : Option NvmAccessor) (_lba : Addr) (id : NvmCacheBlkId) : Prog Int32 := do
  let count := toInt (← nvmAccessorReadByte accessor (← get).bufferVar (slotOffset id))
  if shortOfU64 count then return -1
  -- `lba = buffer` sets the parameter itself, the caller's variable stays as it is
  return 0

/-- The offset in `set_lba`, where `*id` is read as `id`: a block id is not a pointer. -/
def setLbaOffset (id : NvmCacheBlkId) : UInt64 := (id + 1) * mapperElementSize

def setLba (accessor : Option NvmAccessor) (lba : Addr) (id : NvmCacheBlkId) : Prog Int32 := do
  let count := toInt (← nvmAccessorWriteByte accessor lba (setLbaOffset id))
  if shortOfU64 count then return -1
  return 0

/-- One call through the function array, with what `malloc` will answer it. -/
def callScanFunc (blkIndex : NvmCacheBlkId) (func : BuildFunc) : Prog Unit := do
  let lba ← loadU64 (← get).lbaVar
  let malloc ← mallocNode
  onPool (func.call blkIndex lba malloc)

def scanElement (blkIndex : NvmCacheBlkId) : Prog (Option Int32) := do
  let m ← get
  let ret ← getLba m.cache.accessor m.lbaVar blkIndex
  if ret ≠ 0 then return some (-1)
  match (← get).cache.mapper with
  | none => throw .nullDeref
  | some mapper =>
    (mapper.funcArray.getD []).forM (callScanFunc blkIndex)
    return none

def cacheMapperScan : Prog Int32 := do
  registerMapperScanFunc .buildNvmEmptyBlock
  registerMapperScanFunc .buildNvmValidBlock
  let n ← elementNum
  match ← countUp scanElement 0 n.toNat with
  | some ret => return ret
  | none => return 0

variable {m : Machine} {mapper : NvmCacheMapper}

theorem shortOfU64_one : shortOfU64 (toInt 1) = true := by decide

section OneByte
variable {acc : NvmAccessor} {lba : Addr} {id : NvmCacheBlkId}
  (ht : acc.nvmAddrMapManager.phyAddrMapVirtAddrFunc = phyAddrMapVirtAddr)
include ht

/-- The accessor moves one byte of a slot, which `get_lba` takes for a failure. -/
theorem getLba_short (hb : m.bufferVar ≠ 0)
    (hv : acc.nvmAddrMapManager.nvmVirtStartAddr + slotOffset id ≠ 0) :
    getLba (some acc) lba id m = .ok (-1)
      (m.loadNvm m.bufferVar (acc.nvmAddrMapManager.nvmVirtStartAddr + slotOffset id) 1) := by
  rw [getLba, bind_ok (get_apply m), bind_ok (nvmAccessorReadByte_moves_one ht hb hv)]
  simp [shortOfU64_one]

/-- So does `set_lba`, with the byte written. -/
theorem setLba_short (hl : lba ≠ 0)
    (hv : acc.nvmAddrMapManager.nvmVirtStartAddr + setLbaOffset id ≠ 0) :
    setLba (some acc) lba id m = .ok (-1)
      (m.storeNvm (acc.nvmAddrMapManager.nvmVirtStartAddr + setLbaOffset id) lba 1) := by
  rw [setLba, bind_ok (nvmAccessorWriteByte_moves_one ht hl hv)]
  simp [shortOfU64_one]

end OneByte

theorem registerMapperScanFunc_append {funcs : List BuildFunc}
    (hm : m.cache.mapper = some mapper) (hf : mapper.funcArray = some funcs)
    (hroom : funcs.length < numMapperScanFuncs) (func : BuildFunc) :
    registerMapperScanFunc func m = .ok ⟨⟩ (m.setScanFuncs mapper (funcs ++ [func])) := by
  rw [registerMapperScanFunc, bind_ok (get_apply m)]
  simp [hm, hf, NvmCacheMapper.funcCount, hroom]

/-- A function array that is full stays as it is. -/
theorem registerMapperScanFunc_ok {funcs : List BuildFunc} (hm : m.cache.mapper = some mapper)
    (hf : mapper.funcArray = some funcs) (func : BuildFunc) :
    ∃ m', registerMapperScanFunc func m = .ok ⟨⟩ m' ∧
      (m' = m ∨ m' = m.setScanFuncs mapper (funcs ++ [func])) := by
  by_cases hroom : funcs.length < numMapperScanFuncs
  · exact ⟨_, registerMapperScanFunc_append hm hf hroom func, Or.inr rfl⟩
  · refine ⟨m, ?_, Or.inl rfl⟩
    rw [registerMapperScanFunc, bind_ok (get_apply m)]
    simp [hm, hf, NvmCacheMapper.funcCount, hroom]

end NvmBlkCache
