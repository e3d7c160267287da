import NvmBlkCache.Mapper

/-!
# Formatting

`format.c`, over any pair of functions that move the bytes of a slot, which may keep a state of their
own; the repository's own pair is `accessorByteIo`.
-/
namespace NvmBlkCache
open FaultProgram ByteMemory

def nvmCacheFormattedValue : UInt64 := 0xFFFFFFFFFFFFFFFF

def nvmCacheMagicNumber : UInt64 := 0xDEADBEEFFEEDFACE

structure ByteIo (M : Type → Type) where
  readByte : Addr → UInt64 → M UInt64
  writeByte : Addr → UInt64 → M UInt64

def accessorByteIo (accessor : Option NvmAccessor) : ByteIo Prog :=
  ⟨nvmAccessorReadByte accessor, nvmAccessorWriteByte accessor⟩

section
variable {M : Type → Type} [Monad M] [MonadLiftT Prog M]

/-- A loop over an `int`, which wraps. After `2 ^ 32` rounds every value has been seen, and a loop
that is still going does not end. -/
def forInt (cond : Int32 → Bool) (body : Int32 → M (Option Int32)) :
    ℕ → Int32 → M (Option Int32)
  | 0, _ => (throw .hang : Prog (Option Int32))
  | fuel + 1, i =>
    if cond i then do
      match ← body i with
      | some ret => return some ret
      | none => forInt cond body fuel (i + 1)
    else return none

/-- `mapper_index * MAPPER_ELEMENT_SIZE` is an `int`, converted to the `u64` offset. -/
def formatSlot (io : ByteIo M) (mapperIndex : Int32) : M (Option Int32) := do
  let m ← (get : Prog Machine)
  let count := toInt (← io.writeByte m.bufferVar (mapperIndex * 8).toInt64.toUInt64)
  if shortOfU64 count then return some (-1)
  return none

def nvmCacheFormatWith (io : ByteIo M) : M Int32 := do
  let m ← (get : Prog Machine)
  if m.cache.accessor.isNone then return -1
  let count := toInt (← io.readByte m.bufferVar 0)
  if shortOfU64 count then return -1
  if (← loadU64 m.bufferVar) ≠ nvmCacheMagicNumber then
    match m.cache.mapper with
    | none => return -1
    | some mapper =>
      storeU64 m.bufferVar nvmCacheMagicNumber
      match ← forInt (fun i => i < 1) (formatSlot io) (2 ^ 32) 0 with
      | some ret => return ret
      | none =>
        storeU64 m.bufferVar nvmCacheFormattedValue
        match ← forInt (fun i => i.toInt64.toUInt64 < mapper.elementNum + cacheBlockStartIndex)
            (formatSlot io) (2 ^ 32) 1 with
        | some ret => return ret
        | none => return 0
  else return 0

end

def nvmCacheFormat : Prog Int32 := do
  nvmCacheFormatWith (accessorByteIo (← get).cache.accessor)

end NvmBlkCache
