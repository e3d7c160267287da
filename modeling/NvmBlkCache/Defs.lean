import NvmBlkCache.FaultProgram
import NvmBlkCache.LinkedChain

/-!
# Shared types

The types and constants of `defs.h`, pointers to a `u64`, and the ways in which a call can stop
without returning.
-/
namespace NvmBlkCache
open FaultProgram LinkedChain

/-- A load or store through NULL, and a loop over a chain that never ends. -/
inductive Fault
  | nullDeref
  | hang
  deriving DecidableEq, Repr

/-- Addresses of the kernel's address space. A pointer to a node is an `Option Addr`. -/
abbrev Addr := UInt64

abbrev LbaType := UInt64
abbrev NvmCacheBlkId := UInt64

/-- `UINT64_MAX`: as an LBA it marks an empty block, as a block id it is not a block. -/
def uint64Max : UInt64 := 0xFFFFFFFFFFFFFFFF

def cacheBlockSize : UInt64 := 512

inductive NvmCacheIoDir
  | cacheRead
  | cacheWrite
  deriving DecidableEq, Repr

/-- A `u64 *`: NULL, or the address of a cell together with what the cell holds. -/
inductive U64Ptr
  | null
  | cell (addr : Addr) (val : UInt64)
  deriving DecidableEq, Repr

/-- `*p` -/
def U64Ptr.load {σ : Type} : U64Ptr → EStateM Fault σ UInt64
  | .null => throw .nullDeref
  | .cell _ val => pure val

/-- `*p = v` -/
def U64Ptr.store {σ : Type} (v : UInt64) : U64Ptr → EStateM Fault σ U64Ptr
  | .null => throw .nullDeref
  | .cell addr _ => pure (.cell addr v)

def U64Ptr.toU64 : U64Ptr → UInt64
  | .null => 0
  | .cell addr _ => addr

def emptyHeap {N : Type} [Inhabited N] : Heap Addr N := ⟨fun _ => default, ∅⟩

end NvmBlkCache
