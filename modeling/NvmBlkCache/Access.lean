import NvmBlkCache.Machine

/-!
# The NVM accessor

`manager.c` and `access.c`: how a block id or a byte offset becomes a virtual address, and the
copies between DRAM and NVM.
-/
namespace NvmBlkCache
open FaultProgram ByteMemory

/-- The offset is a `long`, which is converted back when it is added to the `phys_addr_t`. -/
def phyAddrMapVirtAddr (this : NvmMapping) (phyAddr : UInt64) : UInt64 :=
  let offsetBetweenPaddrAndVaddr := (this.nvmVirtStartAddr - this.nvmPhyStartAddr).toInt64
  phyAddr + offsetBetweenPaddrAndVaddr.toUInt64

/-- The checked translation of `manager.c`; 0 is NULL. The accessor does not call it. -/
def nvmPhyAddrMapVirtAddr (this : Option NvmManager) (phyAddr : UInt64) : UInt64 :=
  match this with
  | none => 0
  | some this =>
    if !this.isValid then 0
    else if this.nvmPhyStartAddr > phyAddr ∨
        this.nvmPhyStartAddr + this.nvmPhyLength < phyAddr then 0
    else this.phyAddrMapVirtAddrFunc this.toNvmMapping phyAddr

def getVaddrByPaddr (this : Option NvmAccessor) (paddr : UInt64) : Addr :=
  match this with
  | none => 0
  | some this =>
    this.nvmAddrMapManager.phyAddrMapVirtAddrFunc this.nvmAddrMapManager.toNvmMapping paddr

def getVaddrByLba (this : Option NvmAccessor) (lba : UInt64) : Addr :=
  match this with
  | none => 0
  | some acc =>
    getVaddrByPaddr this (acc.nvmAddrMapManager.nvmPhyStartAddr + lba * cacheBlockSize)

/-- The accessor over a mapping, with the translation that `manager.c` installs. -/
def NvmMapping.accessor (mapping : NvmMapping) : NvmAccessor := ⟨⟨mapping, phyAddrMapVirtAddr⟩⟩

/-- 4096 bytes of NVM, mapped at 8192. -/
def smallNvm : NvmAccessor := ⟨⟨⟨true, 4096, 4096, 8192⟩, phyAddrMapVirtAddr⟩⟩

def memcpyToNvm (virtAddr buffer : Addr) (count : UInt64) : Prog Unit :=
  modify fun m => { m with nvm := m.nvm.write virtAddr count.toNat (m.dram.bytes buffer) }

def memcpyFromNvm (buffer virtAddr : Addr) (count : UInt64) : Prog Unit :=
  modify fun m => { m with dram := m.dram.write buffer count.toNat (m.nvm.bytes virtAddr) }

/-- Writes back the 64-byte line that holds `virtAddr`. -/
def clflush (virtAddr : Addr) : Prog Unit :=
  modify fun m => { m with persisted := fun a =>
    if a / 64 = virtAddr / 64 then m.nvm a else m.persisted a }

def nvmAccessorWrite (buffer : Addr) (count : UInt64) (virtAddr : Addr) : Prog UInt64 := do
  if buffer = 0 then return einval
  if count < 0 then return einval
  if virtAddr = 0 then return einval
  memcpyToNvm virtAddr buffer count
  clflush virtAddr
  return count

def nvmAccessorRead (buffer : Addr) (count : UInt64) (virtAddr : Addr) : Prog UInt64 := do
  if buffer = 0 then return einval
  if count < 0 then return einval
  if virtAddr = 0 then return einval
  memcpyFromNvm buffer virtAddr count
  return count

def nvmAccessorWriteBlock (this : Option NvmAccessor) (buffer : Addr) (blkId : NvmCacheBlkId) :
    Prog UInt64 :=
  nvmAccessorWrite buffer cacheBlockSize (getVaddrByLba this blkId)

def nvmAccessorReadBlock (this : Option NvmAccessor) (buffer : Addr) (blkId : NvmCacheBlkId) :
    Prog UInt64 :=
  nvmAccessorRead buffer cacheBlockSize (getVaddrByLba this blkId)

/-- `this->nvm_addr_map_manager` is read before `get_vaddr_by_paddr` can check `this`. -/
def vaddrByOffset (this : Option NvmAccessor) (offset : UInt64) : Prog Addr :=
  match this with
  | none => throw .nullDeref
  | some acc => return getVaddrByPaddr this (offset + acc.nvmAddrMapManager.nvmPhyStartAddr)

def nvmAccessorWriteByte (this : Option NvmAccessor) (buffer : Addr) (offset : UInt64) :
    Prog UInt64 := do
  nvmAccessorWrite buffer 1 (← vaddrByOffset this offset)

def nvmAccessorReadByte (this : Option NvmAccessor) (buffer : Addr) (offset : UInt64) :
    Prog UInt64 := do
  nvmAccessorRead buffer 1 (← vaddrByOffset this offset)

/-- The copy goes ahead: neither pointer is NULL. -/
def Copies (buffer virtAddr : Addr) : Prop := buffer ≠ 0 ∧ virtAddr ≠ 0

instance (buffer virtAddr : Addr) : Decidable (Copies buffer virtAddr) :=
  inferInstanceAs (Decidable (_ ∧ _))

namespace Machine

def storeNvm (m : Machine) (virtAddr buffer : Addr) (n : ℕ) : Machine :=
  { m with
    nvm := m.nvm.write virtAddr n (m.dram.bytes buffer)
    persisted := fun a =>
      if a / 64 = virtAddr / 64 then m.nvm.write virtAddr n (m.dram.bytes buffer) a
      else m.persisted a }

def loadNvm (m : Machine) (buffer virtAddr : Addr) (n : ℕ) : Machine :=
  { m with dram := m.dram.write buffer n (m.nvm.bytes virtAddr) }

end Machine

variable {m : Machine} {buffer virtAddr : Addr}

theorem phyAddrMapVirtAddr_eq (this : NvmMapping) (phyAddr : UInt64) :
    phyAddrMapVirtAddr this phyAddr =
      phyAddr + (this.nvmVirtStartAddr - this.nvmPhyStartAddr) := by
  rw [phyAddrMapVirtAddr, UInt64.toUInt64_toInt64]

/-- With the repository's translation an offset into NVM is an offset from the virtual base. -/
theorem vaddrByOffset_apply {acc : NvmAccessor}
    (ht : acc.nvmAddrMapManager.phyAddrMapVirtAddrFunc = phyAddrMapVirtAddr) (offset : UInt64) :
    vaddrByOffset (some acc) offset m =
      .ok (acc.nvmAddrMapManager.nvmVirtStartAddr + offset) m := by
  have he : offset + acc.nvmAddrMapManager.nvmPhyStartAddr +
      (acc.nvmAddrMapManager.nvmVirtStartAddr - acc.nvmAddrMapManager.nvmPhyStartAddr) =
      acc.nvmAddrMapManager.nvmVirtStartAddr + offset := by grind
  simp [vaddrByOffset, getVaddrByPaddr, ht, phyAddrMapVirtAddr_eq, he]

theorem getVaddrByLba_apply {acc : NvmAccessor}
    (ht : acc.nvmAddrMapManager.phyAddrMapVirtAddrFunc = phyAddrMapVirtAddr) (lba : UInt64) :
    getVaddrByLba (some acc) lba =
      acc.nvmAddrMapManager.nvmVirtStartAddr + lba * cacheBlockSize := by
  simp only [getVaddrByLba, getVaddrByPaddr, ht, phyAddrMapVirtAddr_eq]
  grind

theorem nvmAccessorWrite_copies (h : Copies buffer virtAddr) (count : UInt64) :
    nvmAccessorWrite buffer count virtAddr m =
      .ok count (m.storeNvm virtAddr buffer count.toNat) := by
  simp [nvmAccessorWrite, h.1, h.2, memcpyToNvm, clflush, Machine.storeNvm]
  rfl

theorem nvmAccessorWrite_refused (h : ¬ Copies buffer virtAddr) (count : UInt64) :
    nvmAccessorWrite buffer count virtAddr m = .ok einval m := by
  have h' : buffer = 0 ∨ virtAddr = 0 := by simpa [Copies, Classical.or_iff_not_imp_left] using h
  by_cases hb : buffer = 0
  · simp [nvmAccessorWrite, hb]
  · simp [nvmAccessorWrite, hb, h'.resolve_left hb]

theorem nvmAccessorRead_copies (h : Copies buffer virtAddr) (count : UInt64) :
    nvmAccessorRead buffer count virtAddr m =
      .ok count (m.loadNvm buffer virtAddr count.toNat) := by
  simp [nvmAccessorRead, h.1, h.2, memcpyFromNvm, Machine.loadNvm]
  rfl

theorem nvmAccessorRead_refused (h : ¬ Copies buffer virtAddr) (count : UInt64) :
    nvmAccessorRead buffer count virtAddr m = .ok einval m := by
  have h' : buffer = 0 ∨ virtAddr = 0 := by simpa [Copies, Classical.or_iff_not_imp_left] using h
  by_cases hb : buffer = 0
  · simp [nvmAccessorRead, hb]
  · simp [nvmAccessorRead, hb, h'.resolve_left hb]

section OneByte
variable {acc : NvmAccessor}
  (ht : acc.nvmAddrMapManager.phyAddrMapVirtAddrFunc = phyAddrMapVirtAddr) {offset : UInt64}
include ht

theorem nvmAccessorReadByte_moves_one (hb : buffer ≠ 0)
    (hv : acc.nvmAddrMapManager.nvmVirtStartAddr + offset ≠ 0) :
    nvmAccessorReadByte (some acc) buffer offset m =
      .ok 1 (m.loadNvm buffer (acc.nvmAddrMapManager.nvmVirtStartAddr + offset) 1) := by
  rw [nvmAccessorReadByte, bind_ok (vaddrByOffset_apply ht offset)]
  exact nvmAccessorRead_copies ⟨hb, hv⟩ 1

theorem nvmAccessorWriteByte_moves_one (hb : buffer ≠ 0)
    (hv : acc.nvmAddrMapManager.nvmVirtStartAddr + offset ≠ 0) :
    nvmAccessorWriteByte (some acc) buffer offset m =
      .ok 1 (m.storeNvm (acc.nvmAddrMapManager.nvmVirtStartAddr + offset) buffer 1) := by
  rw [nvmAccessorWriteByte, bind_ok (vaddrByOffset_apply ht offset)]
  exact nvmAccessorWrite_copies ⟨hb, hv⟩ 1

end OneByte
end NvmBlkCache
