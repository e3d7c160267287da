import NvmBlkCache.Format

/-!
# Mounting

`nvm_cache_format` and then `cache_mapper_scan`. Both ask for the eight bytes of a slot and count
what they get, but the byte functions of the accessor move one byte a call and say so: neither
function gets past its first access.
-/
namespace NvmBlkCache
open FaultProgram ByteMemory

/-- A cache before it is mounted: an accessor and a mapper that have just been initialised, an empty
pool, and NVM mapped at least as far as the last slot. -/
structure ReadyToMount (m : Machine) (acc : NvmAccessor) (mapper : NvmCacheMapper) : Prop where
  accessor : m.cache.accessor = some acc
  translate : acc.nvmAddrMapManager.phyAddrMapVirtAddrFunc = phyAddrMapVirtAddr
  mapped : acc.nvmAddrMapManager.nvmVirtStartAddr ≠ 0
  noWrap : acc.nvmAddrMapManager.nvmVirtStartAddr.toNat +
    acc.nvmAddrMapManager.nvmPhyLength.toNat ≤ 2 ^ 64
  elements : 1 ≤ mapper.elementNum
  slots : (mapper.elementNum.toNat + 1) * 8 ≤ acc.nvmAddrMapManager.nvmPhyLength.toNat
  funcArray : mapper.funcArray = some []
  initialised : m.cache.mapper = some mapper
  pool : ∃ size hs, m.cache.blkPool = initNvmBlkPool size hs
  bufferVar : m.bufferVar ≠ 0
  lbaVar : m.lbaVar ≠ 0

def slotAt (acc : NvmAccessor) (nvm : Mem) (k : ℕ) : UInt64 :=
  nvm.load64 (acc.nvmAddrMapManager.nvmVirtStartAddr + UInt64.ofNat (k * 8))

/-- Format and scan succeed, and the pool is what the slots say. -/
def MountReconstructs (m : Machine) (acc : NvmAccessor) (mapper : NvmCacheMapper) : Prop :=
  ∃ m₁ m₂, nvmCacheFormat m = .ok 0 m₁ ∧ cacheMapperScan m₁ = .ok 0 m₂ ∧
    (slotAt acc m.nvm 0 ≠ nvmCacheMagicNumber →
      slotAt acc m₂.nvm 0 = nvmCacheMagicNumber ∧
      (∀ i < mapper.elementNum.toNat, slotAt acc m₂.nvm (i + 1) = nvmCacheFormattedValue) ∧
      (∀ a, ¬ InWindow acc.nvmAddrMapManager.nvmVirtStartAddr
        ((mapper.elementNum.toNat + 1) * 8) a → m₂.nvm a = m.nvm a) ∧
      m₂.cache.blkPool.emptyIds = (List.range mapper.elementNum.toNat).map UInt64.ofNat ∧
      m₂.cache.blkPool.usedIds = []) ∧
    (slotAt acc m.nvm 0 = nvmCacheMagicNumber →
      m₂.nvm = m.nvm ∧
      ((∀ i < mapper.elementNum.toNat, ∀ j < mapper.elementNum.toNat,
          slotAt acc m.nvm (i + 1) = slotAt acc m.nvm (j + 1) →
          slotAt acc m.nvm (i + 1) ≠ uint64Max → i = j) →
        ∀ i < mapper.elementNum.toNat,
          if slotAt acc m.nvm (i + 1) = uint64Max then
            UInt64.ofNat i ∈ m₂.cache.blkPool.emptyIds
          else m₂.cache.blkPool.blockOf (slotAt acc m.nvm (i + 1)) = some (UInt64.ofNat i)))

variable {m : Machine} {acc : NvmAccessor} {mapper : NvmCacheMapper}

theorem scanElement_refuses (ha : m.cache.accessor = some acc)
    (ht : acc.nvmAddrMapManager.phyAddrMapVirtAddrFunc = phyAddrMapVirtAddr)
    (hb : m.bufferVar ≠ 0) {i : NvmCacheBlkId}
    (hv : acc.nvmAddrMapManager.nvmVirtStartAddr + slotOffset i ≠ 0) :
    scanElement i m = .ok (some (-1))
      (m.loadNvm m.bufferVar (acc.nvmAddrMapManager.nvmVirtStartAddr + slotOffset i) 1) := by
  rw [scanElement, bind_ok (get_apply m), ha, bind_ok (getLba_short ht hb hv)]
  rfl

theorem nvmCacheFormat_refused (ha : m.cache.accessor = some acc)
    (ht : acc.nvmAddrMapManager.phyAddrMapVirtAddrFunc = phyAddrMapVirtAddr)
    (hbase : acc.nvmAddrMapManager.nvmVirtStartAddr ≠ 0) (hb : m.bufferVar ≠ 0) :
    nvmCacheFormat m =
      .ok (-1) (m.loadNvm m.bufferVar acc.nvmAddrMapManager.nvmVirtStartAddr 1) := by
  have hread : nvmAccessorReadByte (some acc) m.bufferVar 0 m =
      .ok 1 (m.loadNvm m.bufferVar acc.nvmAddrMapManager.nvmVirtStartAddr 1) := by
    have hv : acc.nvmAddrMapManager.nvmVirtStartAddr + 0 ≠ 0 := by simpa using hbase
    simpa using nvmAccessorReadByte_moves_one (m := m) ht hb hv
  have hget : (liftM (get : Prog Machine) : Prog Machine) m = .ok m m := rfl
  rw [nvmCacheFormat, bind_ok (get_apply m), ha, nvmCacheFormatWith, bind_ok hget]
  simp only [ha, Option.isNone_some, Bool.false_eq_true, if_false, accessorByteIo]
  rw [bind_ok hread]
  simp [shortOfU64_one]

namespace ReadyToMount

theorem firstSlot_mapped (h : ReadyToMount m acc mapper) :
    acc.nvmAddrMapManager.nvmVirtStartAddr + slotOffset 0 ≠ 0 := by
  apply add_ne_zero h.mapped h.noWrap
  have hone := UInt64.le_iff_toNat_le.mp h.elements
  have hslots := h.slots
  rw [show slotOffset 0 = 8 by decide]
  simp only [UInt64.reduceToNat] at hone ⊢
  omega

/-- `nvm_cache_format` gives up before it has looked at the magic number. -/
theorem format_refuses (h : ReadyToMount m acc mapper) :
    nvmCacheFormat m =
      .ok (-1) (m.loadNvm m.bufferVar acc.nvmAddrMapManager.nvmVirtStartAddr 1) :=
  nvmCacheFormat_refused h.accessor h.translate h.mapped h.bufferVar

/-- So does `cache_mapper_scan`, before it has built a block. -/
theorem scan_refuses (h : ReadyToMount m acc mapper) :
    ∃ m', cacheMapperScan m = .ok (-1) m' ∧ m'.nvm = m.nvm ∧
      m'.cache.blkPool = m.cache.blkPool := by
  let registered := m.setScanFuncs mapper [.buildNvmEmptyBlock, .buildNvmValidBlock]
  have h₁ : registerMapperScanFunc .buildNvmEmptyBlock m =
      .ok ⟨⟩ (m.setScanFuncs mapper [.buildNvmEmptyBlock]) :=
    registerMapperScanFunc_append h.initialised h.funcArray (by decide) _
  have hm₁ : (m.setScanFuncs mapper [.buildNvmEmptyBlock]).cache.mapper =
      some { mapper with funcArray := some [.buildNvmEmptyBlock] } := rfl
  have h₂ : registerMapperScanFunc .buildNvmValidBlock
      (m.setScanFuncs mapper [.buildNvmEmptyBlock]) = .ok ⟨⟩ registered :=
    registerMapperScanFunc_append hm₁ rfl (by decide) _
  have hn : elementNum registered = .ok mapper.elementNum registered := rfl
  obtain ⟨n, hsucc⟩ : ∃ n, mapper.elementNum.toNat = n + 1 := by
    apply Nat.exists_eq_succ_of_ne_zero
    exact Nat.pos_iff_ne_zero.mp (UInt64.le_iff_toNat_le.mp h.elements)
  have hbody := scanElement_refuses (m := registered) h.accessor h.translate h.bufferVar
    h.firstSlot_mapped
  have hloop := countUp_return (n := n) hbody
  refine ⟨registered.loadNvm m.bufferVar (acc.nvmAddrMapManager.nvmVirtStartAddr + slotOffset 0) 1,
    ?_, rfl, rfl⟩
  rw [cacheMapperScan, bind_ok h₁, bind_ok h₂, bind_ok hn, hsucc, bind_ok hloop]
  rfl

end ReadyToMount

theorem mount_never_reconstructs (h : ReadyToMount m acc mapper) :
    ¬ MountReconstructs m acc mapper := by
  rintro ⟨m₁, m₂, hformat, -⟩
  rw [h.format_refuses] at hformat
  exact absurd hformat (by simp)

def unmounted : Machine :=
  Machine.zeroed ⟨some smallNvm, some ⟨7, some []⟩, initNvmBlkPool 1 Nat.one_pos⟩

theorem unmounted_ready : ReadyToMount unmounted smallNvm ⟨7, some []⟩ where
  accessor := rfl
  translate := rfl
  mapped := by decide
  noWrap := by decide
  elements := by decide
  slots := by decide
  funcArray := rfl
  initialised := rfl
  pool := ⟨1, by decide, rfl⟩
  bufferVar := by decide
  lbaVar := by decide

theorem unmounted_is_refused :
    returned (nvmCacheFormat unmounted) = some (-1) ∧
      ¬ MountReconstructs unmounted smallNvm ⟨7, some []⟩ := by
  have hret : returned (nvmCacheFormat unmounted) = some (-1) := by decide
  refine ⟨hret, ?_⟩
  rintro ⟨m₁, m₂, hformat, -⟩
  rw [hformat, returned_ok, Option.some.injEq] at hret
  exact absurd hret (by decide)

theorem mount_never_reconstructs_unmounted :
    ¬ MountReconstructs unmounted smallNvm ⟨7, some []⟩ :=
  mount_never_reconstructs unmounted_ready

end NvmBlkCache
