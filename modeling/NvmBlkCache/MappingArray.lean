import NvmBlkCache.Layout

/-!
# The mapping array as an array

`set_lba` and `get_lba` agree on where a slot is, but move one byte of it and ask for eight. No LBA
gets into a slot, and none out of it.
-/
namespace NvmBlkCache
open FaultProgram ByteMemory

/-- What `get_lba` returns, and what its caller then finds in `out`. -/
def Machine.gotLba (m : Machine) (out : Addr) (id : NvmCacheBlkId) : Option (Int32 × LbaType) :=
  match getLba m.cache.accessor out id m with
  | .ok ret t => some (ret, t.dram.load64 out)
  | .error _ _ => none

/-- After `set_lba(accessor, &x, i)`, with `x` at `lba`: slot `i` gives `x` back, and slot `j`, the
header and the data area are as they were. -/
def KeepsLba (m : Machine) (mapping : NvmMapping) (n : UInt64) (lba out : Addr)
    (i j : NvmCacheBlkId) : Prop :=
  ∃ m', setLba m.cache.accessor lba i m = .ok 0 m' ∧
    m'.gotLba out i = some (0, m.dram.load64 lba) ∧ m'.gotLba out j = m.gotLba out j ∧
    m'.nvm.load64 (mapping.nvmVirtStartAddr + slotStart 0) =
      m.nvm.load64 (mapping.nvmVirtStartAddr + slotStart 0) ∧
    ∀ k < n, ∀ a, InWindow (mapping.nvmVirtStartAddr + blockOffset n k) 512 a →
      m'.nvm a = m.nvm a

variable {m : Machine} {mapping : NvmMapping} {n : UInt64} {lba out : Addr} {i j : NvmCacheBlkId}

/-- A slot inside the mapped range is not at NULL. -/
theorem setLbaOffset_mapped (hbase : mapping.nvmVirtStartAddr ≠ 0)
    (hwrap : mapping.nvmVirtStartAddr.toNat + mapping.nvmPhyLength.toNat ≤ 2 ^ 64)
    (hslots : (n.toNat + 1) * 8 ≤ mapping.nvmPhyLength.toNat) (hi : i < n) :
    mapping.nvmVirtStartAddr + setLbaOffset i ≠ 0 := by
  apply add_ne_zero hbase hwrap
  rw [UInt64.lt_iff_toNat_lt] at hi
  simp only [setLbaOffset, mapperElementSize, UInt64.toNat_add, UInt64.toNat_mul,
    UInt64.reduceToNat]
  omega

/-- No LBA is kept, whatever the slots hold: `set_lba` returns -1. -/
theorem no_lba_kept (hacc : m.cache.accessor = some mapping.accessor)
    (hbase : mapping.nvmVirtStartAddr ≠ 0)
    (hwrap : mapping.nvmVirtStartAddr.toNat + mapping.nvmPhyLength.toNat ≤ 2 ^ 64)
    (hslots : (n.toNat + 1) * 8 ≤ mapping.nvmPhyLength.toNat) (hi : i < n) (hlba : lba ≠ 0) :
    ¬ KeepsLba m mapping n lba out i j := by
  rintro ⟨m', hset, -⟩
  have hmapped := setLbaOffset_mapped hbase hwrap hslots hi
  have ht : mapping.accessor.nvmAddrMapManager.phyAddrMapVirtAddrFunc = phyAddrMapVirtAddr := rfl
  rw [hacc, setLba_short ht hlba hmapped] at hset
  exact absurd (EStateM.Result.ok.inj hset).1 (by decide)

/-- Seven blocks, and 5 at address 0x9000 of DRAM. -/
def lbaInDram : Machine :=
  let m := Machine.zeroed ⟨some smallNvm, some ⟨7, some []⟩, initNvmBlkPool 1 Nat.one_pos⟩
  { m with dram := m.dram.store64 0x9000 5 }

theorem first_lba_not_kept :
    returned (setLba lbaInDram.cache.accessor 0x9000 0 lbaInDram) = some (-1) ∧
      ¬ KeepsLba lbaInDram ⟨true, 4096, 4096, 8192⟩ 7 0x9000 0x9008 0 1 := by
  have hret : returned (setLba lbaInDram.cache.accessor 0x9000 0 lbaInDram) = some (-1) := by
    decide
  refine ⟨hret, ?_⟩
  rintro ⟨m', hset, -⟩
  rw [hset, returned_ok, Option.some.injEq] at hret
  exact absurd hret (by decide)

theorem no_lba_kept_small :
    ¬ KeepsLba lbaInDram ⟨true, 4096, 4096, 8192⟩ 7 0x9000 0x9008 0 1 :=
  no_lba_kept rfl (by decide) (by decide) (by decide) (by decide) (by decide)

end NvmBlkCache
