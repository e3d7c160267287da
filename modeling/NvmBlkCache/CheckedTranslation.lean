import NvmBlkCache.Access

/-!
# The checked translation

`nvm_phy_addr_map_virt_addr` compares the address with the end of the physical range before it adds
the offset. The comparison lets the first address behind the range pass; and where the range ends
with the address space, its end is 0, and nothing in the range passes.
-/
namespace NvmBlkCache

/-- The translation of `phyAddr` is exact: the offset comes out right modulo `2 ^ 64`, and the checked
function moves the physical range onto the virtual one and answers NULL everywhere else. -/
structure TranslatesExactly (mapping : NvmMapping) (phyAddr : UInt64) : Prop where
  offset : ((phyAddrMapVirtAddr mapping phyAddr).toNat : ℤ) =
    (phyAddr.toNat + (mapping.nvmVirtStartAddr.toNat - mapping.nvmPhyStartAddr.toNat)) % 2 ^ 64
  checked : (nvmPhyAddrMapVirtAddr (some ⟨mapping, phyAddrMapVirtAddr⟩) phyAddr).toNat =
    if mapping.nvmPhyStartAddr.toNat ≤ phyAddr.toNat ∧
        phyAddr.toNat < mapping.nvmPhyStartAddr.toNat + mapping.nvmPhyLength.toNat then
      mapping.nvmVirtStartAddr.toNat + (phyAddr.toNat - mapping.nvmPhyStartAddr.toNat)
    else 0

variable {mapping : NvmMapping}

/-- Whichever of the two bases is larger. -/
theorem phyAddrMapVirtAddr_toNat (mapping : NvmMapping) (phyAddr : UInt64) :
    ((phyAddrMapVirtAddr mapping phyAddr).toNat : ℤ) =
      (phyAddr.toNat + (mapping.nvmVirtStartAddr.toNat - mapping.nvmPhyStartAddr.toNat)) %
        2 ^ 64 := by
  have hs := mapping.nvmPhyStartAddr.toNat_lt
  rw [phyAddrMapVirtAddr_eq, UInt64.toNat_add, UInt64.toNat_sub]
  omega

/-- What the checked function computes: its comparisons are exact, but for the sum, which wraps. -/
theorem nvmPhyAddrMapVirtAddr_toNat (hvalid : mapping.isValid = true) (phyAddr : UInt64) :
    (nvmPhyAddrMapVirtAddr (some ⟨mapping, phyAddrMapVirtAddr⟩) phyAddr).toNat =
      if phyAddr.toNat < mapping.nvmPhyStartAddr.toNat ∨
          (mapping.nvmPhyStartAddr.toNat + mapping.nvmPhyLength.toNat) % 2 ^ 64 <
            phyAddr.toNat then 0
      else (phyAddrMapVirtAddr mapping phyAddr).toNat := by
  simp only [nvmPhyAddrMapVirtAddr, hvalid, Bool.not_true, Bool.false_eq_true, if_false,
    gt_iff_lt, UInt64.lt_iff_toNat_lt, UInt64.toNat_add]
  split_ifs
  · rfl
  · rfl

/-- The checked translation is exact at every address but the one behind the physical range, and there
too if the virtual range ends with the address space. If the physical range itself does, it is exact
at the addresses before the range only. -/
theorem translatesExactly_iff (hvalid : mapping.isValid = true) (hlen : 0 < mapping.nvmPhyLength)
    (hphy : mapping.nvmPhyStartAddr.toNat + mapping.nvmPhyLength.toNat ≤ 2 ^ 64)
    (hvirt : mapping.nvmVirtStartAddr.toNat + mapping.nvmPhyLength.toNat ≤ 2 ^ 64)
    (hbase : mapping.nvmVirtStartAddr ≠ 0) (phyAddr : UInt64) :
    TranslatesExactly mapping phyAddr ↔
      if mapping.nvmPhyStartAddr.toNat + mapping.nvmPhyLength.toNat = 2 ^ 64 then
        phyAddr < mapping.nvmPhyStartAddr
      else phyAddr = mapping.nvmPhyStartAddr + mapping.nvmPhyLength →
        mapping.nvmVirtStartAddr.toNat + mapping.nvmPhyLength.toNat = 2 ^ 64 := by
  have hoffset := phyAddrMapVirtAddr_toNat mapping phyAddr
  have hcode := nvmPhyAddrMapVirtAddr_toNat hvalid phyAddr
  have hp := phyAddr.toNat_lt
  have hpos : mapping.nvmVirtStartAddr.toNat ≠ 0 := fun h => hbase (UInt64.toNat_inj.mp h)
  have hchecked : TranslatesExactly mapping phyAddr ↔ _ := ⟨fun h => h.checked, fun h => ⟨hoffset, h⟩⟩
  rw [hchecked, hcode, ← UInt64.toNat_inj, UInt64.toNat_add, UInt64.lt_iff_toNat_lt]
  rw [UInt64.lt_iff_toNat_lt, UInt64.toNat_zero] at hlen
  split_ifs <;> omega

/-- Address 8192 is the first behind the range from 4096 to 8191. -/
theorem end_of_range_passes :
    nvmPhyAddrMapVirtAddr (some ⟨⟨true, 4096, 4096, 16384⟩, phyAddrMapVirtAddr⟩) 8192 = 20480 ∧
      ¬ TranslatesExactly ⟨true, 4096, 4096, 16384⟩ 8192 := by
  refine ⟨by decide, fun h => ?_⟩
  exact absurd h.checked (by decide)

theorem translatesExactly_iff_inside : TranslatesExactly ⟨true, 4096, 4096, 16384⟩ 5000 := by
  apply (translatesExactly_iff rfl (by decide) (by decide) (by decide) (by decide) 5000).mpr
  rw [if_neg (by decide)]
  exact fun h => absurd h (by decide)

end NvmBlkCache
