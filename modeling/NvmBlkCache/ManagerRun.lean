import NvmBlkCache.LabelledRun
import NvmBlkCache.Manager

/-!
# The mapping over runs

What the kernel holds for the module while `nvm_addr_map_manager_init` and
`nvm_addr_map_manager_destory` are called in any order. Both give the range back through
`release_region`, which looks for it among the I/O ports only, so that a range once claimed in the tree
of memory regions stays claimed.
-/
namespace NvmBlkCache
open FaultProgram LabelledRun

inductive ManagerCall
  | init (nvmPhyStartAddr nvmPhyLength : UInt64)
  | destory

def ManagerCall.exec (s : ManagerState) : ManagerCall → ManagerState
  | .init start len => stateAfter (nvmAddrMapManagerInit start len s)
  | .destory => stateAfter (nvmAddrMapManagerDestory s)

def NvmMapping.claims (mapping : NvmMapping) : List (UInt64 × UInt64) :=
  if mapping.isValid then [(mapping.nvmPhyStartAddr, mapping.nvmPhyLength)] else []

def NvmMapping.maps (mapping : NvmMapping) : List Addr :=
  if mapping.isValid then [mapping.nvmVirtStartAddr] else []

/-- Beside the claims and the mappings of others, the kernel holds those of a valid manager's range
and nothing else. -/
structure HoldsExactly (others : List (UInt64 × UInt64)) (otherMappings : List Addr)
    (s : ManagerState) : Prop where
  claimed : s.kernel.iomem = s.nvmManager.claims ++ others
  mapped : s.kernel.mappings = s.nvmManager.maps ++ otherMappings

/-- The call has nothing to give back: a mapping is not taken down, and one that is set up does not
fail after its range has been claimed. -/
def GivesNothingBack (s : ManagerState) : ManagerCall → Prop
  | .init start len => s.nvmManager.isValid = true ∨
      s.kernel.iomem.any (rangesOverlap (start, len)) = true ∨ s.kernel.memremap.head ≠ 0
  | .destory => s.nvmManager.isValid = false

variable {s : ManagerState} {others : List (UInt64 × UInt64)} {otherMappings : List Addr}

namespace HoldsExactly

theorem of_invalid (h : s.nvmManager.isValid = false) :
    HoldsExactly s.kernel.iomem s.kernel.mappings s := by
  constructor <;> simp [NvmMapping.claims, NvmMapping.maps, h]

theorem init_iff (hs : HoldsExactly others otherMappings s) (start len : UInt64) :
    HoldsExactly others otherMappings (ManagerCall.exec s (.init start len)) ↔
      GivesNothingBack s (.init start len) := by
  rw [GivesNothingBack, ManagerCall.exec]
  cases hv : s.nvmManager.isValid with
  | true => simp [nvmAddrMapManagerInit_again hv, hs]
  | false =>
    cases hr : s.kernel.iomem.any (rangesOverlap (start, len)) with
    | true => simp [nvmAddrMapManagerInit_refused hv hr, hs]
    | false =>
      have hclaimed : s.kernel.iomem = others := by simp [hs.claimed, NvmMapping.claims, hv]
      have hmapped : s.kernel.mappings = otherMappings := by simp [hs.mapped, NvmMapping.maps, hv]
      by_cases hm : s.kernel.memremap.head = 0
      · rw [nvmAddrMapManagerInit_unmapped hv hr hm]
        -- the new claim has no valid range to stand for
        have hleak : ¬ (start, len) :: s.kernel.iomem = s.nvmManager.claims ++ others := by
          simp [NvmMapping.claims, hv, hclaimed]
        simp only [hm, ne_eq, not_true, or_false, Bool.false_eq_true, iff_false]
        exact fun h => hleak h.claimed
      · rw [nvmAddrMapManagerInit_maps hv hr hm]
        simp only [hm, ne_eq, not_false_eq_true, or_true, iff_true]
        constructor <;> simp [NvmMapping.claims, NvmMapping.maps, hclaimed, hmapped]

theorem destory_iff (hs : HoldsExactly others otherMappings s) :
    HoldsExactly others otherMappings (ManagerCall.exec s .destory) ↔
      GivesNothingBack s .destory := by
  rw [GivesNothingBack, ManagerCall.exec]
  cases hv : s.nvmManager.isValid with
  | false => simp [nvmAddrMapManagerDestory_refused hv, hs]
  | true =>
    rw [nvmAddrMapManagerDestory_unmaps hv]
    simp only [Bool.true_eq_false, iff_false]
    intro h
    have hleft := h.claimed
    simp [hs.claimed, NvmMapping.claims, hv] at hleft

/-- As long as nothing had to be given back, an init is refused for the claims of others only. -/
theorem init_refused_iff (hs : HoldsExactly others otherMappings s)
    (hv : s.nvmManager.isValid = false) (hm : s.kernel.memremap.head ≠ 0) (start len : UInt64) :
    returned (nvmAddrMapManagerInit start len s) = some false ↔
      others.any (rangesOverlap (start, len)) = true := by
  have hclaimed : s.kernel.iomem = others := by simp [hs.claimed, NvmMapping.claims, hv]
  cases hr : s.kernel.iomem.any (rangesOverlap (start, len)) with
  | true => simp only [nvmAddrMapManagerInit_refused hv hr, returned_ok, ← hclaimed, hr]
  | false =>
    rw [nvmAddrMapManagerInit_maps hv hr hm, ← hclaimed, hr]
    simp

end HoldsExactly

/-- Claim and mapping are those of the current range after every call exactly as long as no call had
anything to give back. -/
theorem resources_exact_iff (h : s.nvmManager.isValid = false) (calls : List ManagerCall) :
    (∀ t ∈ trajectory ManagerCall.exec s calls,
      HoldsExactly s.kernel.iomem s.kernel.mappings t) ↔
      Along ManagerCall.exec GivesNothingBack s calls := by
  apply trajectory_good_iff (fun _ => True) (HoldsExactly s.kernel.iomem s.kernel.mappings)
    (fun _ _ => True)
  · intros
    trivial
  · rintro t (⟨start, len⟩ | -) - - ht
    · exact ht.init_iff start len
    · exact ht.destory_iff
  · trivial
  · exact HoldsExactly.of_invalid h
  · exact along_of_forall fun _ _ => trivial

/-- Nothing is claimed or mapped, and every mapping will succeed. -/
def unloaded : ManagerState :=
  ⟨⟨⟨false, 0, 0, 0⟩, phyAddrMapVirtAddr⟩, ⟨[], [], [], Stream'.const 16384⟩⟩

/-- The range that the module has given up is claimed still, and the module itself is refused. -/
theorem reload_is_refused :
    returned (nvmAddrMapManagerInit 4096 4096
        (run ManagerCall.exec unloaded [.init 4096 4096, .destory])) = some false ∧
      ¬ ∀ t ∈ trajectory ManagerCall.exec unloaded [.init 4096 4096, .destory],
        HoldsExactly [] [] t := by
  constructor
  · decide
  · intro h
    have hlast : run ManagerCall.exec unloaded [.init 4096 4096, .destory] ∈
        trajectory ManagerCall.exec unloaded [.init 4096 4096, .destory] := by
      simp [trajectory]
    exact absurd (h _ hlast).claimed (by decide)

theorem resources_exact_while_loaded :
    HoldsExactly [] [] (run ManagerCall.exec unloaded [.init 4096 4096]) := by
  have hmaps : unloaded.kernel.memremap.head ≠ 0 := by decide
  have hexact := (resources_exact_iff rfl [.init 4096 4096]).mpr ⟨.inr (.inr hmaps), trivial⟩
  exact hexact _ (by simp [trajectory])

end NvmBlkCache
