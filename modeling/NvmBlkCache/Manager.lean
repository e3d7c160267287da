import NvmBlkCache.Access

/-!
# Mapping NVM

`manager.c`: the one range of physical memory that the module claims and maps, and what the kernel
holds for it meanwhile.
-/
namespace NvmBlkCache
open FaultProgram

/-- What the kernel holds for the module: ranges claimed in the tree of memory regions and in that of
I/O ports, and mappings. `memremap` is what it will answer, call after call, 0 for NULL. -/
structure Kernel where
  iomem : List (UInt64 × UInt64)
  ioports : List (UInt64 × UInt64)
  mappings : List Addr
  memremap : Stream' Addr

/-- The static `nvm_manager`, and the kernel. -/
structure ManagerState where
  nvmManager : NvmManager
  kernel : Kernel

abbrev ManagerM := EStateM Fault ManagerState

/-- Two ranges have a byte in common. -/
def rangesOverlap (r s : UInt64 × UInt64) : Bool :=
  r.1.toNat < s.1.toNat + s.2.toNat && s.1.toNat < r.1.toNat + r.2.toNat

def onKernel {α : Type} (f : Kernel → α × Kernel) : ManagerM α := modifyGet fun s =>
  ((f s.kernel).1, { s with kernel := (f s.kernel).2 })

def requestMemRegion (start len : UInt64) : ManagerM Bool := onKernel fun k =>
  if k.iomem.any (rangesOverlap (start, len)) then (false, k)
  else (true, { k with iomem := (start, len) :: k.iomem })

/-- Gives back a range of I/O ports; a range that is not claimed there is only warned about. -/
def releaseRegion (start len : UInt64) : ManagerM Unit := onKernel fun k =>
  ((), { k with ioports := k.ioports.erase (start, len) })

def memremap : ManagerM Addr := onKernel fun k =>
  let addr := k.memremap.head
  (addr, { k with
    memremap := k.memremap.tail
    mappings := if addr = 0 then k.mappings else addr :: k.mappings })

def memunmap (addr : Addr) : ManagerM Unit := onKernel fun k =>
  ((), { k with mappings := k.mappings.erase addr })

/-- The answer is whether the pointer is `&nvm_manager`, and not NULL. -/
def nvmAddrMapManagerInit (nvmPhyStartAddr nvmPhyLength : UInt64) : ManagerM Bool := do
  if (← get).nvmManager.isValid then return true
  if !(← requestMemRegion nvmPhyStartAddr nvmPhyLength) then return false
  let nvmVirtStartAddr ← memremap
  if nvmVirtStartAddr = 0 then
    releaseRegion nvmPhyStartAddr nvmPhyLength
    return false
  modify fun s => { s with nvmManager :=
    ⟨⟨true, nvmPhyStartAddr, nvmPhyLength, nvmVirtStartAddr⟩, phyAddrMapVirtAddr⟩ }
  return true

def nvmAddrMapManagerDestory : ManagerM Int32 := do
  let this := (← get).nvmManager
  if !this.isValid then return toInt einval
  modify fun s => { s with nvmManager := { this with isValid := false } }
  memunmap this.nvmVirtStartAddr
  releaseRegion this.nvmPhyStartAddr this.nvmPhyLength
  return 0

variable {s : ManagerState} {nvmPhyStartAddr nvmPhyLength : UInt64}

theorem onKernel_apply {α : Type} (f : Kernel → α × Kernel) (s : ManagerState) :
    onKernel f s = .ok (f s.kernel).1 { s with kernel := (f s.kernel).2 } := rfl

theorem requestMemRegion_refused
    (h : s.kernel.iomem.any (rangesOverlap (nvmPhyStartAddr, nvmPhyLength)) = true) :
    requestMemRegion nvmPhyStartAddr nvmPhyLength s = .ok false s := by
  rw [requestMemRegion, onKernel_apply, h]
  rfl

theorem requestMemRegion_claims
    (h : s.kernel.iomem.any (rangesOverlap (nvmPhyStartAddr, nvmPhyLength)) = false) :
    requestMemRegion nvmPhyStartAddr nvmPhyLength s = .ok true { s with kernel :=
      { s.kernel with iomem := (nvmPhyStartAddr, nvmPhyLength) :: s.kernel.iomem } } := by
  rw [requestMemRegion, onKernel_apply, h]
  rfl

theorem memremap_fails (h : s.kernel.memremap.head = 0) :
    memremap s = .ok 0 { s with kernel :=
      { s.kernel with memremap := s.kernel.memremap.tail } } := by
  simp only [memremap, onKernel_apply, h, if_true]

theorem memremap_maps (h : s.kernel.memremap.head ≠ 0) :
    memremap s = .ok s.kernel.memremap.head { s with kernel :=
      { s.kernel with
        memremap := s.kernel.memremap.tail
        mappings := s.kernel.memremap.head :: s.kernel.mappings } } := by
  simp only [memremap, onKernel_apply, h, if_false]

theorem nvmAddrMapManagerInit_again (h : s.nvmManager.isValid = true) :
    nvmAddrMapManagerInit nvmPhyStartAddr nvmPhyLength s = .ok true s := by
  rw [nvmAddrMapManagerInit, bind_ok (get_apply s), if_pos h]
  rfl

theorem nvmAddrMapManagerInit_refused (h : s.nvmManager.isValid = false)
    (hr : s.kernel.iomem.any (rangesOverlap (nvmPhyStartAddr, nvmPhyLength)) = true) :
    nvmAddrMapManagerInit nvmPhyStartAddr nvmPhyLength s = .ok false s := by
  rw [nvmAddrMapManagerInit, bind_ok (get_apply s), if_neg (by simp [h]),
    bind_ok (requestMemRegion_refused hr)]
  rfl

/-- `memremap` has failed, and what is given back is a range of I/O ports. -/
theorem nvmAddrMapManagerInit_unmapped (h : s.nvmManager.isValid = false)
    (hr : s.kernel.iomem.any (rangesOverlap (nvmPhyStartAddr, nvmPhyLength)) = false)
    (hm : s.kernel.memremap.head = 0) :
    nvmAddrMapManagerInit nvmPhyStartAddr nvmPhyLength s = .ok false { s with kernel :=
      { s.kernel with
        iomem := (nvmPhyStartAddr, nvmPhyLength) :: s.kernel.iomem
        ioports := s.kernel.ioports.erase (nvmPhyStartAddr, nvmPhyLength)
        memremap := s.kernel.memremap.tail } } := by
  have hmap := memremap_fails (s := { s with kernel :=
    { s.kernel with iomem := (nvmPhyStartAddr, nvmPhyLength) :: s.kernel.iomem } }) hm
  rw [nvmAddrMapManagerInit, bind_ok (get_apply s), if_neg (by simp [h]),
    bind_ok (requestMemRegion_claims hr)]
  simp only [Bool.not_true, Bool.false_eq_true, if_false]
  rw [bind_ok hmap, if_pos rfl]
  rfl

theorem nvmAddrMapManagerInit_maps (h : s.nvmManager.isValid = false)
    (hr : s.kernel.iomem.any (rangesOverlap (nvmPhyStartAddr, nvmPhyLength)) = false)
    (hm : s.kernel.memremap.head ≠ 0) :
    nvmAddrMapManagerInit nvmPhyStartAddr nvmPhyLength s = .ok true
      ⟨⟨⟨true, nvmPhyStartAddr, nvmPhyLength, s.kernel.memremap.head⟩, phyAddrMapVirtAddr⟩,
        { s.kernel with
          iomem := (nvmPhyStartAddr, nvmPhyLength) :: s.kernel.iomem
          mappings := s.kernel.memremap.head :: s.kernel.mappings
          memremap := s.kernel.memremap.tail }⟩ := by
  have hmap := memremap_maps (s := { s with kernel :=
    { s.kernel with iomem := (nvmPhyStartAddr, nvmPhyLength) :: s.kernel.iomem } }) hm
  rw [nvmAddrMapManagerInit, bind_ok (get_apply s), if_neg (by simp [h]),
    bind_ok (requestMemRegion_claims hr)]
  simp only [Bool.not_true, Bool.false_eq_true, if_false]
  rw [bind_ok hmap, if_neg hm]
  rfl

theorem nvmAddrMapManagerDestory_unmaps (h : s.nvmManager.isValid = true) :
    nvmAddrMapManagerDestory s = .ok 0 ⟨{ s.nvmManager with isValid := false },
      { s.kernel with
        mappings := s.kernel.mappings.erase s.nvmManager.nvmVirtStartAddr
        ioports := s.kernel.ioports.erase
          (s.nvmManager.nvmPhyStartAddr, s.nvmManager.nvmPhyLength) }⟩ := by
  rw [nvmAddrMapManagerDestory, bind_ok (get_apply s)]
  simp only [h]
  rfl

theorem nvmAddrMapManagerDestory_refused (h : s.nvmManager.isValid = false) :
    nvmAddrMapManagerDestory s = .ok (toInt einval) s := by
  rw [nvmAddrMapManagerDestory, bind_ok (get_apply s)]
  simp only [h]
  rfl

end NvmBlkCache
