import NvmBlkCache.Manager

/-!
# What an accessor call touches, and what of it stays

The four calls of `access.h`, with the translation that `manager.c` installs. The accessor does not
use the checked translation, so nothing keeps a call inside the mapped range; and it flushes one cache
line, whatever the length of the copy.
-/
namespace NvmBlkCache
open FaultProgram ByteMemory

inductive AccessorCall
  | readBlock (buffer : Addr) (blkId : NvmCacheBlkId)
  | writeBlock (buffer : Addr) (blkId : NvmCacheBlkId)
  | readByte (buffer : Addr) (offset : UInt64)
  | writeByte (buffer : Addr) (offset : UInt64)

namespace AccessorCall

def run (accessor : NvmAccessor) : AccessorCall → Prog UInt64
  | .readBlock buffer blkId => nvmAccessorReadBlock (some accessor) buffer blkId
  | .writeBlock buffer blkId => nvmAccessorWriteBlock (some accessor) buffer blkId
  | .readByte buffer offset => nvmAccessorReadByte (some accessor) buffer offset
  | .writeByte buffer offset => nvmAccessorWriteByte (some accessor) buffer offset

def buffer : AccessorCall → Addr
  | .readBlock buffer _ => buffer
  | .writeBlock buffer _ => buffer
  | .readByte buffer _ => buffer
  | .writeByte buffer _ => buffer

/-- How many bytes the call moves. -/
def count : AccessorCall → UInt64
  | .readBlock _ _ => cacheBlockSize
  | .writeBlock _ _ => cacheBlockSize
  | .readByte _ _ => 1
  | .writeByte _ _ => 1

/-- Where they are, counted from the start of NVM. -/
def offset : AccessorCall → UInt64
  | .readBlock _ blkId => blkId * cacheBlockSize
  | .writeBlock _ blkId => blkId * cacheBlockSize
  | .readByte _ offset => offset
  | .writeByte _ offset => offset

def IsWrite : AccessorCall → Prop
  | .writeBlock _ _ => True
  | .writeByte _ _ => True
  | _ => False

instance : DecidablePred IsWrite
  | .readBlock _ _ => isFalse id
  | .writeBlock _ _ => isTrue trivial
  | .readByte _ _ => isFalse id
  | .writeByte _ _ => isTrue trivial

/-- The address that the copy gets. -/
def target (accessor : NvmAccessor) : AccessorCall → Addr
  | .readBlock _ blkId => getVaddrByLba (some accessor) blkId
  | .writeBlock _ blkId => getVaddrByLba (some accessor) blkId
  | .readByte _ offset =>
    getVaddrByPaddr (some accessor) (offset + accessor.nvmAddrMapManager.nvmPhyStartAddr)
  | .writeByte _ offset =>
    getVaddrByPaddr (some accessor) (offset + accessor.nvmAddrMapManager.nvmPhyStartAddr)

/-- The call copies to or from byte `a` of NVM: some run of it changes the byte, or leaves in DRAM
something that depends on it. -/
def Touches (call : AccessorCall) (accessor : NvmAccessor) (a : Addr) : Prop :=
  ∃ m v, (stateAfter (call.run accessor m)).nvm a ≠ m.nvm a ∨
    (stateAfter (call.run accessor { m with nvm := Function.update m.nvm a v })).dram ≠
      (stateAfter (call.run accessor m)).dram

/-- The call reports an error and touches no byte of NVM. -/
def Refused (call : AccessorCall) (accessor : NvmAccessor) : Prop :=
  (∀ m, returned (call.run accessor m) = some einval) ∧ ∀ a, ¬ call.Touches accessor a

/-- The mapping is gone: `nvm_addr_map_manager_destory` has succeeded and left the manager so. -/
def Destroyed (mapping : NvmMapping) : Prop :=
  ∃ s s', nvmAddrMapManagerDestory s = .ok 0 s' ∧ s'.nvmManager.toNvmMapping = mapping

/-- What the mapping promises of a call. -/
structure Confined (call : AccessorCall) (mapping : NvmMapping) : Prop where
  inside : call.Refused mapping.accessor ∨ ∀ a, call.Touches mapping.accessor a →
    InWindow mapping.nvmVirtStartAddr mapping.nvmPhyLength.toNat a
  mapped : Destroyed mapping → call.Refused mapping.accessor

variable {call : AccessorCall} {accessor : NvmAccessor} {mapping : NvmMapping} {m : Machine}

theorem count_cases (call : AccessorCall) : call.count = 512 ∨ call.count = 1 := by
  cases call with
  | readBlock _ _ => exact Or.inl rfl
  | writeBlock _ _ => exact Or.inl rfl
  | readByte _ _ => exact Or.inr rfl
  | writeByte _ _ => exact Or.inr rfl

/-- A byte count is never the error that a refusal returns. -/
theorem count_ne_einval (call : AccessorCall) : einval ≠ call.count := by
  rcases call.count_cases with he | he <;> rw [he] <;> decide

theorem target_mapping (call : AccessorCall) (mapping : NvmMapping) :
    call.target mapping.accessor = mapping.nvmVirtStartAddr + call.offset := by
  have hbyte (offset : UInt64) : phyAddrMapVirtAddr mapping (offset + mapping.nvmPhyStartAddr) =
      mapping.nvmVirtStartAddr + offset := by
    rw [phyAddrMapVirtAddr_eq]
    grind
  cases call with
  | readBlock _ _ => exact getVaddrByLba_apply rfl _
  | writeBlock _ _ => exact getVaddrByLba_apply rfl _
  | readByte _ offset => exact hbyte offset
  | writeByte _ offset => exact hbyte offset

theorem run_write (h : call.IsWrite) :
    call.run accessor m = nvmAccessorWrite call.buffer call.count (call.target accessor) m := by
  cases call with
  | readBlock _ _ => exact h.elim
  | writeBlock _ _ => rfl
  | readByte _ _ => exact h.elim
  | writeByte _ _ => rfl

theorem run_read (h : ¬ call.IsWrite) :
    call.run accessor m = nvmAccessorRead call.buffer call.count (call.target accessor) m := by
  cases call with
  | readBlock _ _ => rfl
  | writeBlock _ _ => exact (h trivial).elim
  | readByte _ _ => rfl
  | writeByte _ _ => exact (h trivial).elim

theorem run_refused (h : ¬ Copies call.buffer (call.target accessor)) :
    call.run accessor m = .ok einval m := by
  by_cases hw : call.IsWrite
  · rw [run_write hw, nvmAccessorWrite_refused h]
  · rw [run_read hw, nvmAccessorRead_refused h]

theorem returned_copies (h : Copies call.buffer (call.target accessor)) :
    returned (call.run accessor m) = some call.count := by
  by_cases hw : call.IsWrite
  · rw [run_write hw, nvmAccessorWrite_copies h, returned_ok]
  · rw [run_read hw, nvmAccessorRead_copies h, returned_ok]

theorem copies_of_returned (h : returned (call.run accessor m) = some call.count) :
    Copies call.buffer (call.target accessor) := by
  by_contra hc
  rw [run_refused hc, returned_ok, Option.some.injEq] at h
  exact call.count_ne_einval h

section Confinement

theorem run_copies (h : Copies call.buffer (call.target accessor)) :
    call.run accessor m = .ok call.count
      (if call.IsWrite then m.storeNvm (call.target accessor) call.buffer call.count.toNat
      else m.loadNvm call.buffer (call.target accessor) call.count.toNat) := by
  by_cases hw : call.IsWrite
  · rw [run_write hw, nvmAccessorWrite_copies h, if_pos hw]
  · rw [run_read hw, nvmAccessorRead_copies h, if_neg hw]

theorem touches_window {a : Addr} (h : call.Touches accessor a) :
    Copies call.buffer (call.target accessor) ∧
      InWindow (call.target accessor) call.count.toNat a := by
  obtain ⟨m, v, hdiff⟩ := h
  have hcopies : Copies call.buffer (call.target accessor) := by
    by_contra hc
    simp [run_refused hc] at hdiff
  refine ⟨hcopies, ?_⟩
  by_contra hout
  by_cases hw : call.IsWrite
  · simp [run_copies hcopies, hw, Machine.storeNvm, Mem.write_outside hout] at hdiff
  · -- a load does not depend on a byte outside its window
    have hsame : ∀ i < call.count.toNat,
        Mem.bytes (Function.update m.nvm a v) (call.target accessor) i =
          m.nvm.bytes (call.target accessor) i := by
      intro i hi
      have hne : call.target accessor + UInt64.ofNat i ≠ a :=
        fun he => hout (he ▸ inWindow_add hi)
      simp [Mem.bytes, hne]
    have hwrite := Mem.write_congr (m := m.dram) (p := call.buffer) hsame
    simp [run_copies hcopies, hw, Machine.loadNvm, hwrite] at hdiff

theorem window_touches {a : Addr} (h : Copies call.buffer (call.target accessor))
    (ha : InWindow (call.target accessor) call.count.toNat a) : call.Touches accessor a := by
  let m : Machine := { Machine.zeroed ⟨none, none, initNvmBlkPool 1 Nat.one_pos⟩ with
    dram := fun _ => 1 }
  refine ⟨m, 1, ?_⟩
  by_cases hw : call.IsWrite
  · left
    simp [run_copies h, hw, Machine.storeNvm, Mem.write, ha, Mem.bytes, m, Machine.zeroed]
  · right
    -- the byte that the load leaves in the buffer for `a`
    intro he
    have hb := congrFun he (call.buffer + (a - call.target accessor))
    have hin : InWindow call.buffer call.count.toNat
        (call.buffer + (a - call.target accessor)) := by
      rw [InWindow, show call.buffer + (a - call.target accessor) - call.buffer =
        a - call.target accessor by grind]
      exact ha
    simp [run_copies h, hw, Machine.loadNvm, Mem.write, hin, Mem.bytes, m, Machine.zeroed] at hb

theorem touches_iff (a : Addr) : call.Touches accessor a ↔
    Copies call.buffer (call.target accessor) ∧
      InWindow (call.target accessor) call.count.toNat a :=
  ⟨touches_window, fun h => window_touches h.1 h.2⟩

theorem refused_iff : call.Refused accessor ↔ ¬ Copies call.buffer (call.target accessor) := by
  constructor
  · intro h hc
    have hret := h.1 (Machine.zeroed ⟨none, none, initNvmBlkPool 1 Nat.one_pos⟩)
    rw [returned_copies hc, Option.some.injEq] at hret
    exact call.count_ne_einval hret.symm
  · intro hc
    refine ⟨fun m => by rw [run_refused hc, returned_ok], fun a ha => hc ((touches_iff a).mp ha).1⟩

theorem destroyed_iff : Destroyed mapping ↔ mapping.isValid = false := by
  constructor
  · rintro ⟨s, s', hrun, rfl⟩
    cases hv : s.nvmManager.isValid with
    | false =>
      rw [nvmAddrMapManagerDestory_refused hv] at hrun
      have hret : toInt einval = 0 := Option.some.inj (congrArg returned hrun)
      exact absurd hret (by decide)
    | true =>
      rw [nvmAddrMapManagerDestory_unmaps hv] at hrun
      cases hrun
      rfl
  · intro hv
    let s : ManagerState :=
      ⟨⟨{ mapping with isValid := true }, phyAddrMapVirtAddr⟩, ⟨[], [], [], Stream'.const 0⟩⟩
    refine ⟨s, _, nvmAddrMapManagerDestory_unmaps rfl, ?_⟩
    cases mapping
    cases hv
    rfl

/-- The mapping keeps its promise of a call exactly when the call passes a NULL pointer, or the
mapping stands and the bytes end inside it: what the accessor does not check. -/
theorem confined_iff (call : AccessorCall) (mapping : NvmMapping) :
    call.Confined mapping ↔
      ¬ Copies call.buffer (mapping.nvmVirtStartAddr + call.offset) ∨
        (mapping.isValid = true ∧
          call.offset.toNat + call.count.toNat ≤ mapping.nvmPhyLength.toNat) := by
  have hpos : 0 < call.count.toNat := by
    rcases call.count_cases with he | he <;> rw [he] <;> decide
  have hwindow := window_subset_iff (p := mapping.nvmVirtStartAddr) (x := call.offset) hpos
    mapping.nvmPhyLength.toNat_lt
  rw [← call.target_mapping mapping] at hwindow ⊢
  by_cases hc : Copies call.buffer (call.target mapping.accessor)
  · have hnot : ¬ call.Refused mapping.accessor := fun h => refused_iff.mp h hc
    constructor
    · intro h
      have hin := h.inside.resolve_left hnot
      have hvalid : mapping.isValid = true := by
        by_contra hv
        exact hnot (h.mapped (destroyed_iff.mpr (by simpa using hv)))
      exact Or.inr ⟨hvalid, hwindow.mp fun a ha => hin a ((touches_iff a).mpr ⟨hc, ha⟩)⟩
    · intro h
      obtain ⟨hvalid, hend⟩ := h.resolve_left (not_not_intro hc)
      constructor
      · exact Or.inr fun a ha => hwindow.mpr hend a ((touches_iff a).mp ha).2
      · intro hd
        rw [destroyed_iff.mp hd] at hvalid
        cases hvalid
  · have hr : call.Refused mapping.accessor := refused_iff.mpr hc
    exact ⟨fun _ => Or.inl hc, fun _ => ⟨Or.inl hr, fun _ => hr⟩⟩

/-- The one block of 520 bytes of NVM is block 1, which ends at byte 1024. -/
theorem last_block_read_outside :
    ¬ (AccessorCall.readBlock 0x8000 1).Confined ⟨true, 4096, 520, 8192⟩ := by
  have hcopies : Copies 0x8000
      ((AccessorCall.readBlock 0x8000 1).target (NvmMapping.accessor ⟨true, 4096, 520, 8192⟩)) := by
    decide
  intro h
  have hin := h.inside.resolve_left fun hr => refused_iff.mp hr hcopies
  have hlast := hin (8192 + 1023) ((touches_iff _).mpr ⟨hcopies, by decide⟩)
  exact absurd hlast (by decide)

end Confinement

section Durability

/-- The persistent image holds what the call has written. -/
def Durable (call : AccessorCall) (accessor : NvmAccessor) (m : Machine) : Prop :=
  ∀ i < call.count.toNat,
    (stateAfter (call.run accessor m)).persisted.bytes (call.target accessor) i =
      m.dram.bytes call.buffer i

theorem persisted_iff (hw : call.IsWrite) (hc : Copies call.buffer (call.target accessor)) {i : ℕ}
    (hi : i < call.count.toNat) :
    (stateAfter (call.run accessor m)).persisted.bytes (call.target accessor) i =
        m.dram.bytes call.buffer i ↔
      (call.target accessor + UInt64.ofNat i) / 64 = call.target accessor / 64 ∨
        m.persisted.bytes (call.target accessor) i = m.dram.bytes call.buffer i := by
  have hnew := Mem.bytes_write (m := m.nvm) (p := call.target accessor)
    (f := m.dram.bytes call.buffer) hi call.count.toNat_lt.le
  rw [run_copies hc, if_pos hw, stateAfter_ok, Mem.bytes, Machine.storeNvm]
  by_cases hline : (call.target accessor + UInt64.ofNat i) / 64 = call.target accessor / 64
  · simp only [hline, if_true, true_or, iff_true]
    exact hnew
  · simp only [hline, if_false, false_or]
    rfl

/-- A write that returned its count is durable exactly when each of its bytes lies in the cache line
of the first, the only one flushed, or the image has held it before. -/
theorem durable_iff (hw : call.IsWrite) (h : returned (call.run accessor m) = some call.count) :
    call.Durable accessor m ↔ ∀ i < call.count.toNat,
      (call.target accessor + UInt64.ofNat i) / 64 = call.target accessor / 64 ∨
        m.persisted.bytes (call.target accessor) i = m.dram.bytes call.buffer i :=
  forall₂_congr fun _ hi => persisted_iff hw (copies_of_returned h) hi

/-- So a byte is durable wherever it goes. -/
theorem writeByte_durable {buffer : Addr} {offset : UInt64}
    (h : returned ((AccessorCall.writeByte buffer offset).run accessor m) = some 1) :
    (AccessorCall.writeByte buffer offset).Durable accessor m := by
  intro i hi
  obtain rfl : i = 0 := Nat.lt_one_iff.mp hi
  have hw : (AccessorCall.writeByte buffer offset).IsWrite := trivial
  rw [persisted_iff hw (copies_of_returned h) hi]
  simp

/-- DRAM full of ones over NVM full of zeros. -/
def freshOnes : Machine :=
  { Machine.zeroed ⟨some smallNvm, none, initNvmBlkPool 1 Nat.one_pos⟩ with dram := fun _ => 1 }

theorem durable_iff_freshOnes :
    (AccessorCall.writeBlock 0x8000 0).Durable smallNvm freshOnes ↔ ∀ i < 512,
      (8192 + UInt64.ofNat i) / 64 = 8192 / 64 ∨
        freshOnes.persisted.bytes 8192 i = freshOnes.dram.bytes 0x8000 i :=
  durable_iff trivial (by decide)

/-- Of a block that begins on a cache line, byte 64 is in the next one. -/
theorem block_write_torn :
    returned ((AccessorCall.writeBlock 0x8000 0).run smallNvm freshOnes) = some 512 ∧
      ¬ (AccessorCall.writeBlock 0x8000 0).Durable smallNvm freshOnes := by
  refine ⟨by decide, fun h => ?_⟩
  have hw : (AccessorCall.writeBlock 0x8000 0).IsWrite := trivial
  have hbyte := (persisted_iff hw (by decide) (by decide)).mp (h 64 (by decide))
  exact absurd hbyte (by decide)

end Durability

end AccessorCall
end NvmBlkCache
