import NvmBlkCache.Mapper

/-!
# Where slots and blocks lie

Offsets into NVM of the slots of the mapping array and of the cache blocks. They never overlap, but
`element_num` leaves room for neither the header slot nor the rounding of the slots to a whole
block, so the last block may end behind the device.
-/
namespace NvmBlkCache
open FaultProgram ByteMemory

/-- The offset of block `i`, as `get_vaddr_by_lba` computes it for the I/O path. -/
def blockOffset (n i : UInt64) : UInt64 := (calculateBlkId n + i) * cacheBlockSize

/-- The blocks behind `n` slots end within 64 bits. -/
def OffsetsFit (n : UInt64) : Prop := (n.toNat / 64 + 1 + n.toNat) * 512 ≤ 2 ^ 64

section Offsets
variable {n i j : UInt64}

theorem calculateBlkId_toNat (h : OffsetsFit n) : (calculateBlkId n).toNat = n.toNat / 64 + 1 := by
  unfold OffsetsFit at h
  simp only [calculateBlkId, cacheBlockStartIndex, mapperElementSize, cacheBlockSize,
    UInt64.toNat_div, UInt64.toNat_add, UInt64.toNat_mul, UInt64.toNat_sub, UInt64.reduceToNat]
  omega

theorem slotOffset_toNat (h : OffsetsFit n) (hi : i < n) :
    (slotOffset i).toNat = (i.toNat + 1) * 8 := by
  unfold OffsetsFit at h
  rw [UInt64.lt_iff_toNat_lt] at hi
  simp only [slotOffset, cacheBlockStartIndex, mapperElementSize, UInt64.toNat_add,
    UInt64.toNat_mul, UInt64.reduceToNat]
  omega

theorem blockOffset_toNat (h : OffsetsFit n) (hi : i < n) :
    (blockOffset n i).toNat = (n.toNat / 64 + 1 + i.toNat) * 512 := by
  have hd := calculateBlkId_toNat h
  unfold OffsetsFit at h
  rw [UInt64.lt_iff_toNat_lt] at hi
  simp only [blockOffset, cacheBlockSize, UInt64.toNat_mul, UInt64.toNat_add, hd,
    UInt64.reduceToNat]
  omega

theorem blocks_apart (h : OffsetsFit n) (hi : i < n) (hj : j < n) (hij : i ≠ j) (p : UInt64) :
    Apart (p + blockOffset n i) 512 (p + blockOffset n j) 512 := by
  have hne : i.toNat ≠ j.toNat := fun he => hij (UInt64.toNat_inj.mp he)
  have hi' := blockOffset_toNat h hi
  have hj' := blockOffset_toNat h hj
  unfold OffsetsFit at h
  rw [UInt64.lt_iff_toNat_lt] at hi hj
  rcases Nat.lt_or_gt_of_ne hne with hlt | hlt
  · apply apart_of_le <;> omega
  · apply Apart.symm
    apply apart_of_le <;> omega

/-- The offset of slot `s`; slot 0 is the header, and slot `i + 1` that of block `i`. -/
def slotStart (s : ℕ) : UInt64 := UInt64.ofNat (s * 8)

theorem slotStart_toNat (h : OffsetsFit n) {s : ℕ} (hs : s ≤ n.toNat) :
    (slotStart s).toNat = s * 8 := by
  unfold OffsetsFit at h
  rw [slotStart, UInt64.toNat_ofNat']
  exact Nat.mod_eq_of_lt (by omega)

theorem slotOffset_eq (h : OffsetsFit n) (hi : i < n) : slotOffset i = slotStart (i.toNat + 1) := by
  apply UInt64.toNat_inj.mp
  rw [slotOffset_toNat h hi, slotStart_toNat h (UInt64.lt_iff_toNat_lt.mp hi)]

theorem slots_apart (h : OffsetsFit n) {s t : ℕ} (hs : s ≤ n.toNat) (ht : t ≤ n.toNat)
    (hst : s ≠ t) (p : UInt64) : Apart (p + slotStart s) 8 (p + slotStart t) 8 := by
  have hs' := slotStart_toNat h hs
  have ht' := slotStart_toNat h ht
  unfold OffsetsFit at h
  rcases Nat.lt_or_gt_of_ne hst with hlt | hlt
  · apply apart_of_le <;> omega
  · apply Apart.symm
    apply apart_of_le <;> omega

theorem slotStart_block_apart (h : OffsetsFit n) {s : ℕ} (hs : s ≤ n.toNat) (hj : j < n)
    (p : UInt64) : Apart (p + slotStart s) 8 (p + blockOffset n j) 512 := by
  have hs' := slotStart_toNat h hs
  have hj' := blockOffset_toNat h hj
  unfold OffsetsFit at h
  rw [UInt64.lt_iff_toNat_lt] at hj
  apply apart_of_le <;> omega

theorem slot_block_apart (h : OffsetsFit n) (hi : i < n) (hj : j < n) (p : UInt64) :
    Apart (p + slotOffset i) 8 (p + blockOffset n j) 512 := by
  rw [slotOffset_eq h hi]
  exact slotStart_block_apart h (UInt64.lt_iff_toNat_lt.mp hi) hj p

end Offsets

/-- A device of `len` bytes holds the header slot, the slots and the blocks of `n` elements. -/
structure LayoutFits (len n : UInt64) : Prop where
  header : 8 ≤ len.toNat
  slots : ∀ i < n, (slotOffset i).toNat + 8 ≤ len.toNat
  blocks : ∀ i < n, (blockOffset n i).toNat + 512 ≤ len.toNat

theorem cacheMapperInit_elementNum {mapper mapper' : NvmCacheMapper} {len : UInt64}
    {malloc : Option Addr} (h : cacheMapperInit (some mapper) len malloc = (0, some mapper')) :
    mapper'.elementNum = len / 520 := by
  obtain rfl : _ = mapper' := by simpa [cacheMapperInit] using h
  rfl

theorem elementNum_toNat (len : UInt64) : (len / 520).toNat = len.toNat / 520 := by
  rw [UInt64.toNat_div]
  rfl

theorem offsetsFit_of_length {len : UInt64} (h : len.toNat + 1024 < 2 ^ 64) :
    OffsetsFit (len / 520) := by
  unfold OffsetsFit
  rw [elementNum_toNat]
  omega

/-- The blocks fit exactly when the elements behind the last full 64 of them, and what the division
by 520 leaves over, make up for the header slot and the rounding: 512 bytes. -/
theorem layout_fits_iff {mapper mapper' : NvmCacheMapper} {len : UInt64} {malloc : Option Addr}
    (hlen : len.toNat + 1024 < 2 ^ 64)
    (hinit : cacheMapperInit (some mapper) len malloc = (0, some mapper'))
    (hn : 1 ≤ mapper'.elementNum) :
    LayoutFits len mapper'.elementNum ↔
      512 ≤ 8 * (len.toNat / 520 % 64) + len.toNat % 520 := by
  rw [cacheMapperInit_elementNum hinit] at hn ⊢
  have hfit := offsetsFit_of_length hlen
  have hnum := elementNum_toNat len
  have hone : 1 ≤ (len / 520).toNat := UInt64.le_iff_toNat_le.mp hn
  constructor
  · intro h
    have hlast : len / 520 - 1 < len / 520 := by
      rw [UInt64.lt_iff_toNat_lt, UInt64.toNat_sub_of_le _ _ hn]
      exact Nat.sub_lt hone (by decide)
    have hend := h.blocks _ hlast
    rw [blockOffset_toNat hfit hlast, UInt64.toNat_sub_of_le _ _ hn, UInt64.toNat_one] at hend
    omega
  · intro h
    refine ⟨by omega, fun i hi => ?_, fun i hi => ?_⟩
    · rw [slotOffset_toNat hfit hi]
      rw [UInt64.lt_iff_toNat_lt] at hi
      omega
    · rw [blockOffset_toNat hfit hi]
      rw [UInt64.lt_iff_toNat_lt] at hi
      omega

/-- Metadata and data of `n` elements do not overlap. Offsets count from any base: the start of NVM in
physical or in virtual memory. -/
structure LayoutApart (n : UInt64) : Prop where
  dataStart_fits : (n.toNat + 1) * 8 + 511 < 2 ^ 64
  dataStart : (calculateBlkId n).toNat = ((n.toNat + 1) * 8 + 511) / 512
  oneSlot : ∀ i < n, setLbaOffset i = slotOffset i ∧ slotOffset i = slotStart (i.toNat + 1)
  slots : ∀ s ≤ n.toNat, ∀ t ≤ n.toNat, s ≠ t → ∀ base,
    Apart (base + slotStart s) 8 (base + slotStart t) 8
  slots_end : ∀ s ≤ n.toNat, (slotStart s).toNat = s * 8 ∧
    s * 8 + 8 ≤ (calculateBlkId n).toNat * 512
  blockAddr : ∀ i < n, ∀ mapping : NvmMapping,
    getVaddrByLba (some mapping.accessor) (calculateBlkId n + i) =
      mapping.nvmVirtStartAddr + blockOffset n i
  blocks : ∀ i < n, ∀ j < n, i ≠ j → ∀ base,
    Apart (base + blockOffset n i) 512 (base + blockOffset n j) 512
  slots_blocks : ∀ s ≤ n.toNat, ∀ j < n, ∀ base,
    Apart (base + slotStart s) 8 (base + blockOffset n j) 512

theorem layoutApart_of_offsetsFit {n : UInt64} (h : OffsetsFit n) : LayoutApart n := by
  have hd := calculateBlkId_toNat h
  have hroom : (n.toNat / 64 + 1 + n.toNat) * 512 ≤ 2 ^ 64 := h
  refine ⟨by omega, by omega, fun i hi => ⟨rfl, slotOffset_eq h hi⟩,
    fun s hs t ht hst base => slots_apart h hs ht hst base,
    fun s hs => ⟨slotStart_toNat h hs, by omega⟩,
    fun i _ mapping => @getVaddrByLba_apply mapping.accessor rfl _,
    fun i hi j hj hij base => blocks_apart h hi hj hij base,
    fun s hs j hj base => slotStart_block_apart h hs hj base⟩

theorem layout_apart {mapper mapper' : NvmCacheMapper} {len : UInt64} {malloc : Option Addr}
    (hlen : len.toNat < 2 ^ 63)
    (hinit : cacheMapperInit (some mapper) len malloc = (0, some mapper')) :
    LayoutApart mapper'.elementNum := by
  rw [cacheMapperInit_elementNum hinit]
  exact layoutApart_of_offsetsFit (offsetsFit_of_length (by omega))

theorem layout_apart_4096 : LayoutApart 7 :=
  @layout_apart ⟨0, none⟩ ⟨7, some []⟩ 4096 (some 0x1000) (by decide) (by rfl)

/-- Room for one block only: it starts behind the 520 bytes. -/
theorem one_block_does_not_fit :
    cacheMapperInit (some ⟨0, none⟩) 520 (some 0x1000) = (0, some ⟨1, some []⟩) ∧
      ¬ LayoutFits 520 1 := by
  refine ⟨by rfl, fun h => ?_⟩
  exact absurd (h.blocks 0 (by decide)) (by decide)

theorem layout_fits_iff_1039 : LayoutFits 1039 1 ↔ 512 ≤ 8 * (1039 / 520 % 64) + 1039 % 520 :=
  @layout_fits_iff ⟨0, none⟩ ⟨1, some []⟩ 1039 (some 0x1000) (by decide) (by rfl) (by decide)

end NvmBlkCache
