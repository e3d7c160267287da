import NvmBlkCache.CacheRefinement
import NvmBlkCache.IoFailure

/-!
# Power loss

The accessor writes back one 64-byte line of the 512 bytes of a block. What a power loss leaves of a
block is therefore its first line as it was written last, and everything behind it as it was when the
machine came up.
-/
namespace NvmBlkCache
open FaultProgram ByteMemory LabelledRun NvmCacheBlkPool

/-- An address in the 64-byte line that an aligned one begins. -/
theorem line_eq_iff {p : Addr} (hp : p.toNat % 64 = 0) {i : ℕ} (hi : i < 512) :
    (p + UInt64.ofNat i) / 64 = p / 64 ↔ i < 64 := by
  have hlt := p.toNat_lt
  rw [← UInt64.toNat_inj, UInt64.toNat_div, UInt64.toNat_div, UInt64.toNat_add,
    UInt64.toNat_ofNat', show (64 : UInt64).toNat = 64 from rfl]
  omega

namespace Machine
variable {m t t' : Machine} {mapping : NvmMapping}

/-- The machine after power has been lost and has come back, with the map that the cache had. -/
def powerLoss (m : Machine) : Machine := { m with nvm := m.persisted, dram := fun _ => 0 }

theorem blockStart_aligned (halign : mapping.nvmVirtStartAddr.toNat % 64 = 0)
    (id : NvmCacheBlkId) : (m.blockStart mapping id).toNat % 64 = 0 := by
  unfold blockStart blockOffset
  rw [UInt64.toNat_add, UInt64.toNat_mul, show cacheBlockSize.toNat = 512 from rfl]
  omega

theorem Placed.of_kept (h : m.Placed mapping) (hwf : t.cache.blkPool.WF)
    (haccessor : t.cache.accessor = m.cache.accessor) (hmapper : t.cache.mapper = m.cache.mapper)
    (hblockOf : t.blockOf = m.blockOf) : t.Placed mapping := by
  have helements : t.elements = m.elements := by rw [elements, hmapper, elements]
  refine ⟨⟨⟨hwf, ?_⟩, ?_⟩, ?_, ?_, ?_, ?_⟩
  · rw [hmapper]
    exact h.mapper
  · rw [haccessor]
    exact h.accessor
  · rw [helements]
    exact h.fits
  · rw [hblockOf, helements]
    exact h.id_lt
  · rw [hblockOf]
    exact h.distinct
  · unfold blockStart
    rw [hblockOf, helements]
    exact h.nonNull

/-- `t` comes from `m` by requests. The map is the same; the image that outlives power has the first
line of each block as it is, and the other lines as they were in `m`. -/
structure HeadsOutlive (m : Machine) (mapping : NvmMapping) (t : Machine) : Prop where
  placed : t.Placed mapping
  mapper_eq : t.cache.mapper = m.cache.mapper
  blockOf_eq : t.blockOf = m.blockOf
  lowerBdev_eq : t.lowerBdev = m.lowerBdev
  head : ∀ l id, m.blockOf l = some id → ∀ i < 64,
    t.persisted.bytes (m.blockStart mapping id) i = t.nvm.bytes (m.blockStart mapping id) i
  tail : ∀ l id, m.blockOf l = some id → ∀ i < 512, 64 ≤ i →
    t.persisted.bytes (m.blockStart mapping id) i = m.persisted.bytes (m.blockStart mapping id) i

namespace HeadsOutlive

theorem start (h : m.Placed mapping) (hclean : m.persisted = m.nvm) :
    m.HeadsOutlive mapping m :=
  ⟨h, rfl, rfl, rfl, fun _ _ _ _ _ => by rw [hclean], fun _ _ _ _ _ _ => rfl⟩

theorem elements_eq (h : m.HeadsOutlive mapping t) : t.elements = m.elements := by
  rw [elements, h.mapper_eq, elements]

theorem blockStart_eq (h : m.HeadsOutlive mapping t) :
    t.blockStart mapping = m.blockStart mapping := by
  unfold blockStart
  rw [h.elements_eq]

/-- Only the map, NVM and what outlives power matter. -/
theorem of_kept (h : m.HeadsOutlive mapping t) (hwf : t'.cache.blkPool.WF)
    (haccessor : t'.cache.accessor = t.cache.accessor)
    (hmapper : t'.cache.mapper = t.cache.mapper) (hblockOf : t'.blockOf = t.blockOf)
    (hlower : t'.lowerBdev = t.lowerBdev) (hnvm : t'.nvm = t.nvm)
    (hpersisted : t'.persisted = t.persisted) : m.HeadsOutlive mapping t' where
  placed := h.placed.of_kept hwf haccessor hmapper hblockOf
  mapper_eq := hmapper.trans h.mapper_eq
  blockOf_eq := hblockOf.trans h.blockOf_eq
  lowerBdev_eq := hlower.trans h.lowerBdev_eq
  head := by
    rw [hnvm, hpersisted]
    exact h.head
  tail := by
    rw [hpersisted]
    exact h.tail

/-- A block that is written has its first line written back, and touches no other block. -/
theorem store (h : m.HeadsOutlive mapping t) (halign : mapping.nvmVirtStartAddr.toNat % 64 = 0)
    {l : LbaType} {id : NvmCacheBlkId} (hb : m.blockOf l = some id) (buffer : Addr) :
    m.HeadsOutlive mapping (t.storeNvm (m.blockStart mapping id) buffer 512) := by
  have hline : ∀ i < 512, (m.blockStart mapping id + UInt64.ofNat i) / 64 =
      m.blockStart mapping id / 64 ↔ i < 64 := fun i hi => line_eq_iff (blockStart_aligned halign id) hi
  have hbt : t.blockOf l = some id := h.blockOf_eq ▸ hb
  -- a byte of another block is in neither the window nor the line of this one
  have hother : ∀ l' id', m.blockOf l' = some id' → l' ≠ l → ∀ i < 512,
      ¬ InWindow (m.blockStart mapping id) 512 (m.blockStart mapping id' + UInt64.ofNat i) ∧
      (m.blockStart mapping id' + UInt64.ofNat i) / 64 ≠ m.blockStart mapping id / 64 := by
    intro l' id' hb' hne i hi
    have hapart := h.placed.apart hbt (h.blockOf_eq ▸ hb') hne.symm
    rw [h.blockStart_eq] at hapart
    refine ⟨fun hin => hapart _ hin (inWindow_add hi), fun hsame => ?_⟩
    apply hapart (m.blockStart mapping id' + UInt64.ofNat i) ?_ (inWindow_add hi)
    have hp := blockStart_aligned (m := m) halign id
    have hlt := (m.blockStart mapping id).toNat_lt
    rw [← UInt64.toNat_inj, UInt64.toNat_div, UInt64.toNat_div,
      show (64 : UInt64).toNat = 64 from rfl] at hsame
    rw [InWindow, UInt64.toNat_sub]
    omega
  refine ⟨h.placed.of_eq rfl, h.mapper_eq, h.blockOf_eq, h.lowerBdev_eq, ?_, ?_⟩
  · intro l' id' hb' i hi
    by_cases hl : l' = l
    · subst hl
      obtain rfl : id = id' := Option.some.inj (hb.symm.trans hb')
      exact if_pos ((hline i (by omega)).mpr hi)
    · obtain ⟨hout, hsep⟩ := hother l' id' hb' hl i (by omega)
      have hnvm : (t.storeNvm (m.blockStart mapping id) buffer 512).nvm.bytes
          (m.blockStart mapping id') i = t.nvm.bytes (m.blockStart mapping id') i :=
        Mem.write_outside hout
      rw [hnvm, ← h.head l' id' hb' i hi]
      exact if_neg hsep
  · intro l' id' hb' i hi h64
    rw [← h.tail l' id' hb' i hi h64]
    apply if_neg
    by_cases hl : l' = l
    · subst hl
      obtain rfl : id = id' := Option.some.inj (hb.symm.trans hb')
      rw [hline i hi]
      omega
    · exact (hother l' id' hb' hl i hi).2

theorem writeSector (h : m.HeadsOutlive mapping t)
    (halign : mapping.nvmVirtStartAddr.toNat % 64 = 0) (req : NvmCacheIoReq) (off : UInt64) :
    m.HeadsOutlive mapping (stateAfter (NvmBlkCache.writeSector req off t)) := by
  cases hb : t.blockOf (req.lba + off) with
  | some id =>
    rw [writeSector_hit req h.placed.wf h.placed.mapper hb, stateAfter_ok]
    unfold writeBlock
    split_ifs with hc
    · rw [h.placed.blockVaddr_eq, h.blockStart_eq]
      exact h.store halign (h.blockOf_eq ▸ hb) _
    · exact h
  | none =>
    obtain ⟨p, hleft, hrun⟩ := writeSector_miss (m := t) req h.placed.wf hb
    rw [hrun, stateAfter_error]
    exact h.of_kept hleft.wf rfl rfl hleft.blockOf_eq rfl rfl rfl

theorem handleIo (h : m.HeadsOutlive mapping t)
    (halign : mapping.nvmVirtStartAddr.toNat % 64 = 0) (req : NvmCacheIoReq) :
    m.HeadsOutlive mapping (stateAfter (nvmCacheHandleIo req t)) := by
  cases hdir : req.dir with
  | cacheRead =>
    obtain ⟨ret, s, he, hf⟩ := readIo_frame (m := t) req h.placed.wf h.placed.mapper hdir
    rw [he, stateAfter_ok, hf]
    exact h.of_kept h.placed.wf rfl rfl rfl rfl rfl rfl
  | cacheWrite =>
    rw [nvmCacheHandleIo, hdir]
    refine preserves_bind (countUp_preserves (fun off s hs => ?_) 0 _) (fun ret => ?_) t h
    · exact hs.writeSector halign req off
    · cases ret <;> exact preserves_pure _

theorem exec (h : m.HeadsOutlive mapping t)
    (halign : mapping.nvmVirtStartAddr.toNat % 64 = 0) (ev : IoEvent) :
    m.HeadsOutlive mapping (ev.exec t) :=
  handleIo (t := t.arrive ev) (h.of_kept h.placed.wf rfl rfl rfl rfl rfl rfl) halign ev.req

theorem run (h : m.Placed mapping) (halign : mapping.nvmVirtStartAddr.toNat % 64 = 0)
    (hclean : m.persisted = m.nvm) (evs : List IoEvent) :
    m.HeadsOutlive mapping (LabelledRun.run IoEvent.exec m evs) := by
  have hall : Along IoEvent.exec (fun _ _ => True) m evs := along_of_forall fun _ _ => trivial
  exact run_invariant (m.HeadsOutlive mapping) (fun _ ev hs _ => hs.exec halign ev) (start h hclean) hall

/-- What is found after power has been lost: the first line as written last, the rest as at the start. -/
theorem dataAt_powerLoss (h : m.Placed mapping) (hclean : m.persisted = m.nvm)
    (ht : m.HeadsOutlive mapping t) (l : LbaType) (i : Fin 512) :
    t.powerLoss.dataAt l i = if (i : ℕ) < 64 then t.dataAt l i else m.dataAt l i := by
  have hlost : t.powerLoss.Placed mapping := ht.placed.of_eq rfl
  cases hb : m.blockOf l with
  | some id =>
    have hbt : t.blockOf l = some id := ht.blockOf_eq ▸ hb
    have hlostAt : t.powerLoss.dataAt l i = t.persisted.bytes (m.blockStart mapping id) i := by
      rw [hlost.dataAt_mapped hbt, show t.powerLoss.blockStart mapping id = t.blockStart mapping id
        from rfl, ht.blockStart_eq]
      rfl
    rw [hlostAt]
    split_ifs with hi
    · rw [ht.head l id hb i hi, ht.placed.dataAt_mapped hbt, ht.blockStart_eq]
      rfl
    · rw [ht.tail l id hb i i.isLt (Nat.le_of_not_lt hi), hclean, h.dataAt_mapped hb]
      rfl
  | none =>
    have hbt : t.blockOf l = none := ht.blockOf_eq ▸ hb
    rw [dataAt_unmapped (m := t.powerLoss) hbt, dataAt_unmapped hbt, dataAt_unmapped hb,
      show t.powerLoss.lowerBdev = t.lowerBdev from rfl, ht.lowerBdev_eq, ite_self]

end HeadsOutlive
end Machine

/-- After any run of requests, whatever fails in it, a power loss takes nothing away exactly when no
sector has come to differ behind its first 64 bytes from what it was when the machine came up. -/
theorem run_outlives_power_iff {m : Machine} {mapping : NvmMapping} (h : m.Placed mapping)
    (halign : mapping.nvmVirtStartAddr.toNat % 64 = 0) (hclean : m.persisted = m.nvm)
    (evs : List IoEvent) :
    (run IoEvent.exec m evs).powerLoss.dataAt = (run IoEvent.exec m evs).dataAt ↔
      ∀ l, ∀ i : Fin 512, 64 ≤ (i : ℕ) → (run IoEvent.exec m evs).dataAt l i = m.dataAt l i := by
  have himage := Machine.HeadsOutlive.dataAt_powerLoss h hclean
    (Machine.HeadsOutlive.run h halign hclean evs)
  constructor
  · intro hsame l i hi
    rw [← hsame, himage, if_neg (Nat.not_lt.mpr hi)]
  · intro htail
    funext l i
    rw [himage]
    split_ifs with hi
    · rfl
    · exact (htail l i (Nat.le_of_not_lt hi)).symm

/-- The machine with one cached block as it comes up. -/
def justUp : Machine := { oneCached with persisted := oneCached.nvm }

/-- The write of zeros over a block of ones is torn by a power loss. -/
theorem run_outlives_power_iff_justUp :
    (run IoEvent.exec justUp [oneSector .cacheWrite 5]).powerLoss.dataAt ≠
      (run IoEvent.exec justUp [oneSector .cacheWrite 5]).dataAt := by
  have hiff := run_outlives_power_iff (m := justUp) (oneCached_placed.of_eq rfl) (by decide) rfl
    [oneSector .cacheWrite 5]
  rw [Ne, hiff]
  intro htail
  exact absurd (htail 5 100 (by decide)) (by decide)

end NvmBlkCache
