import NvmBlkCache.IoData
import NvmBlkCache.Transparency

/-!
# A cache in use as a flat device

From whatever blocks are in use, the flat device starts with what the cache holds for each LBA: its
NVM block, or else the sector of the lower device. Reads leave it as it is, and writes whose sectors the
pool knows change it as they should.
-/
namespace NvmBlkCache
open FaultProgram ByteMemory LabelledRun NvmCacheBlkPool

theorem Healthy.bufferFits {ev : IoEvent} (h : Healthy ev) (hb : ev.req.buffer ≠ 0) :
    ev.req.BufferFits where
  fits := (Nat.le_add_left _ _).trans h.buffer
  nonNull := by
    intro k hk
    have hbuffer := h.buffer
    have hoff : (UInt64.ofNat k * cacheBlockSize).toNat = k * 512 := by
      rw [UInt64.toNat_mul, UInt64.toNat_ofNat', show cacheBlockSize.toNat = 512 from rfl]
      omega
    exact add_ne_zero hb hbuffer (by omega)

/-- The sector that an LBA is in a request, if it is one of its sectors. -/
theorem sector_eq_iff {req : NvmCacheIoReq} {k : ℕ} (hk : k < 2 ^ 64) {l : LbaType} :
    l = req.sector k ↔ (l - req.lba).toNat = k := by
  unfold NvmCacheIoReq.sector
  have hof : (UInt64.ofNat k).toNat = k := by
    rw [UInt64.toNat_ofNat', Nat.mod_eq_of_lt hk]
  constructor
  · rintro rfl
    rw [show req.lba + UInt64.ofNat k - req.lba = UInt64.ofNat k by grind, hof]
  · intro h
    have hsub : l - req.lba = UInt64.ofNat k := UInt64.toNat_inj.mp (h.trans hof.symm)
    grind

theorem flatStep_covered {ev : IoEvent} (hdir : ev.req.dir = .cacheWrite) {k : ℕ}
    (hk : k < ev.req.lbaNum.toNat) (dev : LbaType → Sector) :
    flatStep dev ev (ev.req.sector k) = sectorOf ev.dram (ev.req.target k) := by
  have hidx := (sector_eq_iff (hk.trans ev.req.lbaNum.toNat_lt)).mp (rfl : ev.req.sector k = _)
  unfold flatStep
  rw [hdir]
  simp only [hidx, if_pos hk]

theorem flatStep_outside {ev : IoEvent} {l : LbaType}
    (h : ∀ k < ev.req.lbaNum.toNat, l ≠ ev.req.sector k) (dev : LbaType → Sector) :
    flatStep dev ev l = dev l := by
  unfold flatStep
  cases ev.req.dir with
  | cacheRead => rfl
  | cacheWrite =>
    apply if_neg
    intro hk
    exact h _ hk ((sector_eq_iff (hk.trans ev.req.lbaNum.toNat_lt)).mpr rfl)

theorem flatStep_read {ev : IoEvent} (hdir : ev.req.dir = .cacheRead) (dev : LbaType → Sector) :
    flatStep dev ev = dev := by
  unfold flatStep
  rw [hdir]

namespace Machine
variable {m t : Machine} {mapping : NvmMapping} {ev : IoEvent}

theorem Placed.of_eq (h : m.Placed mapping) (hcache : t.cache = m.cache) : t.Placed mapping := by
  have helements : t.elements = m.elements := by rw [elements, hcache, elements]
  have hblockOf : t.blockOf = m.blockOf := by
    funext l
    rw [blockOf, hcache, blockOf]
  refine ⟨h.toOver.of_eq hcache, ?_, ?_, ?_, ?_⟩
  · rw [helements]
    exact h.fits
  · rw [hblockOf, helements]
    exact h.id_lt
  · rw [hblockOf]
    exact h.distinct
  · unfold blockStart
    rw [hblockOf, helements]
    exact h.nonNull

theorem Placed.dataAt_mapped (h : m.Placed mapping) {l : LbaType} {id : NvmCacheBlkId}
    (hb : m.blockOf l = some id) : m.dataAt l = sectorOf m.nvm (m.blockStart mapping id) := by
  rw [dataAt, hb, ← h.blockVaddr_eq]

theorem dataAt_unmapped {l : LbaType} (hb : m.blockOf l = none) : m.dataAt l = m.lowerBdev l := by
  rw [dataAt, hb]

theorem dataAt_congr (hcache : t.cache = m.cache) (hnvm : t.nvm = m.nvm)
    (hlower : t.lowerBdev = m.lowerBdev) : t.dataAt = m.dataAt := by
  funext l
  simp only [dataAt, blockOf, blockVaddr, elements, hcache, hnvm, hlower]

/-- `t` is what a request leaves that a flat device would answer alike: a read has delivered the
device's sectors to its buffer, a write has changed what the cache holds as it changes the device. -/
structure Answered (m : Machine) (ev : IoEvent) (t : Machine) : Prop where
  delivered : ev.req.dir = .cacheRead → ∀ k < ev.req.lbaNum.toNat,
    sectorOf t.dram (ev.req.target k) = m.dataAt (ev.req.sector k)
  dram_outside : ∀ a, (ev.req.dir = .cacheRead →
    ¬ InWindow ev.req.buffer (ev.req.lbaNum.toNat * 512) a) → t.dram a = ev.dram a
  cache_eq : t.cache = m.cache
  lowerBdev_eq : t.lowerBdev = m.lowerBdev
  dataAt_eq : t.dataAt = flatStep m.dataAt ev
  kmalloc : ∀ k, t.outcomes.kmalloc.get k ≠ 0
  bio : ∀ k, t.outcomes.bio.get k = .submitted 0

theorem Placed.answers_read (h : m.Placed mapping) (hev : Healthy ev) (hb : ev.req.buffer ≠ 0)
    (hdir : ev.req.dir = .cacheRead) :
    ∃ t, nvmCacheHandleIo ev.req (m.arrive ev) = .ok 0 t ∧ m.Answered ev t := by
  have hover : (m.arrive ev).Placed mapping := h.of_eq rfl
  have hbuffer := hev.bufferFits hb
  obtain ⟨t, he, hp, hframed⟩ := readIo_dram hover.toReady hdir (fun _ _ hno => hev.kmalloc _ hno.2)
  have hframe := hp.frame
  refine ⟨t, he, fun _ k hk => ?_, fun a ha => ?_, hp.cache_eq, ?_, ?_, fun k => ?_, fun k => ?_⟩
  · have hdel : (m.arrive ev).Delivers ev.req k := by
      unfold Delivers
      cases hid : (m.arrive ev).blockOf (ev.req.sector k) with
      | some id =>
        exact ⟨hbuffer.nonNull k hk, hover.blockVaddr_eq id ▸ hover.nonNull _ id hid⟩
      | none => exact hev.bio _
    exact hp.delivered hbuffer.fits k hk hdel
  · exact hframed a fun j hj _ hin => ha hdir (target_inWindow hj hbuffer.fits hin)
  · rw [hframe]
    rfl
  · rw [flatStep_read hdir]
    apply dataAt_congr hp.cache_eq
    · rw [hframe]
    · rw [hframe]
  · rw [hp.kmalloc, Stream'.get_drop]
    exact hev.kmalloc _
  · rw [hp.bio, Stream'.get_drop]
    exact hev.bio _

/-- What the cache holds after a write whose sectors it knows. -/
theorem Placed.dataAt_write (h : m.Placed mapping) (hdir : ev.req.dir = .cacheWrite)
    (hhit : ¬ m.HasMiss ev.req) (hp : WriteProgress (m.arrive ev) ev.req ev.req.lbaNum.toNat t)
    (hw : Written (m.arrive ev) mapping ev.req ev.req.lbaNum.toNat t) :
    t.dataAt = flatStep m.dataAt ev := by
  have hplaced : (m.arrive ev).Placed mapping := h.of_eq rfl
  have hcache : t.cache = m.cache := hp.cache_eq
  have ht : t.Placed mapping := h.of_eq hcache
  have hblockOf : t.blockOf = m.blockOf := hp.blockOf_eq
  have hstart : t.blockStart mapping = m.blockStart mapping := by
    rw [hp.frame]
    rfl
  funext l
  cases hid : m.blockOf l with
  | some id =>
    obtain ⟨hin, hout⟩ := hp.block hplaced hw (l := l) hid
    rw [ht.dataAt_mapped (hblockOf ▸ hid), hstart]
    by_cases hcov : ∃ k < ev.req.lbaNum.toNat, l = ev.req.sector k
    · obtain ⟨k, hk, rfl⟩ := hcov
      rw [flatStep_covered hdir hk]
      exact hin k hk rfl
    · have hcov' : ∀ k < ev.req.lbaNum.toNat, l ≠ ev.req.sector k :=
        fun k hk hl => hcov ⟨k, hk, hl⟩
      rw [flatStep_outside hcov', h.dataAt_mapped hid]
      exact hout hcov'
  | none =>
    have hcov : ∀ k < ev.req.lbaNum.toNat, l ≠ ev.req.sector k := by
      intro k hk hl
      exact hhit ⟨k, hk, hl ▸ hid⟩
    rw [dataAt_unmapped (hblockOf ▸ hid), flatStep_outside hcov, dataAt_unmapped hid, hp.frame]
    rfl

theorem Placed.answers_write (h : m.Placed mapping) (hev : Healthy ev) (hb : ev.req.buffer ≠ 0)
    (hdir : ev.req.dir = .cacheWrite) (hhit : ¬ m.HasMiss ev.req) :
    ∃ t, nvmCacheHandleIo ev.req (m.arrive ev) = .ok 0 t ∧ m.Answered ev t := by
  have hplaced : (m.arrive ev).Placed mapping := h.of_eq rfl
  have hknown : ∀ k < ev.req.lbaNum.toNat, (m.arrive ev).blockOf (ev.req.sector k) ≠ none :=
    fun k hk hnone => hhit ⟨k, hk, hnone⟩
  obtain ⟨t, he, hp, hw⟩ := writeIo_written hplaced (hev.bufferFits hb).nonNull hknown
  have hframe := hp.frame
  refine ⟨t, ?_, fun hread => ?_, fun a _ => ?_, hp.cache_eq, ?_, h.dataAt_write hdir hhit hp hw,
    fun k => ?_, fun k => ?_⟩
  · rw [nvmCacheHandleIo, hdir]
    exact he
  · rw [hdir] at hread
    cases hread
  · rw [hframe]
    rfl
  · rw [hframe]
    rfl
  · rw [hframe]
    exact hev.kmalloc k
  · rw [hframe]
    exact hev.bio k

/-- Every request is answered as by the flat device, but for writes with a sector that the pool does
not know. -/
theorem Placed.answers (h : m.Placed mapping) (hev : Healthy ev) (hb : ev.req.buffer ≠ 0)
    (hhit : ev.req.dir = .cacheWrite → ¬ m.HasMiss ev.req) :
    ∃ t, nvmCacheHandleIo ev.req (m.arrive ev) = .ok 0 t ∧ m.Answered ev t := by
  cases hdir : ev.req.dir with
  | cacheRead => exact h.answers_read hev hb hdir
  | cacheWrite => exact h.answers_write hev hb hdir (hhit hdir)

theorem Answered.hasMiss_iff (ha : m.Answered ev t) (req : NvmCacheIoReq) :
    t.HasMiss req ↔ m.HasMiss req := by
  unfold HasMiss blockOf
  rw [ha.cache_eq]

/-- A write with a sector that the pool does not know does not return. -/
theorem Placed.hit_of_returns (h : m.Placed mapping) {ret : Int32}
    (hrun : nvmCacheHandleIo ev.req (m.arrive ev) = .ok ret t) (hdir : ev.req.dir = .cacheWrite) :
    ¬ m.HasMiss ev.req := (h.toReady.write_returns_iff hdir).mp ⟨ret, t, hrun⟩

end Machine

/-- A run on any cache is answered as by the flat device of what the cache holds at the start exactly
when every sector that is written has its block already. -/
theorem cache_refines_flat_iff {mapping : NvmMapping} {evs : List IoEvent} :
    ∀ {m : Machine}, m.Placed mapping → (∀ ev ∈ evs, Healthy ev ∧ ev.req.buffer ≠ 0) →
      (Transparent m.dataAt m evs ↔
        ∀ ev ∈ evs, ev.req.dir = .cacheWrite → ¬ m.HasMiss ev.req) := by
  induction evs with
  | nil => simp [Transparent]
  | cons ev evs ih =>
    intro m h hev
    rw [List.forall_mem_cons] at hev
    rw [List.forall_mem_cons, Transparent]
    constructor
    · rintro ⟨m', he, -, hcont⟩
      have hhit := fun hdir => h.hit_of_returns he hdir
      obtain ⟨t, ht, hans⟩ := h.answers hev.1.1 hev.1.2 hhit
      obtain rfl : t = m' := by
        rw [ht] at he
        exact (EStateM.Result.ok.inj he).2
      rw [← hans.dataAt_eq] at hcont
      have hrest := (ih (h.of_eq hans.cache_eq) hev.2).mp hcont
      simp only [hans.hasMiss_iff] at hrest
      exact ⟨hhit, hrest⟩
    · rintro ⟨hhit, hall⟩
      obtain ⟨t, ht, hans⟩ := h.answers hev.1.1 hev.1.2 hhit
      refine ⟨t, ht, hans.delivered, ?_⟩
      rw [← hans.dataAt_eq]
      apply (ih (h.of_eq hans.cache_eq) hev.2).mpr
      simp only [hans.hasMiss_iff]
      exact hall

theorem oneSector_buffer (dir : NvmCacheIoDir) (lba : LbaType) :
    (oneSector dir lba).req.buffer ≠ 0 := by
  change (0x3000 : UInt64) ≠ 0
  decide

theorem oneCached_knows : ¬ oneCached.HasMiss (oneSector .cacheWrite 5).req := by
  unfold Machine.HasMiss
  decide

/-- Writing the cached sector, and reading it back beside one that is not cached. -/
theorem cache_refines_flat_iff_oneCached :
    Transparent oneCached.dataAt oneCached
      [oneSector .cacheWrite 5, oneSector .cacheRead 5, oneSector .cacheRead 7] := by
  apply (cache_refines_flat_iff oneCached_placed ?_).mpr
  · simp only [List.forall_mem_cons]
    exact ⟨fun _ => oneCached_knows, nofun, nofun, by simp⟩
  · simp [oneSector_healthy, oneSector_buffer]

end NvmBlkCache
