import NvmBlkCache.IoRun

/-!
# The cache as a flat device

What a block device cache is for: requests are answered as by one flat array of sectors. The read
path does so. The write path has no way to bring a sector into the cache, so a run is answered like
that as long as it writes nothing.
-/
namespace NvmBlkCache
open FaultProgram ByteMemory NvmCacheBlkPool

def flatStep (dev : LbaType → Sector) (ev : IoEvent) : LbaType → Sector :=
  match ev.req.dir with
  | .cacheRead => dev
  | .cacheWrite => fun l =>
    let k := (l - ev.req.lba).toNat
    if k < ev.req.lbaNum.toNat then sectorOf ev.dram (ev.req.target k) else dev l

/-- Every request returns 0, and every sector that it reads is the flat device's. -/
def Transparent : (LbaType → Sector) → Machine → List IoEvent → Prop
  | _, _, [] => True
  | dev, m, ev :: evs => ∃ m', nvmCacheHandleIo ev.req (m.arrive ev) = .ok 0 m' ∧
    (ev.req.dir = .cacheRead → ∀ k < ev.req.lbaNum.toNat,
      sectorOf m'.dram (ev.req.target k) = dev (ev.req.sector k)) ∧
    Transparent (flatStep dev ev) m' evs

/-- Allocations and the lower device work, and the buffer ends within the address space. -/
structure Healthy (ev : IoEvent) : Prop where
  kmalloc : ∀ k, ev.outcomes.kmalloc.get k ≠ 0
  bio : ∀ k, ev.outcomes.bio.get k = .submitted 0
  buffer : ev.req.buffer.toNat + ev.req.lbaNum.toNat * 512 ≤ 2 ^ 64

def WritesNothing (ev : IoEvent) : Prop := ev.req.dir = .cacheRead ∨ ev.req.lbaNum = 0

namespace Machine
variable {m : Machine} {ev : IoEvent}

/-- A cache none of whose blocks is in use. -/
structure AllEmpty (m : Machine) : Prop extends m.Ready where
  usedIds_eq : m.cache.blkPool.usedIds = []

theorem AllEmpty.blockOf_eq (h : m.AllEmpty) (l : LbaType) : m.blockOf l = none :=
  h.wf.blockOf_eq_none h.usedIds_eq l

theorem AllEmpty.read (h : m.AllEmpty) (hev : Healthy ev) (hdir : ev.req.dir = .cacheRead) :
    ∃ t, nvmCacheHandleIo ev.req (m.arrive ev) = .ok 0 t ∧
      (∀ k < ev.req.lbaNum.toNat,
        sectorOf t.dram (ev.req.target k) = m.lowerBdev (ev.req.sector k)) ∧
      t.cache = m.cache ∧ t.lowerBdev = m.lowerBdev := by
  have hnone : ∀ l, (m.arrive ev).blockOf l = none := h.blockOf_eq
  obtain ⟨t, he, hp⟩ := readIo_returns (m := m.arrive ev) h.wf h.mapper hdir
    (fun j _ hj => hev.kmalloc _ hj.2)
  refine ⟨t, he, fun k hk => ?_, hp.cache_eq, by rw [hp.frame]; rfl⟩
  have hfit : ev.req.lbaNum.toNat * 512 ≤ 2 ^ 64 := (Nat.le_add_left _ _).trans hev.buffer
  have hdel : (m.arrive ev).Delivers ev.req k := by
    rw [Delivers, hnone]
    exact hev.bio _
  rw [hp.delivered hfit k hk hdel, dataAt, hnone]
  rfl

/-- A request that writes nothing is answered as by the flat device, and leaves the cache alone. -/
theorem AllEmpty.answers (h : m.AllEmpty) (hev : Healthy ev) (hnothing : WritesNothing ev) :
    ∃ t, nvmCacheHandleIo ev.req (m.arrive ev) = .ok 0 t ∧
      (ev.req.dir = .cacheRead → ∀ k < ev.req.lbaNum.toNat,
        sectorOf t.dram (ev.req.target k) = m.lowerBdev (ev.req.sector k)) ∧
      t.cache = m.cache ∧ t.lowerBdev = m.lowerBdev := by
  cases hdir : ev.req.dir with
  | cacheRead =>
    obtain ⟨t, he, hdata, hcache, hlower⟩ := h.read hev hdir
    exact ⟨t, he, fun _ => hdata, hcache, hlower⟩
  | cacheWrite =>
    have hnum : ev.req.lbaNum = 0 := by
      rcases hnothing with hr | hnum
      · rw [hdir] at hr
        cases hr
      · exact hnum
    obtain ⟨t, he, hp⟩ := writeIo_returns (m := m.arrive ev) h.wf h.mapper hdir
      (fun j hj => by simp [hnum] at hj)
    refine ⟨t, he, fun hread => ?_, hp.cache_eq, by rw [hp.frame]; rfl⟩
    cases hread

theorem AllEmpty.write (h : m.AllEmpty) (hwrites : ¬ WritesNothing ev) (ret : Int32)
    (t : Machine) : nvmCacheHandleIo ev.req (m.arrive ev) ≠ .ok ret t := by
  have hdir : ev.req.dir = .cacheWrite := by
    cases hd : ev.req.dir with
    | cacheRead => exact absurd (Or.inl hd) hwrites
    | cacheWrite => rfl
  have hpos : 0 < ev.req.lbaNum.toNat :=
    Nat.pos_of_ne_zero fun h0 => hwrites (Or.inr (UInt64.toNat_inj.mp h0))
  intro hok
  exact (h.write_returns_iff hdir).mp ⟨ret, t, hok⟩ ⟨0, hpos, h.blockOf_eq _⟩

theorem AllEmpty.of_eq {t : Machine} (h : m.AllEmpty) (hcache : t.cache = m.cache) :
    t.AllEmpty :=
  ⟨⟨by rw [hcache]; exact h.wf, by rw [hcache]; exact h.mapper⟩,
    by rw [hcache]; exact h.usedIds_eq⟩

end Machine

theorem flatStep_writesNothing {ev : IoEvent} (h : WritesNothing ev) (dev : LbaType → Sector) :
    flatStep dev ev = dev := by
  unfold flatStep
  rcases h with hdir | hnum
  · rw [hdir]
  · cases ev.req.dir with
    | cacheRead => rfl
    | cacheWrite =>
      funext l
      simp [hnum]

/-- From a cache whose blocks are all empty a run is answered as by a flat device exactly when it
writes nothing. -/
theorem transparent_iff {evs : List IoEvent} :
    ∀ {m : Machine}, m.AllEmpty → (∀ ev ∈ evs, Healthy ev) →
      (Transparent m.lowerBdev m evs ↔ ∀ ev ∈ evs, WritesNothing ev) := by
  induction evs with
  | nil => simp [Transparent]
  | cons ev evs ih =>
    intro m h hev
    rw [List.forall_mem_cons] at hev
    rw [List.forall_mem_cons, Transparent]
    constructor
    · rintro ⟨m', he, -, hcont⟩
      have hnothing : WritesNothing ev := by
        by_contra hwrites
        exact h.write hwrites 0 m' he
      obtain ⟨t, ht, -, hcache, hlower⟩ := h.answers hev.1 hnothing
      obtain rfl : t = m' := by
        rw [ht] at he
        exact (EStateM.Result.ok.inj he).2
      rw [flatStep_writesNothing hnothing, ← hlower] at hcont
      exact ⟨hnothing, (ih (h.of_eq hcache) hev.2).mp hcont⟩
    · rintro ⟨hnothing, hall⟩
      obtain ⟨t, ht, hdata, hcache, hlower⟩ := h.answers hev.1 hnothing
      refine ⟨t, ht, hdata, ?_⟩
      rw [flatStep_writesNothing hnothing, ← hlower]
      exact (ih (h.of_eq hcache) hev.2).mpr hall

theorem oneBlock_allEmpty : oneBlock.AllEmpty := ⟨oneBlock_ready, by decide⟩

theorem oneSector_healthy (dir : NvmCacheIoDir) (lba : LbaType) : Healthy (oneSector dir lba) where
  kmalloc := fun _ => by
    change (0x10000 : UInt64) ≠ 0
    decide
  bio := fun _ => rfl
  buffer := by
    change (0x3000 : UInt64).toNat + (1 : UInt64).toNat * 512 ≤ 2 ^ 64
    simp

/-- The first write to a cache with one block, which is empty, does not return. -/
theorem first_write_not_transparent :
    oneBlock.AllEmpty ∧ Healthy (oneSector .cacheWrite 5) ∧
      HoldsEachOnce 1 oneBlock.cache.blkPool ∧
      ¬ Transparent oneBlock.lowerBdev oneBlock [oneSector .cacheWrite 5] := by
  refine ⟨oneBlock_allEmpty, oneSector_healthy _ _, by decide, ?_⟩
  rintro ⟨m', he, -⟩
  have hnone : returned (nvmCacheHandleIo (oneSector .cacheWrite 5).req
      (oneBlock.arrive (oneSector .cacheWrite 5))) = none := by decide
  rw [he] at hnone
  cases hnone

theorem transparent_iff_oneBlock :
    Transparent oneBlock.lowerBdev oneBlock [oneSector .cacheRead 5, oneSector .cacheRead 7] := by
  apply (transparent_iff (m := oneBlock) oneBlock_allEmpty ?_).mpr
  · simp [WritesNothing, oneSector]
  · simp [oneSector_healthy]

end NvmBlkCache
