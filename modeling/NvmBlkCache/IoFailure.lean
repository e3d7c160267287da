import NvmBlkCache.IoRemount

/-!
# Failing requests

What a write that goes wrong leaves of the other sectors and of the pool: the sectors read back as
before, and the block that it took out of the queue is gone.
-/
namespace NvmBlkCache
open FaultProgram ByteMemory LabelledRun NvmCacheBlkPool

namespace Machine

/-- The cache with DRAM cleared, when nothing is going to fail. -/
def idle (m : Machine) : Machine := { m with dram := fun _ => 0, outcomes := Outcomes.healthy }

def readOne (l : LbaType) (buffer : Addr) : NvmCacheIoReq := ⟨l, 1, buffer, .cacheRead⟩

def readBack (m : Machine) (buffer : Addr) (l : LbaType) : Option Sector :=
  match nvmCacheHandleIo (readOne l buffer) m.idle with
  | .ok _ t => some (sectorOf t.dram buffer)
  | .error _ _ => none

variable {m m' : Machine} {buffer : Addr} {l : LbaType} {id : NvmCacheBlkId}

theorem sector_readOne : (readOne l buffer).sector 0 = l := UInt64.add_zero l

theorem target_readOne : (readOne l buffer).target 0 = buffer := by
  change buffer + UInt64.ofNat 0 * cacheBlockSize = buffer
  simp

theorem readBack_delivers (h : m.Ready) (hdel : m.idle.Delivers (readOne l buffer) 0) :
    m.readBack buffer l = some (m.dataAt l) := by
  have hmem : ∀ j < (readOne l buffer).lbaNum.toNat, ¬ m.idle.NoMemory (readOne l buffer) j :=
    fun j _ hj => absurd hj.2 (by change (0x10000 : UInt64) ≠ 0; decide)
  obtain ⟨t, he, hp⟩ := readIo_returns (m := m.idle) h.wf h.mapper rfl hmem
  have hnum : (readOne l buffer).lbaNum.toNat = 1 := rfl
  have hdata := hp.delivered (by rw [hnum]; decide) 0 (by rw [hnum]; decide) hdel
  rw [sector_readOne, target_readOne] at hdata
  unfold readBack
  rw [he]
  exact congrArg some hdata

/-- A refused access is not reported: the buffer stays as it is. -/
theorem readBack_refused (h : m.Ready) (hb : m.blockOf l = some id)
    (hc : ¬ Copies buffer (m.blockVaddr id)) : m.readBack buffer l = some fun _ => 0 := by
  have hround := readSector_hit (m := m.idle) (readOne l buffer) h.wf h.mapper
    (show m.blockOf (l + 0) = some id by rwa [UInt64.add_zero])
  have hrefused : m.idle.readBlock (buffer + 0 * cacheBlockSize) id = m.idle := by
    unfold readBlock
    rw [UInt64.zero_mul, UInt64.add_zero]
    exact if_neg hc
  have hloop : countUp (readSector (readOne l buffer)) 0 1 m.idle = .ok none m.idle := by
    rw [countUp_next hround, countUp_zero]
    exact congrArg _ hrefused
  have hread : nvmCacheHandleIo (readOne l buffer) m.idle = .ok 0 m.idle := bind_ok hloop
  unfold readBack
  rw [hread]
  rfl

/-- A sector reads back the same from two caches that agree on where it is and what is there. -/
theorem readBack_congr (h : m.Ready) (h' : m'.Ready) (hb : m'.blockOf l = m.blockOf l)
    (hv : m'.blockVaddr = m.blockVaddr) (hlower : m'.lowerBdev = m.lowerBdev)
    (hnvm : ∀ id, m.blockOf l = some id → m.blockVaddr id ≠ 0 →
      sectorOf m'.nvm (m.blockVaddr id) = sectorOf m.nvm (m.blockVaddr id)) :
    m'.readBack buffer l = m.readBack buffer l := by
  cases hbl : m.blockOf l with
  | none =>
    have hdel : ∀ {t : Machine}, t.blockOf l = none →
        t.idle.Delivers (readOne l buffer) 0 ∧ t.dataAt l = t.lowerBdev l := by
      intro t ht
      refine ⟨?_, by rw [dataAt, ht]⟩
      rw [Delivers, sector_readOne, show t.idle.blockOf l = none from ht]
      rfl
    obtain ⟨hd, hdata⟩ := hdel hbl
    obtain ⟨hd', hdata'⟩ := hdel (hb.trans hbl)
    rw [readBack_delivers h hd, readBack_delivers h' hd', hdata, hdata', hlower]
  | some id =>
    by_cases hc : Copies buffer (m.blockVaddr id)
    · have hdel : ∀ {t : Machine}, t.blockOf l = some id → t.blockVaddr = m.blockVaddr →
          t.idle.Delivers (readOne l buffer) 0 ∧ t.dataAt l = sectorOf t.nvm (m.blockVaddr id) := by
        intro t ht htv
        refine ⟨?_, by rw [dataAt, ht, htv]⟩
        rw [Delivers, sector_readOne, show t.idle.blockOf l = some id from ht, target_readOne,
          show t.idle.blockVaddr = m.blockVaddr from htv]
        exact hc
      obtain ⟨hd, hdata⟩ := hdel hbl rfl
      obtain ⟨hd', hdata'⟩ := hdel (hb.trans hbl) hv
      rw [readBack_delivers h hd, readBack_delivers h' hd', hdata, hdata', hnvm id hbl hc.2]
    · rw [readBack_refused h hbl hc, readBack_refused h' (hb.trans hbl) (by rwa [hv])]

end Machine

namespace Executed
variable {m m' : Machine} {ev : IoEvent}

theorem blockVaddr_eq (he : Executed m ev m') : m'.blockVaddr = m.blockVaddr := by
  unfold Machine.blockVaddr
  rw [he.accessor_eq, he.elements_eq]

theorem readBack_eq (he : Executed m ev m') (h : m.Sound) {l : LbaType}
    (hl : ∀ k < ev.req.lbaNum.toNat, ev.req.sector k ≠ l) (buffer : Addr) :
    m'.readBack buffer l = m.readBack buffer l := by
  have hready : m'.Ready := ⟨he.wf, by rw [he.mapper_eq]; exact h.mapper⟩
  apply Machine.readBack_congr h.toReady hready (congrFun he.blockOf_eq l) he.blockVaddr_eq
    he.lowerBdev_eq
  intro id hb hv
  funext j
  apply he.untouched
  intro k hk other hother hvo
  have hne : id ≠ other := by
    rintro rfl
    exact hl k hk (h.wf.blockOf_injective (List.nodup_append.mp h.ids_nodup).2.1 hother hb)
  rw [h.blockVaddr_eq hv, h.blockVaddr_eq hvo]
  exact blocks_apart h.fits (h.used_lt hb) (h.used_lt hother) hne _ _ (inWindow_add j.isLt)

end Executed

namespace Machine
variable {m : Machine} {ev : IoEvent}

/-- However the request ends: every sector outside it reads back as before, and every block that the
pool held it still holds. -/
structure LosesNothing (m : Machine) (ev : IoEvent) : Prop where
  others : ∀ l, (∀ k < ev.req.lbaNum.toNat, ev.req.sector k ≠ l) → ∀ buffer,
    (ev.exec m).readBack buffer l = m.readBack buffer l
  held : ∀ id ∈ m.cache.blkPool.emptyIds ++ m.cache.blkPool.usedIds,
    id ∈ (ev.exec m).cache.blkPool.emptyIds ++ (ev.exec m).cache.blkPool.usedIds

theorem Sound.losesNothing_iff (h : m.Sound) : m.LosesNothing ev ↔ ¬ m.TakesBlock ev := by
  have he := h.executed ev
  constructor
  · intro hnothing htakes
    obtain ⟨v, vs, hq⟩ := List.exists_cons_of_ne_nil htakes.2.2
    have hnodup := h.ids_nodup
    have hheld := hnothing.held v (by simp [hq])
    rw [he.emptyIds_lost htakes, he.usedIds_eq, hq, List.tail_cons] at hheld
    rw [hq, List.cons_append] at hnodup
    exact (List.nodup_cons.mp hnodup).1 hheld
  · intro hkeeps
    refine ⟨fun l hl buffer => he.readBack_eq h hl buffer, fun id hid => ?_⟩
    rwa [he.emptyIds_kept hkeeps, he.usedIds_eq]

end Machine

/-- After any run: a write loses nothing of the others exactly when the pool knows all of its sectors
or has no empty block left, and only in the first case does it return. So it returns with nothing lost
exactly when the pool knows all of its sectors. -/
theorem write_loses_nothing_iff {m₀ : Machine} (h : m₀.Sound) (evs : List IoEvent) (ev : IoEvent)
    (hdir : ev.req.dir = .cacheWrite) :
    let m := run IoEvent.exec m₀ evs
    (m.LosesNothing ev ↔
      (∀ k < ev.req.lbaNum.toNat, m.blockOf (ev.req.sector k) ≠ none) ∨
        m.cache.blkPool.emptyIds = []) ∧
    ((∃ ret t, nvmCacheHandleIo ev.req (m.arrive ev) = .ok ret t) ↔
      ∀ k < ev.req.lbaNum.toNat, m.blockOf (ev.req.sector k) ≠ none) ∧
    ((∃ ret t, nvmCacheHandleIo ev.req (m.arrive ev) = .ok ret t) ∧ m.LosesNothing ev ↔
      ∀ k < ev.req.lbaNum.toNat, m.blockOf (ev.req.sector k) ≠ none) := by
  intro m
  have hm : m.Sound := run_invariant Machine.Sound (fun _ ev ht _ => ht.exec ev) h
    (along_of_forall fun _ _ => trivial : Along IoEvent.exec (fun _ _ => True) m₀ evs)
  have hknown : (∀ k < ev.req.lbaNum.toNat, m.blockOf (ev.req.sector k) ≠ none) ↔
      ¬ m.HasMiss ev.req := by
    simp [Machine.HasMiss]
  rw [hm.losesNothing_iff, hm.write_returns_iff hdir, hknown]
  refine ⟨?_, Iff.rfl, and_iff_left_of_imp fun hmiss htakes => hmiss htakes.2.1⟩
  constructor
  · intro hkeeps
    by_cases hq : m.cache.blkPool.emptyIds = []
    · exact Or.inr hq
    · exact Or.inl fun hmiss => hkeeps ⟨hdir, hmiss, hq⟩
  · rintro (hmiss | hq) htakes
    · exact hmiss htakes.2.1
    · exact htakes.2.2 hq

/-- The block that the write takes out of the queue is held nowhere when the write has stopped. -/
theorem first_write_loses_held_block :
    oneBlock.Sound ∧ 0 ∈ oneBlock.cache.blkPool.emptyIds ∧
      returned (nvmCacheHandleIo (oneSector .cacheWrite 5).req
        (oneBlock.arrive (oneSector .cacheWrite 5))) = none ∧
      ¬ oneBlock.LosesNothing (oneSector .cacheWrite 5) := by
  refine ⟨oneBlock_sound, by decide, by decide, fun h => ?_⟩
  have hheld := h.held 0 (by decide)
  exact absurd hheld (by decide)

/-- With LBA 5 cached and block 2 queued: a write of LBA 5 returns and loses nothing, a write of LBA 9
loses the block. -/
theorem write_loses_nothing_iff_threeBlocks :
    let m := run IoEvent.exec threeBlocks [oneSector .cacheRead 9, oneSector .cacheWrite 6]
    ((∃ ret t, nvmCacheHandleIo (oneSector .cacheWrite 5).req (m.arrive (oneSector .cacheWrite 5)) =
        .ok ret t) ∧ m.LosesNothing (oneSector .cacheWrite 5)) ∧
      ¬ m.LosesNothing (oneSector .cacheWrite 9) := by
  intro m
  have hqueue : m.cache.blkPool.emptyIds ≠ [] := by decide
  have hcached : ∀ k < 1, m.blockOf ((oneSector .cacheWrite 5).req.sector k) ≠ none := by decide
  have hmiss : ¬ ∀ k < 1, m.blockOf ((oneSector .cacheWrite 9).req.sector k) ≠ none := by decide
  obtain ⟨-, -, hok⟩ := write_loses_nothing_iff threeBlocks_sound
    [oneSector .cacheRead 9, oneSector .cacheWrite 6] (oneSector .cacheWrite 5) rfl
  obtain ⟨hloses, -⟩ := write_loses_nothing_iff threeBlocks_sound
    [oneSector .cacheRead 9, oneSector .cacheWrite 6] (oneSector .cacheWrite 9) rfl
  exact ⟨hok.mpr hcached, fun h => (hloses.mp h).elim hmiss hqueue⟩

end NvmBlkCache
