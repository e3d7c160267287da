import NvmBlkCache.BlkPoolRefinement
import NvmBlkCache.IoRun

/-!
# The mapping array and the pool

What a restart can rebuild the pool from is the mapping array on NVM. A request never writes it, so it
agrees with the pool as long as the pool holds the blocks that it held.
-/
namespace NvmBlkCache
open FaultProgram ByteMemory LabelledRun NvmCacheBlkPool FifoMap

namespace Machine

def nvmBase (m : Machine) : Addr :=
  match m.cache.accessor with
  | some acc => acc.nvmAddrMapManager.nvmVirtStartAddr
  | none => 0

def slot (m : Machine) (i : NvmCacheBlkId) : LbaType := m.nvm.load64 (m.nvmBase + slotOffset i)

/-- A cache in working order: it has been set up for a device of some length, its accessor translates
as the repository does or refuses, and no block of it is in two places. -/
structure Sound (m : Machine) : Prop extends m.Ready where
  device : ∃ len : UInt64, len.toNat + 1024 < 2 ^ 64 ∧ m.elements = len / 520
  translates : ∀ acc, m.cache.accessor = some acc → ∀ p,
    acc.nvmAddrMapManager.phyAddrMapVirtAddrFunc acc.nvmAddrMapManager.toNvmMapping p = 0 ∨
    acc.nvmAddrMapManager.phyAddrMapVirtAddrFunc acc.nvmAddrMapManager.toNvmMapping p =
      phyAddrMapVirtAddr acc.nvmAddrMapManager.toNvmMapping p
  real_lbas : m.blockOf uint64Max = none
  ids_nodup : (m.cache.blkPool.emptyIds ++ m.cache.blkPool.usedIds).Nodup
  ids_lt : ∀ id ∈ m.cache.blkPool.emptyIds ++ m.cache.blkPool.usedIds, id < m.elements

variable {m m' : Machine} {ev : IoEvent}

theorem Sound.fits (h : m.Sound) : OffsetsFit m.elements := by
  obtain ⟨len, hlen, hn⟩ := h.device
  rw [hn]
  exact offsetsFit_of_length hlen

theorem Sound.used_lt (h : m.Sound) {l : LbaType} {id : NvmCacheBlkId}
    (hb : m.blockOf l = some id) : id < m.elements :=
  h.ids_lt id (List.mem_append_right _ (h.wf.mem_usedIds.mpr ⟨l, hb⟩))

/-- A block that the accessor does not refuse is at its offset from the virtual base. -/
theorem Sound.blockVaddr_eq (h : m.Sound) {id : NvmCacheBlkId} (hv : m.blockVaddr id ≠ 0) :
    m.blockVaddr id = m.nvmBase + blockOffset m.elements id := by
  unfold blockVaddr nvmBase at *
  cases ha : m.cache.accessor with
  | none => simp [ha, getVaddrByLba] at hv
  | some acc =>
    simp only [ha, getVaddrByLba, getVaddrByPaddr] at hv ⊢
    rw [(h.translates acc ha _).resolve_left hv, phyAddrMapVirtAddr_eq]
    unfold blockOffset
    grind

end Machine

namespace Executed
variable {m m' : Machine} {ev : IoEvent}

theorem elements_eq (he : Executed m ev m') : m'.elements = m.elements := by
  unfold Machine.elements
  rw [he.mapper_eq]

theorem nvmBase_eq (he : Executed m ev m') : m'.nvmBase = m.nvmBase := by
  unfold Machine.nvmBase
  rw [he.accessor_eq]

theorem emptyIds_sublist (he : Executed m ev m') :
    m'.cache.blkPool.emptyIds.Sublist m.cache.blkPool.emptyIds := by
  by_cases ht : m.TakesBlock ev
  · rw [he.emptyIds_lost ht]
    exact List.tail_sublist _
  · rw [he.emptyIds_kept ht]

theorem slot_eq (he : Executed m ev m') (h : m.Sound) {i : NvmCacheBlkId} (hi : i < m.elements) :
    m'.slot i = m.slot i := by
  unfold Machine.slot
  rw [he.nvmBase_eq]
  apply Mem.load64_congr
  intro j hj
  apply he.untouched
  intro k _ id hb hv
  rw [h.blockVaddr_eq hv]
  exact slot_block_apart h.fits hi (h.used_lt hb) _ _ (inWindow_add hj)

end Executed

namespace Machine
variable {m : Machine} {ev : IoEvent}

theorem Sound.exec (h : m.Sound) (ev : IoEvent) : (ev.exec m).Sound := by
  have he := h.executed ev
  have hsub := he.emptyIds_sublist.append_right m.cache.blkPool.usedIds
  refine ⟨h.toReady.exec ev, ?_, ?_, ?_, ?_, ?_⟩
  · rw [he.elements_eq]
    exact h.device
  · rw [he.accessor_eq]
    exact h.translates
  · rw [he.blockOf_eq]
    exact h.real_lbas
  · rw [he.usedIds_eq]
    exact h.ids_nodup.sublist hsub
  · rw [he.usedIds_eq, he.elements_eq]
    exact fun id hid => h.ids_lt id (hsub.subset hid)

/-- Slot for slot the mapping array says what the pool says. -/
def MapAgrees (m : Machine) : Prop := ∀ i < m.elements,
  (∀ l, l ≠ uint64Max → (m.slot i = l ↔ m.blockOf l = some i)) ∧
  (m.slot i = uint64Max ↔ i ∈ m.cache.blkPool.emptyIds)

def remountOps (m : Machine) (malloc : UInt64 → Addr) : List PoolOp :=
  rebuildOps malloc ((List.range m.elements.toNat).map fun i =>
    (m.slot (UInt64.ofNat i), UInt64.ofNat i))

/-- A pool rebuilt from the mapping array finds every sector that is cached now. -/
def RemountFinds (m : Machine) : Prop := ∀ (size : ℕ) (hs : 0 < size) (malloc : UInt64 → Addr),
  Along PoolOp.exec PoolOp.MallocSound (initNvmBlkPool size hs) (m.remountOps malloc) →
  ∀ l id, m.blockOf l = some id →
    (run PoolOp.exec (initNvmBlkPool size hs) (m.remountOps malloc)).blockOf l = some id

theorem Sound.remountFinds (h : m.Sound) (hg : m.MapAgrees) : m.RemountFinds := by
  intro size hs malloc hmalloc l id hb
  have htoNat : ∀ i < m.elements.toNat, (UInt64.ofNat i).toNat = i := fun i hi => by
    rw [UInt64.toNat_ofNat', Nat.mod_eq_of_lt (hi.trans m.elements.toNat_lt)]
  have hlt : ∀ i < m.elements.toNat, UInt64.ofNat i < m.elements := fun i hi => by
    rwa [UInt64.lt_iff_toNat_lt, htoNat i hi]
  have htracks := (initNvmBlkPool_realIds size hs).tracks_rebuild
    (initNvmBlkPool_tracks size hs) hmalloc ?_ ?_ ?_
  · have hne : l ≠ uint64Max := by
      rintro rfl
      rw [h.real_lbas] at hb
      cases hb
    have hslot := ((hg id (h.used_lt hb)).1 l hne).mpr hb
    refine (htracks.map_iff l id).mpr ⟨List.mem_append_right _ (List.mem_map.mpr ?_), hne⟩
    refine ⟨id.toNat, List.mem_range.mpr (UInt64.lt_iff_toNat_lt.mp (h.used_lt hb)), ?_⟩
    rw [UInt64.ofNat_toNat, hslot]
  · intro item hitem
    obtain ⟨i, hi, rfl⟩ := List.mem_map.mp hitem
    intro hmax
    have hi' := hlt i (List.mem_range.mp hi)
    simp only at hmax
    rw [hmax, UInt64.lt_iff_toNat_lt] at hi'
    exact absurd m.elements.toNat_lt (by rw [show uint64Max.toNat = 2 ^ 64 - 1 from rfl] at hi'; omega)
  · rw [List.nil_append, List.map_map]
    refine (List.nodup_map_iff_inj_on List.nodup_range).mpr (fun i hi j hj hij => ?_)
    rw [← htoNat i (List.mem_range.mp hi), ← htoNat j (List.mem_range.mp hj)]
    exact congrArg UInt64.toNat hij
  · rintro x hx y hy hxy hne
    obtain ⟨i, hi, rfl⟩ := List.mem_map.mp hx
    obtain ⟨j, hj, rfl⟩ := List.mem_map.mp hy
    have hbi := ((hg _ (hlt i (List.mem_range.mp hi))).1 _ hne).mp rfl
    have hbj := ((hg _ (hlt j (List.mem_range.mp hj))).1 _ hne).mp hxy.symm
    exact Option.some.inj (hbi.symm.trans hbj)

/-- A write that takes an empty block leaves its slot behind; no other request changes anything. -/
theorem Sound.mapAgrees_iff (h : m.Sound) (hg : m.MapAgrees) (ev : IoEvent) :
    (ev.exec m).MapAgrees ↔ ¬ m.TakesBlock ev := by
  have he := h.executed ev
  unfold MapAgrees
  rw [he.elements_eq, he.blockOf_eq]
  constructor
  · intro hafter htakes
    obtain ⟨v, vs, hq⟩ := List.exists_cons_of_ne_nil htakes.2.2
    have hv : v ∈ m.cache.blkPool.emptyIds := by
      rw [hq]
      exact List.mem_cons_self
    have hlt := h.ids_lt v (List.mem_append_left _ hv)
    have hslot := (hg v hlt).2.mpr hv
    rw [← he.slot_eq h hlt, (hafter v hlt).2, he.emptyIds_lost htakes, hq, List.tail_cons] at hslot
    have hnd := List.nodup_append.mp h.ids_nodup
    rw [hq] at hnd
    exact (List.nodup_cons.mp hnd.1).1 hslot
  · intro hkeeps i hi
    rw [he.slot_eq h hi, he.emptyIds_kept hkeeps]
    exact hg i hi

end Machine

/-- In a run from a cache whose mapping array agrees with its pool, they agree in every state, and a
restart finds all that is cached, exactly when no write has to serve a sector that the pool does not
know while there is an empty block to take. -/
theorem mapping_follows_pool_iff {m : Machine} (h : m.Sound) (hg : m.MapAgrees)
    (evs : List IoEvent) :
    (∀ t ∈ trajectory IoEvent.exec m evs, t.MapAgrees ∧ t.RemountFinds) ↔
      Along IoEvent.exec (fun t ev => ¬ t.TakesBlock ev) m evs := by
  apply trajectory_good_iff Machine.Sound (fun t => t.MapAgrees ∧ t.RemountFinds)
    (fun _ _ => True) (fun _ ev ht _ => ht.exec ev) ?_ h ⟨hg, h.remountFinds hg⟩
    (along_of_forall fun _ _ => trivial)
  rintro t ev ht - ⟨hagrees, -⟩
  have hiff := ht.mapAgrees_iff hagrees ev
  exact ⟨fun hafter => hiff.mp hafter.1,
    fun hkeeps => ⟨hiff.mpr hkeeps, (ht.exec ev).remountFinds (hiff.mpr hkeeps)⟩⟩

theorem oneBlock_ids :
    oneBlock.cache.blkPool.emptyIds ++ oneBlock.cache.blkPool.usedIds = [0] := by decide

theorem oneBlock_sound : oneBlock.Sound where
  toReady := oneBlock_ready
  device := ⟨520, by decide, by decide⟩
  translates := by
    intro acc hacc p
    obtain rfl : smallNvm = acc := Option.some.inj hacc
    exact Or.inr rfl
  real_lbas := oneBlock_unmapped _
  ids_nodup := by
    rw [oneBlock_ids]
    decide
  ids_lt := by
    rw [oneBlock_ids]
    intro id hid
    rw [List.mem_singleton.mp hid]
    change (0 : UInt64) < 1
    decide

theorem oneBlock_mapAgrees : oneBlock.MapAgrees := by
  intro i hi
  obtain rfl : i = 0 := by
    rw [UInt64.lt_iff_toNat_lt] at hi
    exact UInt64.toNat_inj.mp (Nat.lt_one_iff.mp hi)
  have hslot : oneBlock.slot 0 = uint64Max := by decide
  refine ⟨fun l hl => ⟨fun h => absurd (h.symm.trans hslot) hl, fun hb => ?_⟩, ?_⟩
  · rw [oneBlock_unmapped] at hb
    cases hb
  · exact ⟨fun _ => by decide, fun _ => hslot⟩

/-- After a write to an unmapped LBA block 0 is still empty on NVM, but no longer in the pool. -/
theorem first_write_leaves_slot :
    oneBlock.Sound ∧ oneBlock.MapAgrees ∧
      ¬ ((oneSector .cacheWrite 5).exec oneBlock).MapAgrees := by
  refine ⟨oneBlock_sound, oneBlock_mapAgrees, fun h => ?_⟩
  have hmem := (h 0 (by decide)).2.mp (by decide)
  exact absurd hmem (by decide)

theorem threeBlocks_sound : threeBlocks.Sound where
  toReady := threeBlocks_ready
  device := ⟨1560, by decide, by decide⟩
  translates := by
    intro acc hacc p
    obtain rfl : smallNvm = acc := Option.some.inj hacc
    exact Or.inr rfl
  real_lbas := by decide
  ids_nodup := by
    rw [threeBlocks_ids]
    decide
  ids_lt := by
    rw [threeBlocks_ids]
    intro id hid
    simp only [List.mem_cons, List.not_mem_nil, or_false] at hid
    rcases hid with rfl | rfl | rfl <;> decide

theorem threeBlocks_slots : [0, 1, 2].map threeBlocks.slot = [6, 5, uint64Max] := by decide

theorem threeBlocks_mapAgrees : threeBlocks.MapAgrees := by
  have h := threeBlocks_slots
  simp only [List.map_cons, List.map_nil, List.cons.injEq, and_true] at h
  obtain ⟨h0, h1, h2⟩ := h
  intro i hi
  have hcases : i = 0 ∨ i = 1 ∨ i = 2 := by
    change i < 3 at hi
    grind
  have hempty : threeBlocks.cache.blkPool.emptyIds = [2] := by decide
  simp only [threeBlocks_blockOf, hempty, List.mem_singleton]
  rcases hcases with rfl | rfl | rfl
  · rw [h0]
    exact ⟨fun l _ => by simp [eq_comm], by decide⟩
  · rw [h1]
    exact ⟨fun l _ => by simp [eq_comm], by decide⟩
  · rw [h2]
    exact ⟨fun l hl => by simp [hl.symm], by decide⟩

/-- LBAs 5 and 6 are cached, and they stay so. -/
theorem mapping_follows_pool_iff_threeBlocks :
    threeBlocks.blockOf 5 = some 1 ∧
      ∀ t ∈ trajectory IoEvent.exec threeBlocks [oneSector .cacheRead 9, oneSector .cacheWrite 6],
        t.MapAgrees ∧ t.RemountFinds := by
  refine ⟨by decide, (mapping_follows_pool_iff threeBlocks_sound threeBlocks_mapAgrees _).mpr ?_⟩
  refine ⟨nofun, ?_, trivial⟩
  rintro ⟨-, ⟨k, hk, hb⟩, -⟩
  obtain rfl : k = 0 := Nat.lt_one_iff.mp hk
  revert hb
  decide

end NvmBlkCache
