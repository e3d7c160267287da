import NvmBlkCache.BlockRequest
import NvmBlkCache.CacheRefinement
import NvmBlkCache.FlatDevice

/-!
# What the block layer sees

A request of the block layer is one access of the flat device after the other, in the order of its
sectors, as long as every sector that it writes has its block.
-/
namespace NvmBlkCache
open FaultProgram ByteMemory LabelledRun FlatDevice

/-- Allocations and the lower device work. -/
structure Outcomes.Succeed (o : Outcomes) : Prop where
  kmalloc : ∀ k, o.kmalloc.get k ≠ 0
  bio : ∀ k, o.bio.get k = .submitted 0

namespace SectorIo

def access (dram : Mem) (s : SectorIo) : Access LbaType Sector :=
  match s.dir with
  | .cacheRead => .read s.lba
  | .cacheWrite => .write s.lba (sectorOf dram s.buffer)

/-- The 512 bytes do not begin at NULL and end within the address space. -/
structure Fits (s : SectorIo) : Prop where
  nonNull : s.buffer ≠ 0
  ends : s.buffer.toNat + 512 ≤ 2 ^ 64

theorem flatStep_one (s : SectorIo) (dram : Mem) (outcomes : Outcomes) (dev : LbaType → Sector) :
    flatStep dev ⟨s.ioReq, dram, outcomes⟩ = step dev (s.access dram) := by
  unfold access
  cases hdir : s.dir with
  | cacheRead =>
    have hread : (IoEvent.mk s.ioReq dram outcomes).req.dir = .cacheRead := hdir
    exact flatStep_read hread dev
  | cacheWrite =>
    funext l
    rw [step_write]
    by_cases hl : l = s.lba
    · subst hl
      have hwrite : (IoEvent.mk s.ioReq dram outcomes).req.dir = .cacheWrite := hdir
      have hcov := flatStep_covered hwrite (k := 0) Nat.one_pos dev
      rw [sector_zero, target_zero] at hcov
      rw [hcov, Function.update_self]
    · rw [Function.update_of_ne hl]
      apply flatStep_outside
      intro k hk
      obtain rfl : k = 0 := Nat.lt_one_iff.mp hk
      rwa [sector_zero]

end SectorIo

/-- `t` is what the service of one sector leaves. -/
structure SectorServed (m : Machine) (s : SectorIo) (t : Machine) : Prop where
  delivered : s.dir = .cacheRead → sectorOf t.dram s.buffer = m.dataAt s.lba
  dram_outside : ∀ a, (s.dir = .cacheRead → ¬ InWindow s.buffer 512 a) → t.dram a = m.dram a
  cache_eq : t.cache = m.cache
  lowerBdev_eq : t.lowerBdev = m.lowerBdev
  dataAt_eq : t.dataAt = step m.dataAt (s.access m.dram)
  outcomes : t.outcomes.Succeed

namespace Machine
variable {m t : Machine} {mapping : NvmMapping} {s : SectorIo}

theorem Placed.serves_sector (h : m.Placed mapping) (ho : m.outcomes.Succeed) (hfits : s.Fits)
    (hknown : s.Known m) :
    ∃ t, nvmCacheHandleIo s.ioReq m = .ok 0 t ∧ SectorServed m s t := by
  have hone : s.ioReq.lbaNum.toNat = 1 := rfl
  have hev : Healthy ⟨s.ioReq, m.dram, m.outcomes⟩ := ⟨ho.kmalloc, ho.bio, by
    rw [hone, Nat.one_mul]
    exact hfits.ends⟩
  obtain ⟨t, he, ha⟩ := h.answers hev hfits.nonNull
    (fun hdir hmiss => hknown hdir ((s.hasMiss_iff m).mp hmiss))
  refine ⟨t, he, fun hdir => ?_, fun a hout => ?_, ha.cache_eq, ha.lowerBdev_eq, ?_,
    ⟨ha.kmalloc, ha.bio⟩⟩
  · have hdata := ha.delivered hdir 0 Nat.one_pos
    rwa [s.sector_zero, s.target_zero] at hdata
  · refine ha.dram_outside a fun hdir hin => hout hdir ?_
    simp only [hone, Nat.one_mul] at hin
    exact hin
  · rw [ha.dataAt_eq, s.flatStep_one]

end Machine

/-- The buffers of a request: each fits, and what is read goes into bytes of its own. -/
structure BuffersApart (ss : List SectorIo) : Prop where
  fits : ∀ s ∈ ss, s.Fits
  apart : ss.Pairwise fun s s' => s.dir = .cacheRead ∨ s'.dir = .cacheRead →
    Apart s.buffer 512 s'.buffer 512

/-- What the service of the sectors leaves: they have been accesses of the flat device, one after the
other, and each that is read has what the device held when its turn came. -/
structure ServedFlat (m : Machine) (ss : List SectorIo) (t : Machine) : Prop where
  dataAt_eq : t.dataAt = run step m.dataAt (ss.map (SectorIo.access m.dram))
  delivered : ∀ pre s post, ss = pre ++ s :: post → s.dir = .cacheRead →
    sectorOf t.dram s.buffer = run step m.dataAt (pre.map (SectorIo.access m.dram)) s.lba
  dram_outside : ∀ a, (∀ s ∈ ss, s.dir = .cacheRead → ¬ InWindow s.buffer 512 a) →
    t.dram a = m.dram a
  cache_eq : t.cache = m.cache
  lowerBdev_eq : t.lowerBdev = m.lowerBdev

theorem sectorOf_congr {mem mem' : Mem} {p : Addr} (h : ∀ a, InWindow p 512 a → mem' a = mem a) :
    sectorOf mem' p = sectorOf mem p := by
  funext i
  exact h _ (inWindow_add i.isLt)

/-- What is written is not what has been read before in the same request. -/
theorem access_congr {s : SectorIo} {dram dram' : Mem}
    (h : s.dir = .cacheWrite → ∀ a, InWindow s.buffer 512 a → dram' a = dram a) :
    s.access dram' = s.access dram := by
  unfold SectorIo.access
  cases hdir : s.dir with
  | cacheRead => rfl
  | cacheWrite => simp only [sectorOf_congr (h hdir)]

namespace ServedFlat
variable {m m' t : Machine} {s : SectorIo} {ss : List SectorIo}

theorem nil (m : Machine) : ServedFlat m [] m where
  dataAt_eq := rfl
  delivered := fun pre s post h => by simp at h
  dram_outside := fun _ _ => rfl
  cache_eq := rfl
  lowerBdev_eq := rfl

theorem cons (hfirst : SectorServed m s m') (hapart : ∀ s' ∈ ss,
      s.dir = .cacheRead ∨ s'.dir = .cacheRead → Apart s.buffer 512 s'.buffer 512)
    (hrest : ServedFlat m' ss t) : ServedFlat m (s :: ss) t := by
  have haccess : ∀ s' ∈ ss, s'.access m'.dram = s'.access m.dram := by
    intro s' hs'
    apply access_congr
    intro _ a ha
    exact hfirst.dram_outside a fun hread hin => hapart s' hs' (Or.inl hread) a hin ha
  have hmap : ∀ {pre : List SectorIo}, (∀ s' ∈ pre, s' ∈ ss) →
      pre.map (SectorIo.access m'.dram) = pre.map (SectorIo.access m.dram) :=
    fun hpre => List.map_congr_left fun s' hs' => haccess s' (hpre s' hs')
  refine ⟨?_, ?_, ?_, hrest.cache_eq.trans hfirst.cache_eq,
    hrest.lowerBdev_eq.trans hfirst.lowerBdev_eq⟩
  · rw [hrest.dataAt_eq, hfirst.dataAt_eq, hmap fun _ hs' => hs', List.map_cons, run_cons]
  · intro pre s' post hsplit hread
    cases pre with
    | nil =>
      obtain ⟨rfl, rfl⟩ := List.cons.inj hsplit
      change sectorOf t.dram s.buffer = m.dataAt s.lba
      rw [← hfirst.delivered hread]
      apply sectorOf_congr
      intro a ha
      exact hrest.dram_outside a fun s' hs' _ hin => hapart s' hs' (Or.inl hread) a ha hin
    | cons s₀ pre =>
      obtain ⟨rfl, rfl⟩ := List.cons.inj hsplit
      rw [hrest.delivered pre s' post rfl hread, hfirst.dataAt_eq,
        hmap fun _ hs' => List.mem_append_left _ hs', List.map_cons, run_cons]
  · intro a ha
    rw [List.forall_mem_cons] at ha
    rw [hrest.dram_outside a ha.2, hfirst.dram_outside a ha.1]

end ServedFlat

section Serving
variable {mapping : NvmMapping} {ss : List SectorIo}

theorem serveSectors_flat {m : Machine} (h : m.Placed mapping) (ho : m.outcomes.Succeed)
    (hbuf : BuffersApart ss) (hknown : ∀ s ∈ ss, s.Known m) :
    ∃ t, serveSectors ss m = .ok .ok t ∧ ServedFlat m ss t := by
  induction ss generalizing m with
  | nil => exact ⟨m, rfl, ServedFlat.nil m⟩
  | cons s ss ih =>
    have hfits := List.forall_mem_cons.mp hbuf.fits
    have hapart := List.pairwise_cons.mp hbuf.apart
    rw [List.forall_mem_cons] at hknown
    obtain ⟨m', he, hfirst⟩ := h.serves_sector ho hfits.1 hknown.1
    have hm' : m'.Placed mapping := h.of_eq hfirst.cache_eq
    obtain ⟨t, hrun, hrest⟩ := ih hm' hfirst.outcomes ⟨hfits.2, hapart.2⟩
      (fun s' hs' => (known_congr hfirst.cache_eq s').mpr (hknown.2 s' hs'))
    refine ⟨t, ?_, hrest.cons hfirst hapart.1⟩
    rw [serveSectors, bind_ok he, if_pos rfl]
    exact hrun

end Serving

/-- A request of the block layer is done, and has been so many accesses of the flat device, exactly
when every sector that it writes has its block; otherwise it is never reported. -/
theorem queue_rq_flat_iff {mapping : NvmMapping} {d : Dispatch} {rq : Request}
    (h : d.machine.Placed mapping) (ho : d.machine.outcomes.Succeed) (hbuf : BuffersApart rq.sectors) :
    ((∀ s ∈ rq.sectors, s.Known d.machine) ↔
      ∃ t, nvmCacheQueueRq rq d = .ok .ok ⟨t, d.mapped, true, d.ended ++ [.ok]⟩ ∧
        ServedFlat d.machine rq.sectors t) ∧
    ((∃ s ∈ rq.sectors, ¬ s.Known d.machine) ↔
      ∃ e t page, nvmCacheQueueRq rq d = .error e ⟨t, page :: d.mapped, true, d.ended⟩) := by
  have hdone : (∀ s ∈ rq.sectors, s.Known d.machine) →
      ∃ t, nvmCacheQueueRq rq d = .ok .ok ⟨t, d.mapped, true, d.ended ++ [.ok]⟩ ∧
        ServedFlat d.machine rq.sectors t := by
    intro hknown
    obtain ⟨t, hrun, hserved⟩ := serveSectors_flat h ho hbuf hknown
    exact ⟨t, nvmCacheQueueRq_served hrun, hserved⟩
  have hstopped : (∃ s ∈ rq.sectors, ¬ s.Known d.machine) →
      ∃ e t page, nvmCacheQueueRq rq d = .error e ⟨t, page :: d.mapped, true, d.ended⟩ := by
    rintro ⟨s, hs, hnot⟩
    rcases serveSectors_cases h.toReady ho.kmalloc rq.sectors with ⟨hall, -⟩ | ⟨-, e, t, hrun⟩
    · exact absurd (hall s hs) hnot
    · obtain ⟨page, hq⟩ := nvmCacheQueueRq_stopped hrun
      exact ⟨e, t, page, hq⟩
  constructor
  · refine ⟨hdone, fun hrun s hs => ?_⟩
    by_contra hnot
    obtain ⟨t, hok, -⟩ := hrun
    obtain ⟨e, t', page, herror⟩ := hstopped ⟨s, hs, hnot⟩
    rw [hok] at herror
    cases herror
  · refine ⟨hstopped, fun hrun => ?_⟩
    by_contra hnone
    obtain ⟨e, t, page, herror⟩ := hrun
    obtain ⟨t', hok, -⟩ := hdone fun s hs => by_contra fun hnot => hnone ⟨s, hs, hnot⟩
    rw [hok] at herror
    cases herror

theorem apart_of_toNat_le {x y : Addr} {n k : ℕ} (hxy : x.toNat + n ≤ y.toNat)
    (hy : y.toNat + k ≤ 2 ^ 64) : Apart x n y k := by
  have h := @apart_of_le 0 x y n k hxy hy
  rwa [UInt64.zero_add, UInt64.zero_add] at h

theorem oneCached_succeed : oneCached.outcomes.Succeed where
  kmalloc := fun _ => by
    change (0x10000 : UInt64) ≠ 0
    decide
  bio := fun _ => rfl

/-- The block layer writes the cached sector and then reads it, with one that is not cached. -/
def writeThenRead : Request :=
  ⟨[⟨⟨0x8000, 512, 0⟩, 5, .cacheWrite⟩, ⟨⟨0x9000, 1024, 0⟩, 5, .cacheRead⟩]⟩

theorem queue_rq_flat_iff_writeThenRead :
    ∃ t, nvmCacheQueueRq writeThenRead ⟨oneCached, [], false, []⟩ = .ok .ok ⟨t, [], true, [.ok]⟩ ∧
      ServedFlat oneCached writeThenRead.sectors t := by
  have hsectors : writeThenRead.sectors =
      [⟨5, 0x8000, .cacheWrite⟩, ⟨5, 0x9000, .cacheRead⟩, ⟨6, 0x9200, .cacheRead⟩] := by decide
  have hbuf : BuffersApart writeThenRead.sectors := by
    rw [hsectors]
    constructor
    · simp only [List.forall_mem_cons]
      exact ⟨⟨by decide, by decide⟩, ⟨by decide, by decide⟩, ⟨by decide, by decide⟩, by simp⟩
    · simp only [List.pairwise_cons, List.forall_mem_cons]
      exact ⟨⟨fun _ => apart_of_toNat_le (by decide) (by decide),
        fun _ => apart_of_toNat_le (by decide) (by decide), by simp⟩,
        ⟨fun _ => apart_of_toNat_le (by decide) (by decide), by simp⟩, by simp⟩
  apply (queue_rq_flat_iff (d := ⟨oneCached, [], false, []⟩) oneCached_placed oneCached_succeed hbuf).1.mp
  rw [hsectors]
  simp only [List.forall_mem_cons]
  exact ⟨fun _ => by decide, nofun, nofun, by simp⟩

end NvmBlkCache
