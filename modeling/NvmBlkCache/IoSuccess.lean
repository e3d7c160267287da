import NvmBlkCache.IoRun

/-!
# What a returned 0 means

A request returns 0 when its loop has come to its end. The accessor answers a refusal with a positive
number and an error of the lower device is only logged, so the loop comes to its end over sectors
that have not moved.
-/
namespace NvmBlkCache
open FaultProgram ByteMemory NvmCacheBlkPool

def Machine.before (m : Machine) (req : NvmCacheIoReq) (k : ℕ) : Machine :=
  stateAfter (countUp (serveSector req) 0 k m)

/-- A write of a sector without a block has moved it: a block is found, what it caches is written back
unless it is empty, and the sector is written to it. -/
def ServedByNewBlock (req : NvmCacheIoReq) (k : ℕ) (s : Machine) : Prop :=
  ∃ ret ptr id s', onPool (getEmptyBlock .null) s = .ok (ret, ptr) s' ∧ ptr.val? = some id ∧
    (ret ≠ 0 → ∃ l buffer, s.blockOf l = some id ∧
      returned (nvmAccessorReadBlock s'.cache.accessor buffer
        (calculateBlkId s'.elements + id) s') = some cacheBlockSize ∧
      returned (lowerDevIo ⟨l, 1, buffer, .cacheWrite⟩ s') = some 0) ∧
    returned (nvmAccessorWriteBlock s'.cache.accessor (req.target k)
      (calculateBlkId s'.elements + id) s') = some cacheBlockSize

/-- The operation that serves sector `k` in state `s` reports that it has moved the sector. -/
def Served (req : NvmCacheIoReq) (k : ℕ) (s : Machine) : Prop :=
  match s.blockOf (req.sector k), req.dir with
  | some id, .cacheRead => returned (nvmAccessorReadBlock s.cache.accessor (req.target k)
      (calculateBlkId s.elements + id) s) = some cacheBlockSize
  | some id, .cacheWrite => returned (nvmAccessorWriteBlock s.cache.accessor (req.target k)
      (calculateBlkId s.elements + id) s) = some cacheBlockSize
  | none, .cacheRead =>
      returned (lowerDevIo ⟨req.sector k, 1, req.target k, .cacheRead⟩ s) = some 0
  | none, .cacheWrite => ServedByNewBlock req k s

/-- A returned 0 means that every sector has moved. -/
def ZeroMeansServed (m : Machine) (req : NvmCacheIoReq) : Prop :=
  returned (nvmCacheHandleIo req m) = some 0 →
    ∀ k < req.lbaNum.toNat, Served req k (m.before req k)

namespace Machine

/-- The request does not get to its end: a read for want of memory, a write for want of a block. -/
def StopsEarly (m : Machine) (req : NvmCacheIoReq) : Prop :=
  match req.dir with
  | .cacheRead => ∃ k < req.lbaNum.toNat, m.NoMemory req k
  | .cacheWrite => m.HasMiss req

/-- Nothing is in the way of sector `k`: neither pointer of its copy is NULL, or the lower device has
no error for it. -/
def Unhindered (m : Machine) (req : NvmCacheIoReq) (k : ℕ) : Prop :=
  match m.blockOf (req.sector k) with
  | some id => Copies (req.target k) (m.blockVaddr id)
  | none => (m.outcomes.bio.get (m.misses req k)).ret = 0

end Machine

section
variable {m t : Machine} {req : NvmCacheIoReq} {k : ℕ}

theorem ReadProgress.served_iff (hp : ReadProgress m req k t) (hdir : req.dir = .cacheRead) :
    Served req k t ↔ m.Unhindered req k := by
  unfold Served Machine.Unhindered
  rw [hdir, hp.blockOf_eq]
  cases hb : m.blockOf (req.sector k) with
  | some id =>
    simp only [nvmAccessorReadBlock_apply, returned_ok, Option.some.injEq, blockCount_eq_iff,
      hp.blockVaddr_eq]
  | none =>
    simp only [lowerDevIo_apply, returned_ok, Option.some.injEq, hp.bio, Stream'.head_drop]

theorem WriteProgress.served_iff (hp : WriteProgress m req k t) (hdir : req.dir = .cacheWrite)
    (hb : m.blockOf (req.sector k) ≠ none) : Served req k t ↔ m.Unhindered req k := by
  obtain ⟨id, hid⟩ := Option.ne_none_iff_exists'.mp hb
  unfold Served Machine.Unhindered
  rw [hdir, hp.blockOf_eq, hid]
  simp only [nvmAccessorWriteBlock_apply, returned_ok, Option.some.injEq, blockCount_eq_iff,
    hp.blockVaddr_eq]

end

section
variable {m : Machine} {req : NvmCacheIoReq}

theorem read_zeroMeansServed_iff (h : m.Ready) (hdir : req.dir = .cacheRead) :
    ZeroMeansServed m req ↔
      m.StopsEarly req ∨ ∀ k < req.lbaNum.toNat, m.Unhindered req k := by
  unfold ZeroMeansServed Machine.StopsEarly
  rw [hdir]
  by_cases hmem : ∃ k < req.lbaNum.toNat, m.NoMemory req k
  · obtain ⟨t, he, -⟩ := readIo_noMemory h.wf h.mapper hdir hmem
    rw [he]
    simp [hmem, enomem]
  · have hno : ∀ j < req.lbaNum.toNat, ¬ m.NoMemory req j := fun j hj hn => hmem ⟨j, hj, hn⟩
    obtain ⟨t, he, -⟩ := readIo_returns h.wf h.mapper hdir hno
    have hserved : ∀ k < req.lbaNum.toNat, (Served req k (m.before req k) ↔ m.Unhindered req k) := by
      intro k hk
      obtain ⟨s, hloop, hp⟩ := ReadProgress.loop (n := k) h.wf h.mapper hdir
        (fun j hj => hno j (hj.trans hk))
      rw [Machine.before, serveSector, hdir, hloop]
      exact hp.served_iff hdir
    rw [he]
    simp only [returned_ok, forall_const, hmem, false_or]
    exact forall₂_congr hserved

theorem write_zeroMeansServed_iff (h : m.Ready) (hdir : req.dir = .cacheWrite) :
    ZeroMeansServed m req ↔
      m.StopsEarly req ∨ ∀ k < req.lbaNum.toNat, m.Unhindered req k := by
  unfold ZeroMeansServed Machine.StopsEarly
  rw [hdir]
  by_cases hmiss : m.HasMiss req
  · obtain ⟨k, t, p, -, -, -, he⟩ := writeIo_faults h.wf h.mapper hdir hmiss
    rw [he]
    simp [hmiss]
  · have hknown : ∀ j < req.lbaNum.toNat, m.blockOf (req.sector j) ≠ none :=
      fun j hj hn => hmiss ⟨j, hj, hn⟩
    obtain ⟨t, he, -⟩ := writeIo_returns h.wf h.mapper hdir hknown
    have hserved : ∀ k < req.lbaNum.toNat, (Served req k (m.before req k) ↔ m.Unhindered req k) := by
      intro k hk
      obtain ⟨s, hloop, hp⟩ := WriteProgress.loop (n := k) h.wf h.mapper
        (fun j hj => hknown j (hj.trans hk))
      rw [Machine.before, serveSector, hdir, hloop]
      exact hp.served_iff hdir (hknown k hk)
    rw [he]
    simp only [returned_ok, forall_const, hmiss, false_or]
    exact forall₂_congr hserved

end

/-- A returned 0 means what it should exactly when the request does not return it, or nothing was in
the way of any sector. -/
theorem zero_means_served_iff {m : Machine} (h : m.Ready) (req : NvmCacheIoReq) :
    ZeroMeansServed m req ↔
      m.StopsEarly req ∨ ∀ k < req.lbaNum.toNat, m.Unhindered req k := by
  cases hdir : req.dir with
  | cacheRead => exact read_zeroMeansServed_iff h hdir
  | cacheWrite => exact write_zeroMeansServed_iff h hdir

/-- The lower device answers `EIO`. -/
def brokenDevice : Machine :=
  { oneBlock with outcomes := { Outcomes.healthy with bio := Stream'.const (.submitted (-5)) } }

theorem broken_device_reads_zero :
    returned (nvmCacheHandleIo ⟨5, 1, 0x3000, .cacheRead⟩ brokenDevice) = some 0 ∧
      returned (lowerDevIo ⟨5, 1, 0x3000, .cacheRead⟩ brokenDevice) = some (-5) ∧
      ¬ ZeroMeansServed brokenDevice ⟨5, 1, 0x3000, .cacheRead⟩ := by
  have hzero : returned (nvmCacheHandleIo ⟨5, 1, 0x3000, .cacheRead⟩ brokenDevice) = some 0 := by
    decide
  have hfail : returned (lowerDevIo ⟨5, 1, 0x3000, .cacheRead⟩ brokenDevice) = some (-5) := by
    decide
  refine ⟨hzero, hfail, fun h => ?_⟩
  have hserved := h hzero 0 (by decide)
  rw [Machine.before, countUp_zero, stateAfter_ok, Served,
    show brokenDevice.blockOf _ = none from oneBlock_unmapped _] at hserved
  rw [show (⟨5, 1, 0x3000, .cacheRead⟩ : NvmCacheIoReq).sector 0 = 5 by decide,
    show (⟨5, 1, 0x3000, .cacheRead⟩ : NvmCacheIoReq).target 0 = 0x3000 by decide, hfail] at hserved
  exact absurd hserved (by decide)

theorem zero_means_served_iff_oneBlock : ZeroMeansServed oneBlock ⟨5, 1, 0x3000, .cacheRead⟩ := by
  apply (zero_means_served_iff oneBlock_ready _).mpr
  refine Or.inr fun k _ => ?_
  rw [Machine.Unhindered, oneBlock_unmapped]
  rfl

end NvmBlkCache
