import NvmBlkCache.IoSpec

/-!
# Requests in pieces

Between two sectors a loop carries nothing but the cache itself, and what makes it stop early is
never 0. So a request is its pieces, handled one after the other for as long as they return 0.
-/
namespace NvmBlkCache
open FaultProgram

namespace NvmCacheIoReq

/-- The first `k` sectors of a request. -/
def first (req : NvmCacheIoReq) (k : UInt64) : NvmCacheIoReq := { req with lbaNum := k }

/-- The sectors behind them. -/
def rest (req : NvmCacheIoReq) (k : UInt64) : NvmCacheIoReq where
  lba := req.lba + k
  lbaNum := req.lbaNum - k
  buffer := req.buffer + k * cacheBlockSize
  dir := req.dir

end NvmCacheIoReq

/-- The loop of either handler, for `n` rounds from `lbaOffset` on. -/
def ioLoop (req : NvmCacheIoReq) (lbaOffset : UInt64) (n : ℕ) : Prog Int32 := do
  match ← countUp (serveSector req) lbaOffset n with
  | some ret => return ret
  | none => return 0

variable (req : NvmCacheIoReq)

theorem nvmCacheHandleIo_eq : nvmCacheHandleIo req = ioLoop req 0 req.lbaNum.toNat := by
  unfold nvmCacheHandleIo ioLoop serveSector
  cases req.dir <;> rfl

section EarlyReturn

theorem readSector_nonzero (off : UInt64) : Returns (· ≠ some 0) (readSector req off) := by
  unfold readSector
  refine returns_bind fun ptr => ?_
  cases ptr with
  | cell a v =>
    refine returns_bind fun n => returns_bind fun v => returns_bind fun m =>
      returns_bind fun count => returns_ite (returns_pure ?_) (returns_pure ?_) <;> decide
  | null =>
    refine returns_bind fun lowerReq => returns_ite (returns_pure ?_)
      (returns_bind fun ret => returns_pure ?_) <;> decide

theorem writeBack_nonzero (off : UInt64) (nvmBlkPtr : U64Ptr) :
    Returns (· ≠ some 0) (writeBack req off nvmBlkPtr) := by
  unfold writeBack
  refine returns_bind fun writeBackBuffer => returns_ite (returns_pure (by decide)) ?_
  refine returns_bind fun m => returns_bind fun id => returns_bind fun ret => ?_
  by_cases hret : ret < 0
  · have hne : some ret ≠ some 0 := by
      rintro ⟨⟩
      exact absurd hret (by decide)
    rw [if_pos hret]
    exact returns_pure hne
  · rw [if_neg hret]
    refine returns_bind fun n => returns_bind fun lba => returns_bind fun m =>
      returns_bind fun count => returns_ite (returns_pure (by decide)) ?_
    refine returns_bind fun lowerReq => returns_ite (returns_pure (by decide)) ?_
    refine returns_bind fun lba => returns_bind fun ret => returns_bind fun m =>
      returns_bind fun count => returns_ite (returns_pure (by decide)) ?_
    exact returns_bind fun node => returns_bind fun _ => returns_pure (by decide)

theorem writeSector_nonzero (off : UInt64) : Returns (· ≠ some 0) (writeSector req off) := by
  unfold writeSector
  refine returns_bind fun ptr => ?_
  cases ptr with
  | cell a v =>
    refine returns_bind fun n => returns_bind fun v => returns_bind fun m =>
      returns_bind fun count => returns_ite (returns_pure ?_) (returns_pure ?_) <;> decide
  | null =>
    refine returns_bind fun got => ?_
    have htail := returns_ite (c := got.1 ≠ 0) (writeBack_nonzero req off got.2)
      (returns_pure (by decide : (none : Option Int32) ≠ some 0))
    exact returns_ite (returns_bind fun _ => htail) htail

theorem serveSector_nonzero (off : UInt64) : Returns (· ≠ some 0) (serveSector req off) := by
  unfold serveSector
  cases req.dir with
  | cacheRead => exact readSector_nonzero req off
  | cacheWrite => exact writeSector_nonzero req off

theorem ioRounds_nonzero (off : UInt64) (n : ℕ) :
    Returns (· ≠ some 0) (countUp (serveSector req) off n) :=
  countUp_returns (by decide) (serveSector_nonzero req) off n

end EarlyReturn

section Split
variable {req} {k : UInt64}

/-- Round `k + i` of a request is round `i` of the sectors from the `k`-th on. -/
theorem serveSector_rest (i : UInt64) : serveSector req (k + i) = serveSector (req.rest k) i := by
  have hlba : req.lba + (k + i) = req.lba + k + i := by grind
  have hbuffer : req.buffer + (k + i) * cacheBlockSize =
      req.buffer + k * cacheBlockSize + i * cacheBlockSize := by grind
  cases hdir : req.dir with
  | cacheRead =>
    simp only [serveSector, readSector, NvmCacheIoReq.rest, hdir, hlba, hbuffer]
  | cacheWrite =>
    simp only [serveSector, writeSector, writeBack, NvmCacheIoReq.rest, hdir, hlba, hbuffer]

theorem ioLoop_rest (n : ℕ) : ioLoop req k n = ioLoop (req.rest k) 0 n := by
  have hshift := countUp_shift (@serveSector_rest req k) 0 n
  rw [UInt64.add_zero] at hshift
  rw [ioLoop, ioLoop, hshift]

/-- A loop of `j + n` rounds is one of `j` and, if that comes to 0, one of `n`. -/
theorem ioLoop_add (j n : ℕ) : ioLoop req 0 (j + n) = (do
    let ret ← ioLoop req 0 j
    if ret = 0 then ioLoop req (UInt64.ofNat j) n else return ret) := by
  funext m
  have hstop (h : ∀ t, countUp (serveSector req) 0 j m ≠ .ok none t) := countUp_stops n h
  cases hrun : countUp (serveSector req) 0 j m with
  | error e t =>
    have hj : ioLoop req 0 j m = .error e t := bind_error hrun
    rw [bind_error hj]
    exact bind_error ((hstop (by simp [hrun])).trans hrun)
  | ok a t =>
    cases a with
    | none =>
      have hj : ioLoop req 0 j m = .ok 0 t := bind_ok hrun
      have hadd := countUp_add n hrun
      rw [UInt64.zero_add] at hadd
      rw [bind_ok hj, if_pos rfl]
      exact bind_congr_run hadd
    | some r =>
      have hj : ioLoop req 0 j m = .ok r t := bind_ok hrun
      have hr : r ≠ 0 := fun h => ioRounds_nonzero req 0 j m _ t hrun (congrArg some h)
      rw [bind_ok hj, if_neg hr]
      exact bind_ok ((hstop (by simp [hrun])).trans hrun)

theorem handleIo_cut (hk : k ≤ req.lbaNum) : nvmCacheHandleIo req = (do
    let ret ← nvmCacheHandleIo (req.first k)
    if ret = 0 then nvmCacheHandleIo (req.rest k) else return ret) := by
  have hsum : req.lbaNum.toNat = k.toNat + (req.rest k).lbaNum.toNat := by
    rw [UInt64.le_iff_toNat_le] at hk
    rw [NvmCacheIoReq.rest, UInt64.toNat_sub_of_le _ _ hk]
    omega
  have hrest := @ioLoop_rest req k (req.rest k).lbaNum.toNat
  rw [nvmCacheHandleIo_eq, nvmCacheHandleIo_eq (req.rest k), nvmCacheHandleIo_eq (req.first k),
    hsum, ioLoop_add, UInt64.ofNat_toNat, hrest]
  rfl

/-- The request in pieces of these lengths, for as long as they return 0. -/
def handlePieces : List UInt64 → NvmCacheIoReq → Prog Int32
  | [], _ => return 0
  | k :: ks, req => do
    let ret ← nvmCacheHandleIo (req.first k)
    if ret = 0 then handlePieces ks (req.rest k) else return ret

theorem handlePieces_eq {ks : List UInt64} (h : (ks.map UInt64.toNat).sum = req.lbaNum.toNat) :
    handlePieces ks req = nvmCacheHandleIo req := by
  induction ks generalizing req with
  | nil =>
    have hzero : req.lbaNum.toNat = 0 := h.symm
    rw [nvmCacheHandleIo_eq, hzero]
    rfl
  | cons k ks ih =>
    rw [List.map_cons, List.sum_cons] at h
    have hk : k ≤ req.lbaNum := by
      rw [UInt64.le_iff_toNat_le]
      omega
    have hrest : (ks.map UInt64.toNat).sum = (req.rest k).lbaNum.toNat := by
      rw [NvmCacheIoReq.rest, UInt64.toNat_sub_of_le _ _ hk]
      omega
    rw [handlePieces, handleIo_cut hk, ih hrest]

/-- However the block layer cuts a request, in two or in many, the pool, the NVM, the lower device,
the buffer and the result are the same, a fault included. -/
theorem handleIo_split (req : NvmCacheIoReq) :
    (∀ k ≤ req.lbaNum, nvmCacheHandleIo req = (do
      let ret ← nvmCacheHandleIo (req.first k)
      if ret = 0 then nvmCacheHandleIo (req.rest k) else return ret)) ∧
    ∀ ks : List UInt64, (ks.map UInt64.toNat).sum = req.lbaNum.toNat →
      handlePieces ks req = nvmCacheHandleIo req :=
  ⟨fun _ => handleIo_cut, fun _ => handlePieces_eq⟩

theorem handleIo_split_three :
    nvmCacheHandleIo ⟨5, 3, 0x8000, .cacheWrite⟩ = (do
      let ret ← nvmCacheHandleIo ⟨5, 1, 0x8000, .cacheWrite⟩
      if ret = 0 then nvmCacheHandleIo ⟨6, 2, 0x8200, .cacheWrite⟩ else return ret) ∧
    handlePieces [1, 1, 1] ⟨5, 3, 0x8000, .cacheWrite⟩ =
      nvmCacheHandleIo ⟨5, 3, 0x8000, .cacheWrite⟩ :=
  ⟨(handleIo_split ⟨5, 3, 0x8000, .cacheWrite⟩).1 1 (by decide),
    (handleIo_split ⟨5, 3, 0x8000, .cacheWrite⟩).2 [1, 1, 1] (by decide)⟩

end Split
end NvmBlkCache
