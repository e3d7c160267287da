import NvmBlkCache.IoSpec

/-!
# What a whole request does

The state after the first `k` sectors of a read, and of a write whose sectors the pool knows, and how
each of the two loops ends.
-/
namespace NvmBlkCache
open FaultProgram ByteMemory NvmCacheBlkPool

namespace Machine

/-- The transfer of sector `k` of a read goes ahead: the accessor refuses no pointer, or the lower
device reports no error. -/
def Delivers (m : Machine) (req : NvmCacheIoReq) (k : ℕ) : Prop :=
  match m.blockOf (req.sector k) with
  | some id => Copies (req.target k) (m.blockVaddr id)
  | none => m.outcomes.bio.get (m.misses req k) = .submitted 0

/-- A read has no memory to ask the lower device for sector `k`. -/
def NoMemory (m : Machine) (req : NvmCacheIoReq) (k : ℕ) : Prop :=
  m.blockOf (req.sector k) = none ∧ m.outcomes.kmalloc.get (m.misses req k) = 0

theorem misses_hit {m : Machine} {req : NvmCacheIoReq} {k : ℕ} {id : NvmCacheBlkId}
    (hb : m.blockOf (req.sector k) = some id) : m.misses req (k + 1) = m.misses req k := by
  simp [misses, List.range_succ, hb]

theorem misses_miss {m : Machine} {req : NvmCacheIoReq} {k : ℕ}
    (hb : m.blockOf (req.sector k) = none) : m.misses req (k + 1) = m.misses req k + 1 := by
  simp [misses, List.range_succ, hb]

end Machine

variable {m t : Machine} {req : NvmCacheIoReq} {k : ℕ}

theorem targets_apart {j : ℕ} (hj : j < k) (hfit : (k + 1) * 512 ≤ 2 ^ 64) :
    Apart (req.target k) 512 (req.target j) 512 := by
  have hoff : ∀ i ≤ k, (UInt64.ofNat i * cacheBlockSize).toNat = i * 512 := by
    intro i hi
    rw [UInt64.toNat_mul, UInt64.toNat_ofNat', show cacheBlockSize.toNat = 512 from rfl]
    omega
  apply Apart.symm
  apply apart_of_le
  · rw [hoff j hj.le, hoff k le_rfl]
    omega
  · rw [hoff k le_rfl]
    omega

/-- Writing a target delivers its sector and keeps those before it. -/
theorem sectors_delivered {dram : Mem} {f : ℕ → UInt8} {P : ℕ → Prop} {data : ℕ → Sector}
    (hfit : (k + 1) * 512 ≤ 2 ^ 64)
    (hbefore : ∀ j < k, P j → sectorOf dram (req.target j) = data j)
    (hf : ∀ i : Fin 512, f i = data k i) :
    ∀ j < k + 1, P j → sectorOf (dram.write (req.target k) 512 f) (req.target j) = data j := by
  intro j hj hP
  funext i
  rcases Nat.lt_succ_iff_lt_or_eq.mp hj with hlt | rfl
  · rw [← hbefore j hlt hP]
    exact Mem.bytes_write_apart (targets_apart hlt hfit) i.isLt
  · rw [← hf i]
    exact Mem.bytes_write i.isLt (by decide)

/-- `t` is the machine `m` after the first `k` sectors of a read. -/
structure ReadProgress (m : Machine) (req : NvmCacheIoReq) (k : ℕ) (t : Machine) : Prop where
  frame : t = { m with dram := t.dram, outcomes := t.outcomes }
  kmalloc : t.outcomes.kmalloc = m.outcomes.kmalloc.drop (m.misses req k)
  bio : t.outcomes.bio = m.outcomes.bio.drop (m.misses req k)
  delivered : k * 512 ≤ 2 ^ 64 → ∀ j < k, m.Delivers req j →
    sectorOf t.dram (req.target j) = m.dataAt (req.sector j)

namespace ReadProgress

theorem start : ReadProgress m req 0 m :=
  ⟨rfl, rfl, rfl, fun _ j hj => absurd hj (Nat.not_lt_zero j)⟩

theorem cache_eq (hp : ReadProgress m req k t) : t.cache = m.cache := by rw [hp.frame]

theorem blockOf_eq (hp : ReadProgress m req k t) : t.blockOf = m.blockOf := by
  rw [hp.frame]
  rfl

theorem blockVaddr_eq (hp : ReadProgress m req k t) : t.blockVaddr = m.blockVaddr := by
  rw [hp.frame]
  rfl

/-- One more sector: its target is written with its data, unless the transfer did not go ahead. -/
theorem next {t' : Machine} (hp : ReadProgress m req k t)
    (hframe : t' = { t with dram := t'.dram, outcomes := t'.outcomes })
    (hkmalloc : t'.outcomes.kmalloc = m.outcomes.kmalloc.drop (m.misses req (k + 1)))
    (hbio : t'.outcomes.bio = m.outcomes.bio.drop (m.misses req (k + 1)))
    (hdram : (t'.dram = t.dram ∧ ¬ m.Delivers req k) ∨
      ∃ f, t'.dram = t.dram.write (req.target k) 512 f ∧
        ∀ i : Fin 512, f i = m.dataAt (req.sector k) i) :
    ReadProgress m req (k + 1) t' := by
  refine ⟨by rw [hframe, hp.frame], hkmalloc, hbio, fun hfit => ?_⟩
  have hle : k * 512 ≤ 2 ^ 64 := (Nat.mul_le_mul_right 512 (Nat.le_succ k)).trans hfit
  have hbefore := hp.delivered hle
  rcases hdram with ⟨heq, hnot⟩ | ⟨f, heq, hf⟩
  · rw [heq]
    intro j hj hdel
    rcases Nat.lt_succ_iff_lt_or_eq.mp hj with hlt | rfl
    · exact hbefore j hlt hdel
    · exact absurd hdel hnot
  · rw [heq]
    exact sectors_delivered hfit hbefore hf

theorem hit (hp : ReadProgress m req k t) (hwf : m.cache.blkPool.WF)
    (hm : m.cache.mapper.isSome) {id : NvmCacheBlkId} (hb : m.blockOf (req.sector k) = some id) :
    ∃ t', readSector req (UInt64.ofNat k) t = .ok none t' ∧ ReadProgress m req (k + 1) t' := by
  have hround := readSector_hit (m := t) req (by rwa [hp.cache_eq])
    (by rwa [hp.cache_eq]) (by rw [hp.blockOf_eq]; exact hb)
  refine ⟨_, hround, ?_⟩
  have hkm := hp.kmalloc
  have hbio := hp.bio
  rw [← Machine.misses_hit hb] at hkm hbio
  unfold Machine.readBlock
  rw [hp.blockVaddr_eq]
  split_ifs with hc
  · refine hp.next rfl hkm hbio (Or.inr ⟨_, rfl, fun i => ?_⟩)
    rw [Machine.dataAt, hb, hp.frame]
    rfl
  · refine hp.next rfl hkm hbio (Or.inl ⟨rfl, ?_⟩)
    rw [Machine.Delivers, hb]
    exact hc

theorem miss (hp : ReadProgress m req k t) (hwf : m.cache.blkPool.WF) (hdir : req.dir = .cacheRead)
    (hb : m.blockOf (req.sector k) = none) (hmem : ¬ m.NoMemory req k) :
    ∃ t', readSector req (UInt64.ofNat k) t = .ok none t' ∧ ReadProgress m req (k + 1) t' := by
  have hhead : t.outcomes.kmalloc.head ≠ 0 := by
    rw [hp.kmalloc, Stream'.head_drop]
    exact fun h => hmem ⟨hb, h⟩
  have hround := readSector_miss (m := t) req (by rwa [hp.cache_eq])
    (by rw [hp.blockOf_eq]; exact hb) hhead
  refine ⟨_, hround, ?_⟩
  have hkm : t.outcomes.kmalloc.tail = m.outcomes.kmalloc.drop (m.misses req (k + 1)) := by
    rw [hp.kmalloc, Machine.misses_miss hb, Stream'.tail_drop']
  have hbio : t.outcomes.bio.tail = m.outcomes.bio.drop (m.misses req (k + 1)) := by
    rw [hp.bio, Machine.misses_miss hb, Stream'.tail_drop']
  have hout : t.afterKmalloc.outcomes.bio.head = m.outcomes.bio.get (m.misses req k) := by
    rw [← Stream'.head_drop, ← hp.bio]
    rfl
  unfold Machine.afterBio
  rw [hout]
  split_ifs with hok
  · rw [hdir, bioTransfer_read]
    refine hp.next rfl hkm hbio (Or.inr ⟨_, rfl, fun i => ?_⟩)
    rw [sectorBytes_first, Machine.dataAt, hb, hp.frame]
    rfl
  · refine hp.next rfl hkm hbio (Or.inl ⟨rfl, ?_⟩)
    rw [Machine.Delivers, hb]
    exact hok

theorem noMemory (hp : ReadProgress m req k t) (hwf : m.cache.blkPool.WF)
    (hmem : m.NoMemory req k) :
    readSector req (UInt64.ofNat k) t = .ok (some (-enomem)) t.afterKmalloc := by
  apply readSector_noMemory
  · rwa [hp.cache_eq]
  · rw [hp.blockOf_eq]
    exact hmem.1
  · rw [hp.kmalloc, Stream'.head_drop]
    exact hmem.2

theorem round (hp : ReadProgress m req k t) (hwf : m.cache.blkPool.WF)
    (hm : m.cache.mapper.isSome) (hdir : req.dir = .cacheRead) (hmem : ¬ m.NoMemory req k) :
    ∃ t', readSector req (UInt64.ofNat k) t = .ok none t' ∧ ReadProgress m req (k + 1) t' := by
  cases hb : m.blockOf (req.sector k) with
  | some id => exact hp.hit hwf hm hb
  | none => exact hp.miss hwf hdir hb hmem

theorem loop {n : ℕ} (hwf : m.cache.blkPool.WF) (hm : m.cache.mapper.isSome)
    (hdir : req.dir = .cacheRead) (hmem : ∀ j < n, ¬ m.NoMemory req j) :
    ∃ t, countUp (readSector req) 0 n m = .ok none t ∧ ReadProgress m req n t :=
  countUp_progress (ReadProgress m req) start
    (fun j hj _ hp => hp.round hwf hm hdir (hmem j hj))

end ReadProgress

theorem readIo_returns (hwf : m.cache.blkPool.WF) (hm : m.cache.mapper.isSome)
    (hdir : req.dir = .cacheRead) (hmem : ∀ j < req.lbaNum.toNat, ¬ m.NoMemory req j) :
    ∃ t, nvmCacheHandleIo req m = .ok 0 t ∧ ReadProgress m req req.lbaNum.toNat t := by
  obtain ⟨t, hloop, hp⟩ := ReadProgress.loop hwf hm hdir hmem
  refine ⟨t, ?_, hp⟩
  rw [nvmCacheHandleIo, hdir]
  exact bind_ok hloop

/-- A read that is short of memory says so, and has changed nothing but DRAM. -/
theorem readIo_noMemory (hwf : m.cache.blkPool.WF) (hm : m.cache.mapper.isSome)
    (hdir : req.dir = .cacheRead) (hmem : ∃ j < req.lbaNum.toNat, m.NoMemory req j) :
    ∃ t, nvmCacheHandleIo req m = .ok (-enomem) t ∧
      t = { m with dram := t.dram, outcomes := t.outcomes } := by
  obtain ⟨k, -, hfirst, t, rest, hp, hloop⟩ :=
    countUp_reaches (ReadProgress m req) (m.NoMemory req) ReadProgress.start
      (fun _ hj _ hp => hp.round hwf hm hdir hj) hmem
  refine ⟨t.afterKmalloc, ?_, by rw [hp.frame]; rfl⟩
  rw [nvmCacheHandleIo, hdir]
  exact bind_ok (hloop.trans (countUp_return (hp.noMemory hwf hfirst)))

/-- However a read ends, it has changed nothing but DRAM. -/
theorem readIo_frame (req : NvmCacheIoReq) (hwf : m.cache.blkPool.WF) (hm : m.cache.mapper.isSome)
    (hdir : req.dir = .cacheRead) : ∃ ret t, nvmCacheHandleIo req m = .ok ret t ∧
      t = { m with dram := t.dram, outcomes := t.outcomes } := by
  by_cases hmem : ∃ j < req.lbaNum.toNat, m.NoMemory req j
  · obtain ⟨t, he, hf⟩ := readIo_noMemory hwf hm hdir hmem
    exact ⟨_, t, he, hf⟩
  · obtain ⟨t, he, hp⟩ := readIo_returns hwf hm hdir (fun j hj hno => hmem ⟨j, hj, hno⟩)
    exact ⟨_, t, he, hp.frame⟩

/-- `t` is the machine `m` after the first `k` sectors of a write, all of which the pool knows. -/
structure WriteProgress (m : Machine) (req : NvmCacheIoReq) (k : ℕ) (t : Machine) : Prop where
  frame : t = { m with nvm := t.nvm, persisted := t.persisted }
  untouched : ∀ a, (∀ j < k, ∀ id, m.blockOf (req.sector j) = some id → m.blockVaddr id ≠ 0 →
    ¬ InWindow (m.blockVaddr id) 512 a) → t.nvm a = m.nvm a

namespace WriteProgress

theorem start : WriteProgress m req 0 m := ⟨rfl, fun _ _ => rfl⟩

theorem cache_eq (hp : WriteProgress m req k t) : t.cache = m.cache := by rw [hp.frame]

theorem blockOf_eq (hp : WriteProgress m req k t) : t.blockOf = m.blockOf := by
  rw [hp.frame]
  rfl

theorem blockVaddr_eq (hp : WriteProgress m req k t) : t.blockVaddr = m.blockVaddr := by
  rw [hp.frame]
  rfl

theorem hit (hp : WriteProgress m req k t) (hwf : m.cache.blkPool.WF)
    (hm : m.cache.mapper.isSome) {id : NvmCacheBlkId} (hb : m.blockOf (req.sector k) = some id) :
    ∃ t', writeSector req (UInt64.ofNat k) t = .ok none t' ∧ WriteProgress m req (k + 1) t' := by
  have hround := writeSector_hit (m := t) req (by rwa [hp.cache_eq])
    (by rwa [hp.cache_eq]) (by rw [hp.blockOf_eq]; exact hb)
  refine ⟨_, hround, ?_⟩
  have hbefore : ∀ a, (∀ j < k + 1, ∀ id, m.blockOf (req.sector j) = some id →
      m.blockVaddr id ≠ 0 → ¬ InWindow (m.blockVaddr id) 512 a) → t.nvm a = m.nvm a :=
    fun a ha => hp.untouched a (fun j hj => ha j (Nat.lt_succ_of_lt hj))
  unfold Machine.writeBlock
  rw [hp.blockVaddr_eq]
  split_ifs with hc
  · refine ⟨by rw [hp.frame]; rfl, fun a ha => ?_⟩
    have hout := ha k (Nat.lt_succ_self k) id hb hc.2
    rw [← hbefore a ha]
    exact Mem.write_outside hout
  · exact ⟨hp.frame, hbefore⟩

theorem round (hp : WriteProgress m req k t) (hwf : m.cache.blkPool.WF)
    (hm : m.cache.mapper.isSome) (hb : m.blockOf (req.sector k) ≠ none) :
    ∃ t', writeSector req (UInt64.ofNat k) t = .ok none t' ∧ WriteProgress m req (k + 1) t' := by
  obtain ⟨id, hb⟩ := Option.ne_none_iff_exists'.mp hb
  exact hp.hit hwf hm hb

theorem loop {n : ℕ} (hwf : m.cache.blkPool.WF) (hm : m.cache.mapper.isSome)
    (hknown : ∀ j < n, m.blockOf (req.sector j) ≠ none) :
    ∃ t, countUp (writeSector req) 0 n m = .ok none t ∧ WriteProgress m req n t :=
  countUp_progress (WriteProgress m req) start
    (fun j hj _ hp => hp.round hwf hm (hknown j hj))

end WriteProgress

theorem writeIo_returns (hwf : m.cache.blkPool.WF) (hm : m.cache.mapper.isSome)
    (hdir : req.dir = .cacheWrite)
    (hknown : ∀ j < req.lbaNum.toNat, m.blockOf (req.sector j) ≠ none) :
    ∃ t, nvmCacheHandleIo req m = .ok 0 t ∧ WriteProgress m req req.lbaNum.toNat t := by
  obtain ⟨t, hloop, hp⟩ := WriteProgress.loop hwf hm hknown
  refine ⟨t, ?_, hp⟩
  rw [nvmCacheHandleIo, hdir]
  exact bind_ok hloop

/-- A write faults at the first sector that the pool does not know. -/
theorem writeIo_faults (hwf : m.cache.blkPool.WF) (hm : m.cache.mapper.isSome)
    (hdir : req.dir = .cacheWrite)
    (hmiss : ∃ j < req.lbaNum.toNat, m.blockOf (req.sector j) = none) :
    ∃ k t p, k < req.lbaNum.toNat ∧ WriteProgress m req k t ∧ LeftByNull m.cache.blkPool p ∧
      nvmCacheHandleIo req m =
        .error .nullDeref { t with cache := { m.cache with blkPool := p } } := by
  obtain ⟨k, hlt, hfirst, t, rest, hp, hloop⟩ :=
    countUp_reaches (WriteProgress m req) (fun j => m.blockOf (req.sector j) = none)
      WriteProgress.start (fun _ hj _ hp => hp.round hwf hm hj) hmiss
  obtain ⟨p, hleft, hround⟩ := writeSector_miss (m := t) req (by rwa [hp.cache_eq])
    (by rw [hp.blockOf_eq]; exact hfirst)
  rw [hp.cache_eq] at hleft hround
  refine ⟨k, t, p, hlt, hp, hleft, ?_⟩
  rw [nvmCacheHandleIo, hdir]
  exact bind_error (hloop.trans (countUp_error hround))

end NvmBlkCache
