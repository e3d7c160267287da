import NvmBlkCache.IoRun

/-!
# What reads and writes move

A read puts each sector at its place in the buffer, from NVM or from the lower device, and changes
nothing else. A write whose sectors the pool knows puts each of them into its block and changes
nothing else.
-/
namespace NvmBlkCache
open FaultProgram ByteMemory NvmCacheBlkPool

/-- The sectors of a request have places of their own in the buffer, none of them at NULL. -/
structure NvmCacheIoReq.BufferFits (req : NvmCacheIoReq) : Prop where
  fits : req.lbaNum.toNat * 512 ≤ 2 ^ 64
  nonNull : ∀ k < req.lbaNum.toNat, req.target k ≠ 0

namespace Machine

/-- A cache whose accessor translates by a mapping. -/
structure Over (m : Machine) (mapping : NvmMapping) : Prop extends m.Ready where
  accessor : m.cache.accessor = some mapping.accessor

/-- Where NVM block `CALCULATE_BLK_ID(element_num) + id` begins. -/
def blockStart (m : Machine) (mapping : NvmMapping) (id : NvmCacheBlkId) : Addr :=
  mapping.nvmVirtStartAddr + blockOffset m.elements id

variable {m t : Machine} {mapping : NvmMapping}

theorem Over.blockVaddr_eq (h : m.Over mapping) (id : NvmCacheBlkId) :
    m.blockVaddr id = m.blockStart mapping id := by
  rw [blockVaddr, h.accessor]
  exact getVaddrByLba_apply rfl _

theorem Over.of_eq (h : m.Over mapping) (hcache : t.cache = m.cache) : t.Over mapping where
  toReady := h.toReady.of_eq hcache
  accessor := by rw [hcache, h.accessor]

theorem readBlock_dram {buffer a : Addr} {id : NvmCacheBlkId}
    (h : Copies buffer (m.blockVaddr id) → ¬ InWindow buffer 512 a) :
    (m.readBlock buffer id).dram a = m.dram a := by
  unfold readBlock
  split_ifs with hc
  · exact Mem.write_outside (h hc)
  · rfl

theorem afterBio_dram {l : LbaType} {buffer a : Addr}
    (h : m.outcomes.bio.head = .submitted 0 → ¬ InWindow buffer 512 a) :
    (m.afterBio ⟨l, 1, buffer, .cacheRead⟩).dram a = m.dram a := by
  unfold afterBio
  split_ifs with hok
  · rw [bioTransfer_read]
    exact Mem.write_outside (h hok)
  · rfl

end Machine

section Reading
variable {m t t' : Machine} {req : NvmCacheIoReq} {k : ℕ}

/-- A round changes DRAM in the sector's place in the buffer, and only if the sector is delivered. -/
theorem ReadProgress.round_dram (hp : ReadProgress m req k t) (h : m.Ready)
    (hdir : req.dir = .cacheRead) (hmem : ¬ m.NoMemory req k)
    (hrun : readSector req (UInt64.ofNat k) t = .ok none t') {a : Addr}
    (ha : m.Delivers req k → ¬ InWindow (req.target k) 512 a) : t'.dram a = t.dram a := by
  have ht : t.Ready := h.of_eq hp.cache_eq
  cases hb : m.blockOf (req.sector k) with
  | some id =>
    have hround := readSector_hit req ht.wf ht.mapper (hp.blockOf_eq ▸ hb)
    obtain rfl : _ = t' := (EStateM.Result.ok.inj (hround.symm.trans hrun)).2
    apply Machine.readBlock_dram
    intro hc
    apply ha
    rw [hp.blockVaddr_eq] at hc
    rw [Machine.Delivers, hb]
    exact hc
  | none =>
    have hhead : t.outcomes.kmalloc.head ≠ 0 := by
      rw [hp.kmalloc, Stream'.head_drop]
      exact fun h0 => hmem ⟨hb, h0⟩
    have hround := readSector_miss req ht.wf (hp.blockOf_eq ▸ hb) hhead
    obtain rfl : _ = t' := (EStateM.Result.ok.inj (hround.symm.trans hrun)).2
    rw [hdir]
    apply Machine.afterBio_dram
    intro hok
    apply ha
    rw [Machine.Delivers, hb]
    rw [← Stream'.head_drop, ← hp.bio]
    exact hok

/-- DRAM has changed only in the places of the delivered ones of the first `k` sectors. -/
def DramFramed (m : Machine) (req : NvmCacheIoReq) (k : ℕ) (t : Machine) : Prop :=
  ∀ a, (∀ j < k, m.Delivers req j → ¬ InWindow (req.target j) 512 a) → t.dram a = m.dram a

theorem ReadProgress.round_framed (hp : ReadProgress m req k t) (h : m.Ready)
    (hdir : req.dir = .cacheRead) (hmem : ¬ m.NoMemory req k) (hf : DramFramed m req k t)
    (hrun : readSector req (UInt64.ofNat k) t = .ok none t') : DramFramed m req (k + 1) t' := by
  intro a ha
  rw [hp.round_dram h hdir hmem hrun (ha k (Nat.lt_succ_self k))]
  exact hf a fun j hj => ha j (Nat.lt_succ_of_lt hj)

theorem readIo_dram (h : m.Ready) (hdir : req.dir = .cacheRead)
    (hmem : ∀ j < req.lbaNum.toNat, ¬ m.NoMemory req j) :
    ∃ t, nvmCacheHandleIo req m = .ok 0 t ∧ ReadProgress m req req.lbaNum.toNat t ∧
      DramFramed m req req.lbaNum.toNat t := by
  have hstart : ReadProgress m req 0 m ∧ DramFramed m req 0 m :=
    ⟨ReadProgress.start, fun _ _ => rfl⟩
  obtain ⟨t, hloop, hp, hf⟩ := countUp_progress
    (fun k t => ReadProgress m req k t ∧ DramFramed m req k t) hstart
    (fun j hj t ht => by
      obtain ⟨t', hround, hp'⟩ := ht.1.round h.wf h.mapper hdir (hmem j hj)
      exact ⟨t', hround, hp', ht.1.round_framed h hdir (hmem j hj) ht.2 hround⟩)
  refine ⟨t, ?_, hp, hf⟩
  rw [nvmCacheHandleIo, hdir]
  exact bind_ok hloop

theorem target_inWindow {j n : ℕ} (hj : j < n) (hfit : n * 512 ≤ 2 ^ 64) {a : Addr}
    (ha : InWindow (req.target j) 512 a) : InWindow req.buffer (n * 512) a := by
  apply ha.of_part ?_ hfit
  rw [UInt64.toNat_mul, UInt64.toNat_ofNat', show cacheBlockSize.toNat = 512 from rfl]
  omega

/-- Blocks of the mapped sectors of a request lie inside the mapping. -/
def BlocksInside (m : Machine) (mapping : NvmMapping) (req : NvmCacheIoReq) : Prop :=
  ∀ k < req.lbaNum.toNat, ∀ id, m.blockOf (req.sector k) = some id →
    (blockOffset m.elements id).toNat + 512 ≤ mapping.nvmPhyLength.toNat

/-- What a read leaves: every sector from where it belongs, and nothing else changed. -/
structure ReadDone (m : Machine) (mapping : NvmMapping) (req : NvmCacheIoReq) (t : Machine) :
    Prop where
  data : ∀ k < req.lbaNum.toNat, sectorOf t.dram (req.target k) =
    match m.blockOf (req.sector k) with
    | some id => sectorOf m.nvm (m.blockStart mapping id)
    | none => m.lowerBdev (req.sector k)
  outside : ∀ a, ¬ InWindow req.buffer (req.lbaNum.toNat * 512) a → t.dram a = m.dram a
  frame : t = { m with dram := t.dram, outcomes := t.outcomes }

theorem readDone {mapping : NvmMapping} (h : m.Over mapping) (hdir : req.dir = .cacheRead)
    (hbuffer : req.BufferFits) (hmem : ∀ j < req.lbaNum.toNat, ¬ m.NoMemory req j)
    (hbio : ∀ j < req.lbaNum.toNat, m.blockOf (req.sector j) = none →
      m.outcomes.bio.get (m.misses req j) = .submitted 0)
    (hblock : ∀ j < req.lbaNum.toNat, ∀ id, m.blockOf (req.sector j) = some id →
      m.blockStart mapping id ≠ 0) :
    ∃ t, nvmCacheHandleReadIo req m = .ok 0 t ∧ ReadDone m mapping req t := by
  obtain ⟨t, he, hp, hframe⟩ := readIo_dram h.toReady hdir hmem
  rw [nvmCacheHandleIo, hdir] at he
  refine ⟨t, he, fun k hk => ?_, fun a ha => ?_, hp.frame⟩
  · have hdel : m.Delivers req k := by
      unfold Machine.Delivers
      cases hb : m.blockOf (req.sector k) with
      | some id => exact ⟨hbuffer.nonNull k hk, h.blockVaddr_eq id ▸ hblock k hk id hb⟩
      | none => exact hbio k hk hb
    rw [hp.delivered hbuffer.fits k hk hdel, Machine.dataAt]
    cases m.blockOf (req.sector k) with
    | some id => simp only [h.blockVaddr_eq]
    | none => rfl
  · exact hframe a fun j hj _ hin => ha (target_inWindow hj hbuffer.fits hin)

/-- A read of any length brings each of its sectors from its NVM block or from the lower device to its
place in the buffer, and changes nothing else. -/
theorem readIo_correct {mapping : NvmMapping} (h : m.Over mapping)
    (hbase : mapping.nvmVirtStartAddr ≠ 0)
    (hwrap : mapping.nvmVirtStartAddr.toNat + mapping.nvmPhyLength.toNat ≤ 2 ^ 64)
    (hinside : BlocksInside m mapping req) (hdir : req.dir = .cacheRead)
    (hbuffer : req.BufferFits) (hkmalloc : ∀ i, m.outcomes.kmalloc.get i ≠ 0)
    (hbio : ∀ i, m.outcomes.bio.get i = .submitted 0) :
    ∃ t, nvmCacheHandleReadIo req m = .ok 0 t ∧ ReadDone m mapping req t :=
  readDone h hdir hbuffer (fun _ _ hno => hkmalloc _ hno.2) (fun _ _ _ => hbio _)
    fun j hj id hb => add_ne_zero hbase hwrap (by have := hinside j hj id hb; omega)

/-- A cache of one block, which holds LBA 5. -/
def oneCached : Machine :=
  let pool := initNvmBlkPool 1 Nat.one_pos
  { Machine.zeroed ⟨some smallNvm, some ⟨1, some []⟩,
      PoolOp.exec pool (.build .buildNvmBlock 0 5 (some 0x20000))⟩ with
    nvm := fun _ => 0xFF }

def smallMapping : NvmMapping := ⟨true, 4096, 4096, 8192⟩

theorem oneCached_over : oneCached.Over smallMapping where
  wf := pool_run_wf 1 (by decide) [.build .buildNvmBlock 0 5 (some 0x20000)] (by
    refine ⟨fun a ha => ?_, trivial⟩
    obtain rfl : 0x20000 = a := by simpa using ha
    exact ⟨by decide, by decide⟩)
  mapper := rfl
  accessor := rfl

theorem oneCached_blockOf {l : LbaType} {id : NvmCacheBlkId} (hb : oneCached.blockOf l = some id) :
    l = 5 ∧ id = 0 := by
  obtain ⟨a, ha, rfl, rfl⟩ := oneCached_over.wf.table.lookup_iff.mp hb
  have hlinked : oneCached.cache.blkPool.usedBlocksTable.linked = [0x20000] := by decide
  rw [hlinked, List.mem_singleton] at ha
  subst ha
  decide

/-- One sector from the lower device and one from NVM. -/
theorem readIo_correct_oneCached :
    ∃ t, nvmCacheHandleReadIo ⟨4, 2, 0x8000, .cacheRead⟩ oneCached = .ok 0 t ∧
      ReadDone oneCached smallMapping ⟨4, 2, 0x8000, .cacheRead⟩ t := by
  apply readIo_correct oneCached_over (by decide) (by decide) ?_ rfl ⟨by decide, by decide⟩
  · intro i
    change (0x10000 : UInt64) ≠ 0
    decide
  · exact fun i => rfl
  · intro k _ id hb
    obtain ⟨-, rfl⟩ := oneCached_blockOf hb
    decide

end Reading

section Writing
variable {m t t' : Machine} {mapping : NvmMapping} {req : NvmCacheIoReq} {k : ℕ}

/-- The table maps distinct LBAs to distinct blocks, whose addresses neither wrap nor are NULL. -/
structure Machine.Placed (m : Machine) (mapping : NvmMapping) : Prop extends m.Over mapping where
  fits : OffsetsFit m.elements
  id_lt : ∀ l id, m.blockOf l = some id → id < m.elements
  distinct : ∀ l l' id, m.blockOf l = some id → m.blockOf l' = some id → l = l'
  nonNull : ∀ l id, m.blockOf l = some id → m.blockStart mapping id ≠ 0

theorem sector_ne {i j : ℕ} (hi : i < j) (hj : j < 2 ^ 64) : req.sector i ≠ req.sector j := by
  intro h
  have hof : UInt64.ofNat i = UInt64.ofNat j := by
    unfold NvmCacheIoReq.sector at h
    grind
  have hnat := congrArg UInt64.toNat hof
  rw [UInt64.toNat_ofNat', UInt64.toNat_ofNat'] at hnat
  omega

/-- The blocks of two LBAs are apart. -/
theorem Machine.Placed.apart (h : m.Placed mapping) {l l' : LbaType} {id id' : NvmCacheBlkId}
    (hb : m.blockOf l = some id) (hb' : m.blockOf l' = some id') (hne : l ≠ l') :
    Apart (m.blockStart mapping id) 512 (m.blockStart mapping id') 512 := by
  have hid : id ≠ id' := by
    intro he
    subst he
    exact hne (h.distinct l l' id hb hb')
  exact blocks_apart h.fits (h.id_lt l id hb) (h.id_lt l' id' hb') hid _

theorem storeNvm_sector (p buffer : Addr) :
    sectorOf (m.storeNvm p buffer 512).nvm p = sectorOf m.dram buffer := by
  funext i
  exact Mem.bytes_write i.isLt (by decide)

theorem storeNvm_apart {p q buffer : Addr} (h : Apart p 512 q 512) :
    sectorOf (m.storeNvm p buffer 512).nvm q = sectorOf m.nvm q := by
  funext i
  exact Mem.bytes_write_apart h i.isLt

/-- The blocks of the first `k` sectors hold what the buffer has for them. -/
def Written (m : Machine) (mapping : NvmMapping) (req : NvmCacheIoReq) (k : ℕ) (t : Machine) :
    Prop :=
  ∀ j < k, ∀ id, m.blockOf (req.sector j) = some id →
    sectorOf t.nvm (m.blockStart mapping id) = sectorOf m.dram (req.target j)

theorem WriteProgress.round_written (hp : WriteProgress m req k t) (h : m.Placed mapping)
    (hk : k < 2 ^ 64) (htarget : req.target k ≠ 0) (hw : Written m mapping req k t)
    (hb : m.blockOf (req.sector k) ≠ none)
    (hrun : writeSector req (UInt64.ofNat k) t = .ok none t') :
    Written m mapping req (k + 1) t' := by
  obtain ⟨id, hb⟩ := Option.ne_none_iff_exists'.mp hb
  have ht : t.Ready := h.toReady.of_eq hp.cache_eq
  have hround := writeSector_hit req ht.wf ht.mapper (hp.blockOf_eq ▸ hb)
  have hstart : t.blockVaddr id = m.blockStart mapping id := by
    rw [hp.blockVaddr_eq, h.blockVaddr_eq]
  have hdram : t.dram = m.dram := by rw [hp.frame]
  have hstore : t' = t.storeNvm (m.blockStart mapping id) (req.target k) 512 := by
    have hcopies : Copies (req.target k) (t.blockVaddr id) :=
      ⟨htarget, hstart ▸ h.nonNull _ id hb⟩
    rw [← (EStateM.Result.ok.inj (hround.symm.trans hrun)).2, ← hstart]
    exact if_pos hcopies
  intro j hj id' hb'
  rcases Nat.lt_succ_iff_lt_or_eq.mp hj with hlt | rfl
  · rw [hstore, storeNvm_apart (h.apart hb hb' (sector_ne hlt hk).symm)]
    exact hw j hlt id' hb'
  · obtain rfl : id = id' := Option.some.inj (hb.symm.trans hb')
    rw [hstore, storeNvm_sector, hdram]

theorem writeIo_written (h : m.Placed mapping)
    (htarget : ∀ k < req.lbaNum.toNat, req.target k ≠ 0)
    (hknown : ∀ k < req.lbaNum.toNat, m.blockOf (req.sector k) ≠ none) :
    ∃ t, nvmCacheHandleWriteIo req m = .ok 0 t ∧ WriteProgress m req req.lbaNum.toNat t ∧
      Written m mapping req req.lbaNum.toNat t := by
  have hstart : WriteProgress m req 0 m ∧ Written m mapping req 0 m :=
    ⟨WriteProgress.start, fun j hj => absurd hj (Nat.not_lt_zero j)⟩
  obtain ⟨t, hloop, hp, hw⟩ := countUp_progress
    (fun k t => WriteProgress m req k t ∧ Written m mapping req k t) hstart
    (fun j hj t ht => by
      obtain ⟨t', hround, hp'⟩ := ht.1.round h.wf h.mapper (hknown j hj)
      exact ⟨t', hround, hp', ht.1.round_written h (hj.trans req.lbaNum.toNat_lt) (htarget j hj)
        ht.2 (hknown j hj) hround⟩)
  exact ⟨t, bind_ok hloop, hp, hw⟩

/-- What a write leaves: the blocks of its sectors hold the bytes of the buffer, nothing else has
changed, and a later read of mapped LBAs finds what was written and otherwise what was there. -/
structure WriteDone (m : Machine) (mapping : NvmMapping) (req : NvmCacheIoReq) (t : Machine) :
    Prop where
  data : Written m mapping req req.lbaNum.toNat t
  others : ∀ a, (∀ k < req.lbaNum.toNat, ∀ id, m.blockOf (req.sector k) = some id →
    ¬ InWindow (m.blockStart mapping id) 512 a) → t.nvm a = m.nvm a
  slots : ∀ s ≤ m.elements.toNat, t.nvm.load64 (mapping.nvmVirtStartAddr + slotStart s) =
    m.nvm.load64 (mapping.nvmVirtStartAddr + slotStart s)
  frame : t = { m with nvm := t.nvm, persisted := t.persisted }
  reads : ∀ (dram : Mem) (later : NvmCacheIoReq), later.dir = .cacheRead → later.BufferFits →
    (∀ j < later.lbaNum.toNat, m.blockOf (later.sector j) ≠ none) →
    ∃ t', nvmCacheHandleReadIo later { t with dram := dram } = .ok 0 t' ∧
      ∀ j < later.lbaNum.toNat, ∀ id, m.blockOf (later.sector j) = some id →
        (∀ k < req.lbaNum.toNat, later.sector j = req.sector k →
          sectorOf t'.dram (later.target j) = sectorOf m.dram (req.target k)) ∧
        ((∀ k < req.lbaNum.toNat, later.sector j ≠ req.sector k) →
          sectorOf t'.dram (later.target j) = sectorOf m.nvm (m.blockStart mapping id))

theorem WriteProgress.others (hp : WriteProgress m req req.lbaNum.toNat t) (h : m.Placed mapping)
    {a : Addr} (ha : ∀ k < req.lbaNum.toNat, ∀ id, m.blockOf (req.sector k) = some id →
      ¬ InWindow (m.blockStart mapping id) 512 a) : t.nvm a = m.nvm a := by
  apply hp.untouched
  intro k hk id hb _
  rw [h.blockVaddr_eq]
  exact ha k hk id hb

theorem WriteProgress.slots (hp : WriteProgress m req req.lbaNum.toNat t) (h : m.Placed mapping)
    {s : ℕ} (hs : s ≤ m.elements.toNat) :
    t.nvm.load64 (mapping.nvmVirtStartAddr + slotStart s) =
      m.nvm.load64 (mapping.nvmVirtStartAddr + slotStart s) := by
  apply Mem.load64_congr
  intro i hi
  apply hp.others h
  intro k _ id hb
  exact slotStart_block_apart h.fits hs (h.id_lt _ id hb) _ _ (inWindow_add hi)

/-- What the block of a mapped LBA holds after the write. -/
theorem WriteProgress.block (hp : WriteProgress m req req.lbaNum.toNat t) (h : m.Placed mapping)
    (hw : Written m mapping req req.lbaNum.toNat t) {l : LbaType} {id : NvmCacheBlkId}
    (hb : m.blockOf l = some id) :
    (∀ k < req.lbaNum.toNat, l = req.sector k →
      sectorOf t.nvm (m.blockStart mapping id) = sectorOf m.dram (req.target k)) ∧
    ((∀ k < req.lbaNum.toNat, l ≠ req.sector k) →
      sectorOf t.nvm (m.blockStart mapping id) = sectorOf m.nvm (m.blockStart mapping id)) := by
  constructor
  · rintro k hk rfl
    exact hw k hk id hb
  · intro hout
    funext i
    apply hp.others h
    intro k hk id' hb'
    exact h.apart hb hb' (hout k hk) _ (inWindow_add i.isLt)

/-- A read after the write, of LBAs that are mapped. -/
theorem WriteProgress.later_read (hp : WriteProgress m req req.lbaNum.toNat t)
    (h : m.Placed mapping) (dram : Mem) {later : NvmCacheIoReq} (hdir : later.dir = .cacheRead)
    (hbuffer : later.BufferFits)
    (hknown : ∀ j < later.lbaNum.toNat, m.blockOf (later.sector j) ≠ none) :
    ∃ t', nvmCacheHandleReadIo later { t with dram := dram } = .ok 0 t' ∧
      ∀ j < later.lbaNum.toNat, ∀ id, m.blockOf (later.sector j) = some id →
        sectorOf t'.dram (later.target j) = sectorOf t.nvm (m.blockStart mapping id) := by
  have hover : Machine.Over { t with dram := dram } mapping := h.toOver.of_eq hp.cache_eq
  have hblockOf : Machine.blockOf { t with dram := dram } = m.blockOf := hp.blockOf_eq
  have hstart : Machine.blockStart { t with dram := dram } mapping = m.blockStart mapping := by
    rw [hp.frame]
    rfl
  obtain ⟨t', he, hdone⟩ := readDone hover hdir hbuffer
    (fun j hj hno => hknown j hj (hblockOf ▸ hno.1))
    (fun j hj hb => absurd (hblockOf ▸ hb) (hknown j hj))
    (fun j _ id hb => by
      rw [hstart]
      exact h.nonNull _ id (hblockOf ▸ hb))
  refine ⟨t', he, fun j hj id hb => ?_⟩
  have hdata := hdone.data j hj
  rw [hblockOf, hb, hstart] at hdata
  exact hdata

/-- A write of any length whose LBAs are all mapped puts its sectors into their blocks and touches
nothing else. -/
theorem writeIo_hits (h : m.Placed mapping) (htarget : ∀ k < req.lbaNum.toNat, req.target k ≠ 0)
    (hknown : ∀ k < req.lbaNum.toNat, m.blockOf (req.sector k) ≠ none) :
    ∃ t, nvmCacheHandleWriteIo req m = .ok 0 t ∧ WriteDone m mapping req t := by
  obtain ⟨t, he, hp, hw⟩ := writeIo_written h htarget hknown
  refine ⟨t, he, hw, fun a ha => hp.others h ha, fun s hs => hp.slots h hs, hp.frame, ?_⟩
  intro dram later hdir hbuffer hlater
  obtain ⟨t', hread, hdata⟩ := hp.later_read h dram hdir hbuffer hlater
  refine ⟨t', hread, fun j hj id hb => ?_⟩
  rw [hdata j hj id hb]
  exact hp.block h hw hb

theorem oneCached_placed : oneCached.Placed smallMapping where
  toOver := oneCached_over
  fits := by
    change (1 / 64 + 1 + 1) * 512 ≤ 2 ^ 64
    decide
  id_lt := by
    intro l id hb
    obtain ⟨-, rfl⟩ := oneCached_blockOf hb
    decide
  distinct := fun _ _ _ hb hb' => (oneCached_blockOf hb).1.trans (oneCached_blockOf hb').1.symm
  nonNull := by
    intro l id hb
    obtain ⟨-, rfl⟩ := oneCached_blockOf hb
    decide

theorem threeBlocks_placed : threeBlocks.Placed smallMapping where
  toReady := threeBlocks_ready
  accessor := rfl
  fits := by
    change (3 / 64 + 1 + 3) * 512 ≤ 2 ^ 64
    decide
  id_lt := by
    intro l id hb
    rcases threeBlocks_blockOf.mp hb with ⟨-, rfl⟩ | ⟨-, rfl⟩
    · decide
    · decide
  distinct := by
    intro l l' id hb hb'
    rcases threeBlocks_blockOf.mp hb with ⟨rfl, rfl⟩ | ⟨rfl, rfl⟩
    · simpa [eq_comm] using threeBlocks_blockOf.mp hb'
    · simpa [eq_comm] using threeBlocks_blockOf.mp hb'
  nonNull := by
    intro l id hb
    rcases threeBlocks_blockOf.mp hb with ⟨-, rfl⟩ | ⟨-, rfl⟩
    · decide
    · decide

/-- LBAs 5 and 6, into the blocks 1 and 0. -/
theorem writeIo_hits_threeBlocks :
    ∃ t, nvmCacheHandleWriteIo ⟨5, 2, 0x8000, .cacheWrite⟩ threeBlocks = .ok 0 t ∧
      WriteDone threeBlocks smallMapping ⟨5, 2, 0x8000, .cacheWrite⟩ t :=
  writeIo_hits threeBlocks_placed (by decide) (by decide)

end Writing

end NvmBlkCache
