import NvmBlkCache.IoData
import NvmBlkCache.IoSplit

/-!
# Requests of the block layer

`nvm_cache_queue_rq` of `main.c`: a request is a chain of bios, a bio a list of segments in pages of
its own. The function sees one segment after the other, as the kernel's iterator comes to them, and hands
each to the cache as a request for whole sectors. Between two sectors nothing depends on where a segment
or a bio ends.
-/
namespace NvmBlkCache
open FaultProgram

/-- `bvPage` is where `kmap_atomic` maps the page. -/
structure BioVec where
  bvPage : Addr
  bvLen : UInt32
  bvOffset : UInt32

structure Bio where
  biSector : LbaType
  dir : NvmCacheIoDir
  biVecs : List BioVec

/-- One round of `rq_for_each_segment`: the segment, and where its bio is by then. -/
structure Segment where
  bvec : BioVec
  sector : LbaType
  dir : NvmCacheIoDir

/-- The kernel's iterator goes on by `bv_len >> 9` sectors. -/
def Segment.Next (seg seg' : Segment) : Prop :=
  seg'.sector = seg.sector + (seg.bvec.bvLen >>> 9).toUInt64

/-- `segs` are the rounds that `rq_for_each_segment` makes over a bio. -/
structure Bio.Iterates (bio : Bio) (segs : List Segment) : Prop where
  bvecs : segs.map Segment.bvec = bio.biVecs
  dir : ∀ seg ∈ segs, seg.dir = bio.dir
  first : ∀ seg ∈ segs.head?, seg.sector = bio.biSector
  next : segs.IsChain Segment.Next

/-- A request as the driver sees it. -/
structure Request where
  segments : List Segment

inductive BlkStatus
  | ok
  | ioerr
  deriving DecidableEq, Repr

/-- The machine, the pages that are mapped for the driver, and what the block layer has been told about
the request. -/
structure Dispatch where
  machine : Machine
  mapped : List Addr
  started : Bool
  ended : List BlkStatus

abbrev DispatchM := EStateM Fault Dispatch

def onMachine {α : Type} (x : Prog α) : DispatchM α :=
  zoom Dispatch.machine (fun m d => { d with machine := m }) x

def kmapAtomic (page : Addr) : DispatchM Addr := modifyGet fun d =>
  (page, { d with mapped := page :: d.mapped })

def kunmapAtomic (buffer : Addr) : DispatchM Unit :=
  modify fun d => { d with mapped := d.mapped.erase buffer }

def blkMqStartRequest : DispatchM Unit := modify fun d => { d with started := true }

def blkMqEndRequest (status : BlkStatus) : DispatchM Unit :=
  modify fun d => { d with ended := d.ended ++ [status] }

/-- What a segment asks the cache for. A rest of less than a sector is left out. -/
def Segment.ioReq (seg : Segment) (buffer : Addr) : NvmCacheIoReq where
  lba := seg.sector
  lbaNum := (seg.bvec.bvLen / cacheBlockSize.toUInt32).toUInt64
  buffer := buffer + seg.bvec.bvOffset.toUInt64
  dir := seg.dir

/-- The loop of `nvm_cache_queue_rq`. -/
def serveSegments : List Segment → DispatchM BlkStatus
  | [] => return .ok
  | seg :: segs => do
    let buffer ← kmapAtomic seg.bvec.bvPage
    let ret ← onMachine (nvmCacheHandleIo (seg.ioReq buffer))
    if ret ≠ 0 then
      kunmapAtomic buffer
      return .ioerr
    kunmapAtomic buffer
    serveSegments segs

def nvmCacheQueueRq (rq : Request) : DispatchM BlkStatus := do
  blkMqStartRequest
  let status ← serveSegments rq.segments
  blkMqEndRequest status
  return status

/-- One sector of a request: its LBA, and its 512 bytes in DRAM. -/
structure SectorIo where
  lba : LbaType
  buffer : Addr
  dir : NvmCacheIoDir
  deriving DecidableEq

def SectorIo.ioReq (s : SectorIo) : NvmCacheIoReq := ⟨s.lba, 1, s.buffer, s.dir⟩

def NvmCacheIoReq.sectors (req : NvmCacheIoReq) : List SectorIo :=
  (List.range req.lbaNum.toNat).map fun k => ⟨req.sector k, req.target k, req.dir⟩

def Segment.sectors (seg : Segment) : List SectorIo := (seg.ioReq seg.bvec.bvPage).sectors

/-- The sectors of a request in the order in which they are served. -/
def Request.sectors (rq : Request) : List SectorIo := rq.segments.flatMap Segment.sectors

/-- The sectors one by one, up to the first that does not come to 0. -/
def serveSectors : List SectorIo → Prog BlkStatus
  | [] => return .ok
  | s :: ss => do
    let ret ← nvmCacheHandleIo s.ioReq
    if ret = 0 then serveSectors ss else return .ioerr

section Sectors
variable {req : NvmCacheIoReq} {ss : List SectorIo}

theorem sectors_zero (h : req.lbaNum = 0) : req.sectors = [] := by
  simp [NvmCacheIoReq.sectors, h]

theorem rest_sector (k : ℕ) : (req.rest 1).sector k = req.sector (k + 1) := by
  simp only [NvmCacheIoReq.sector, NvmCacheIoReq.rest, UInt64.ofNat_add]
  grind

theorem rest_target (k : ℕ) : (req.rest 1).target k = req.target (k + 1) := by
  simp only [NvmCacheIoReq.target, NvmCacheIoReq.rest, UInt64.ofNat_add]
  grind

theorem sectors_cons (h : 1 ≤ req.lbaNum) :
    req.sectors = ⟨req.lba, req.buffer, req.dir⟩ :: (req.rest 1).sectors := by
  have hpos : 1 ≤ req.lbaNum.toNat := UInt64.le_iff_toNat_le.mp h
  have hnum : req.lbaNum.toNat = (req.rest 1).lbaNum.toNat + 1 := by
    rw [NvmCacheIoReq.rest, UInt64.toNat_sub_of_le _ _ h, UInt64.toNat_one]
    omega
  rw [NvmCacheIoReq.sectors, hnum, List.range_succ_eq_map, List.map_cons, List.map_map]
  congr 1
  · simp [NvmCacheIoReq.sector, NvmCacheIoReq.target]
  · apply List.map_congr_left
    intro k _
    rw [Function.comp_apply, rest_sector, rest_target]
    rfl

/-- A request of the cache is its sectors. -/
theorem serveSectors_append (req : NvmCacheIoReq) (ss : List SectorIo) :
    serveSectors (req.sectors ++ ss) = (do
      let ret ← nvmCacheHandleIo req
      if ret = 0 then serveSectors ss else return .ioerr) := by
  induction hn : req.lbaNum.toNat generalizing req with
  | zero =>
    have hzero : req.lbaNum = 0 := UInt64.toNat_inj.mp hn
    funext m
    rw [sectors_zero hzero, List.nil_append, nvmCacheHandleIo_eq, hn]
    rfl
  | succ n ih =>
    have hone : 1 ≤ req.lbaNum := by
      rw [UInt64.le_iff_toNat_le, UInt64.toNat_one]
      omega
    have hrest : (req.rest 1).lbaNum.toNat = n := by
      rw [NvmCacheIoReq.rest, UInt64.toNat_sub_of_le _ _ hone, UInt64.toNat_one]
      omega
    funext m
    rw [sectors_cons hone, List.cons_append, serveSectors, ih (req.rest 1) hrest,
      handleIo_cut hone]
    rw [show SectorIo.ioReq ⟨req.lba, req.buffer, req.dir⟩ = req.first 1 from rfl]
    cases he : nvmCacheHandleIo (req.first 1) m with
    | error e t => rw [bind_error he, bind_error (bind_error he)]
    | ok ret t =>
      rw [bind_ok he]
      by_cases hret : ret = 0
      · simp only [if_pos hret]
        apply bind_congr_run
        rw [bind_ok he, if_pos hret]
      · have hstop : (nvmCacheHandleIo (req.first 1) >>= fun ret =>
            if ret = 0 then nvmCacheHandleIo (req.rest 1) else pure ret) m = .ok ret t := by
          rw [bind_ok he, if_neg hret]
          rfl
        rw [if_neg hret, bind_ok hstop, if_neg hret]

end Sectors

section Dispatch
variable {d : Dispatch} {t : Machine} {e : Fault} {status : BlkStatus}

theorem onMachine_ok {α : Type} {x : Prog α} {a : α} (h : x d.machine = .ok a t) :
    onMachine x d = .ok a { d with machine := t } := zoom_ok h

theorem onMachine_error {α : Type} {x : Prog α} (h : x d.machine = .error e t) :
    onMachine x d = .error e { d with machine := t } := zoom_error h

theorem kmapAtomic_apply (page : Addr) :
    kmapAtomic page d = .ok page { d with mapped := page :: d.mapped } := rfl

theorem kunmapAtomic_mapped (buffer : Addr) :
    kunmapAtomic buffer { d with mapped := buffer :: d.mapped } = .ok ⟨⟩ d := by
  simp [kunmapAtomic]

/-- A round of the loop, with what is behind it. -/
theorem serveSegments_round {seg : Segment} {segs : List Segment} {ret : Int32}
    (h : nvmCacheHandleIo (seg.ioReq seg.bvec.bvPage) d.machine = .ok ret t) :
    serveSegments (seg :: segs) d = (if ret = 0 then serveSegments segs else pure .ioerr)
      { d with machine := t } := by
  have hrun : onMachine (nvmCacheHandleIo (seg.ioReq seg.bvec.bvPage))
      { d with mapped := seg.bvec.bvPage :: d.mapped } =
      .ok ret { d with machine := t, mapped := seg.bvec.bvPage :: d.mapped } := onMachine_ok h
  have hunmap := kunmapAtomic_mapped (d := { d with machine := t }) seg.bvec.bvPage
  rw [serveSegments, bind_ok (kmapAtomic_apply _), bind_ok hrun]
  by_cases hret : ret = 0
  · rw [if_neg (not_not.mpr hret), if_pos hret]
    exact bind_ok hunmap
  · rw [if_pos hret, if_neg hret]
    exact bind_ok hunmap

theorem serveSegments_fault {seg : Segment} (segs : List Segment)
    (h : nvmCacheHandleIo (seg.ioReq seg.bvec.bvPage) d.machine = .error e t) :
    serveSegments (seg :: segs) d =
      .error e { d with machine := t, mapped := seg.bvec.bvPage :: d.mapped } := by
  have hrun : onMachine (nvmCacheHandleIo (seg.ioReq seg.bvec.bvPage))
      { d with mapped := seg.bvec.bvPage :: d.mapped } =
      .error e { d with machine := t, mapped := seg.bvec.bvPage :: d.mapped } := onMachine_error h
  rw [serveSegments, bind_ok (kmapAtomic_apply _)]
  exact bind_error hrun

theorem segment_sectors (seg : Segment) : seg.sectors = (seg.ioReq seg.bvec.bvPage).sectors := rfl

/-- The loop is the service of its sectors: it leaves no page mapped, unless it is stopped. -/
theorem serveSegments_eq (segs : List Segment) (d : Dispatch) :
    match serveSectors (segs.flatMap Segment.sectors) d.machine with
    | .ok status t => serveSegments segs d = .ok status { d with machine := t }
    | .error e t => ∃ page, serveSegments segs d =
        .error e { d with machine := t, mapped := page :: d.mapped } := by
  induction segs generalizing d with
  | nil => rfl
  | cons seg segs ih =>
    rw [List.flatMap_cons, segment_sectors, serveSectors_append]
    cases he : nvmCacheHandleIo (seg.ioReq seg.bvec.bvPage) d.machine with
    | error e t =>
      rw [bind_error he]
      exact ⟨_, serveSegments_fault segs he⟩
    | ok ret t =>
      rw [bind_ok he, serveSegments_round he]
      by_cases hret : ret = 0
      · rw [if_pos hret, if_pos hret]
        exact ih { d with machine := t }
      · rw [if_neg hret, if_neg hret]
        rfl

/-- A request that is served to its end is reported once, with what it comes to. -/
theorem nvmCacheQueueRq_served {rq : Request} (h : serveSectors rq.sectors d.machine = .ok status t) :
    nvmCacheQueueRq rq d = .ok status ⟨t, d.mapped, true, d.ended ++ [status]⟩ := by
  have hloop := serveSegments_eq rq.segments { d with started := true }
  rw [show serveSectors (rq.segments.flatMap Segment.sectors) d.machine = .ok status t from h] at hloop
  have hstart : blkMqStartRequest d = .ok ⟨⟩ { d with started := true } := rfl
  rw [nvmCacheQueueRq, bind_ok hstart, bind_ok hloop]
  rfl

theorem nvmCacheQueueRq_stopped {rq : Request} (h : serveSectors rq.sectors d.machine = .error e t) :
    ∃ page, nvmCacheQueueRq rq d = .error e ⟨t, page :: d.mapped, true, d.ended⟩ := by
  have hloop := serveSegments_eq rq.segments { d with started := true }
  rw [show serveSectors (rq.segments.flatMap Segment.sectors) d.machine = .error e t from h] at hloop
  obtain ⟨page, hloop⟩ := hloop
  have hstart : blkMqStartRequest d = .ok ⟨⟩ { d with started := true } := rfl
  refine ⟨page, ?_⟩
  rw [nvmCacheQueueRq, bind_ok hstart]
  exact bind_error hloop

end Dispatch

/-- However the block layer divides the same sectors into bios and segments, the cache does the same
with them. The request is reported once and no page stays mapped; if it is stopped on a fault, it is
never reported, and one page stays mapped. -/
theorem queue_rq_division {rq rq' : Request} (h : rq.sectors = rq'.sectors) (d : Dispatch) :
    (∃ status t, nvmCacheQueueRq rq d = .ok status ⟨t, d.mapped, true, d.ended ++ [status]⟩ ∧
      nvmCacheQueueRq rq' d = .ok status ⟨t, d.mapped, true, d.ended ++ [status]⟩) ∨
    ∃ e t page page', nvmCacheQueueRq rq d = .error e ⟨t, page :: d.mapped, true, d.ended⟩ ∧
      nvmCacheQueueRq rq' d = .error e ⟨t, page' :: d.mapped, true, d.ended⟩ := by
  cases hs : serveSectors rq.sectors d.machine with
  | ok status t =>
    exact Or.inl ⟨status, t, nvmCacheQueueRq_served hs, nvmCacheQueueRq_served (h ▸ hs)⟩
  | error e t =>
    obtain ⟨page, hrun⟩ := nvmCacheQueueRq_stopped hs
    have hs' : serveSectors rq'.sectors d.machine = .error e t := h ▸ hs
    obtain ⟨page', hrun'⟩ := nvmCacheQueueRq_stopped hs'
    exact Or.inr ⟨e, t, page, page', hrun, hrun'⟩

/-- Two sectors in one segment, and as two bios of one sector. -/
theorem queue_rq_division_two_sectors :
    let one : Request := ⟨[⟨⟨0x8000, 1024, 0⟩, 5, .cacheRead⟩]⟩
    let two : Request := ⟨[⟨⟨0x8000, 512, 0⟩, 5, .cacheRead⟩, ⟨⟨0x8200, 512, 0⟩, 6, .cacheRead⟩]⟩
    let d : Dispatch := ⟨oneCached, [], false, []⟩
    (∃ status t, nvmCacheQueueRq one d = .ok status ⟨t, d.mapped, true, d.ended ++ [status]⟩ ∧
      nvmCacheQueueRq two d = .ok status ⟨t, d.mapped, true, d.ended ++ [status]⟩) ∨
    ∃ e t page page', nvmCacheQueueRq one d = .error e ⟨t, page :: d.mapped, true, d.ended⟩ ∧
      nvmCacheQueueRq two d = .error e ⟨t, page' :: d.mapped, true, d.ended⟩ :=
  queue_rq_division (by decide) _

namespace SectorIo

/-- The cache has a block for the sector if it is to be written. -/
def Known (m : Machine) (s : SectorIo) : Prop := s.dir = .cacheWrite → m.blockOf s.lba ≠ none

theorem sector_zero (s : SectorIo) : s.ioReq.sector 0 = s.lba := UInt64.add_zero s.lba

theorem target_zero (s : SectorIo) : s.ioReq.target 0 = s.buffer := by
  change s.buffer + 0 * cacheBlockSize = s.buffer
  rw [UInt64.zero_mul, UInt64.add_zero]

theorem hasMiss_iff (m : Machine) (s : SectorIo) :
    m.HasMiss s.ioReq ↔ m.blockOf s.lba = none := by
  unfold Machine.HasMiss
  rw [show s.ioReq.lbaNum.toNat = 1 from rfl]
  constructor
  · rintro ⟨k, hk, hb⟩
    obtain rfl : k = 0 := by omega
    rwa [sector_zero] at hb
  · intro hb
    exact ⟨0, Nat.one_pos, by rwa [sector_zero]⟩

end SectorIo

section Reporting
variable {m : Machine}

/-- With memory for every allocation a sector comes to 0, unless it is to be written and has no block. -/
theorem Machine.Ready.sector_cases (h : m.Ready) (hk : ∀ i, m.outcomes.kmalloc.get i ≠ 0)
    (s : SectorIo) :
    (s.Known m ∧ ∃ t, nvmCacheHandleIo s.ioReq m = .ok 0 t ∧ t.cache = m.cache ∧
      ∀ i, t.outcomes.kmalloc.get i ≠ 0) ∨
    (¬ s.Known m ∧ ∃ e t, nvmCacheHandleIo s.ioReq m = .error e t) := by
  cases hdir : s.dir with
  | cacheRead =>
    have hread : s.ioReq.dir = .cacheRead := hdir
    obtain ⟨t, he, hp⟩ := readIo_returns h.wf h.mapper hread fun _ _ hno => hk _ hno.2
    refine Or.inl ⟨fun hw => ?_, t, he, hp.cache_eq, fun i => ?_⟩
    · rw [hdir] at hw
      cases hw
    · rw [hp.kmalloc, Stream'.get_drop]
      exact hk _
  | cacheWrite =>
    have hwrite : s.ioReq.dir = .cacheWrite := hdir
    by_cases hb : m.blockOf s.lba = none
    · obtain ⟨k, t, p, -, -, -, he⟩ :=
        writeIo_faults h.wf h.mapper hwrite ((s.hasMiss_iff m).mpr hb)
      exact Or.inr ⟨fun hknown => hknown hdir hb, _, _, he⟩
    · have hhit : ¬ m.HasMiss s.ioReq := mt (s.hasMiss_iff m).mp hb
      obtain ⟨t, he, hp⟩ := writeIo_returns h.wf h.mapper hwrite
        fun j hj hnone => hhit ⟨j, hj, hnone⟩
      refine Or.inl ⟨fun _ => hb, t, he, hp.cache_eq, ?_⟩
      rw [hp.frame]
      exact hk

theorem known_congr {t : Machine} (hcache : t.cache = m.cache) (s : SectorIo) :
    s.Known t ↔ s.Known m := by
  simp only [SectorIo.Known, Machine.blockOf, hcache]

/-- So it is with any list of sectors. -/
theorem serveSectors_cases (h : m.Ready) (hk : ∀ i, m.outcomes.kmalloc.get i ≠ 0)
    (ss : List SectorIo) :
    ((∀ s ∈ ss, s.Known m) ∧ ∃ t, serveSectors ss m = .ok .ok t) ∨
    ((∃ s ∈ ss, ¬ s.Known m) ∧ ∃ e t, serveSectors ss m = .error e t) := by
  induction ss generalizing m with
  | nil => exact Or.inl ⟨nofun, m, rfl⟩
  | cons s ss ih =>
    rw [List.forall_mem_cons, List.exists_mem_cons_iff]
    rcases h.sector_cases hk s with ⟨hknown, t, he, hcache, hkt⟩ | ⟨hnot, e, t, he⟩
    · rw [serveSectors, bind_ok he, if_pos rfl]
      have hrest := ih (h.of_eq hcache) hkt
      simp only [known_congr hcache] at hrest
      exact hrest.imp (fun hall => ⟨⟨hknown, hall.1⟩, hall.2⟩) fun hsome => ⟨Or.inr hsome.1, hsome.2⟩
    · refine Or.inr ⟨Or.inl hnot, e, t, ?_⟩
      rw [serveSectors, bind_error he]

/-- With memory for every allocation a request is reported as done exactly when the cache has a block
for each sector that it writes. -/
theorem nvmCacheQueueRq_done_iff {rq : Request} {d : Dispatch} (h : d.machine.Ready)
    (hk : ∀ i, d.machine.outcomes.kmalloc.get i ≠ 0) :
    (∃ t, nvmCacheQueueRq rq d = .ok .ok ⟨t, d.mapped, true, d.ended ++ [.ok]⟩) ↔
      ∀ s ∈ rq.sectors, s.Known d.machine := by
  rcases serveSectors_cases h hk rq.sectors with ⟨hall, t, hs⟩ | ⟨⟨s, hs, hnot⟩, e, t, hstop⟩
  · exact ⟨fun _ => hall, fun _ => ⟨t, nvmCacheQueueRq_served hs⟩⟩
  · refine ⟨fun hdone => ?_, fun hall => absurd (hall s hs) hnot⟩
    obtain ⟨t', hrun⟩ := hdone
    obtain ⟨page, hq⟩ := nvmCacheQueueRq_stopped hstop
    rw [hq] at hrun
    cases hrun

end Reporting

section Coverage

theorem sectorCnt_toNat (len : UInt32) :
    ((len / cacheBlockSize.toUInt32).toUInt64).toNat = len.toNat / 512 := by
  rw [UInt32.toNat_toUInt64, UInt32.toNat_div]
  rfl

theorem shift_toNat (len : UInt32) : (len >>> 9).toUInt64 = UInt64.ofNat (len.toNat / 512) := by
  apply UInt64.toNat_inj.mp
  have hlt := len.toNat_lt
  rw [UInt32.toNat_toUInt64, UInt32.toNat_shiftRight, UInt64.toNat_ofNat', Nat.shiftRight_eq_div_pow]
  have h9 : (9 : UInt32).toNat % 32 = 9 := rfl
  rw [h9, Nat.mod_eq_of_lt (by omega)]

/-- The whole sectors of a list of segments. -/
def wholeSectors (bvecs : List BioVec) : ℕ := (bvecs.map fun bvec => bvec.bvLen.toNat / 512).sum

theorem wholeSectors_cons (bvec : BioVec) (bvecs : List BioVec) :
    wholeSectors (bvec :: bvecs) = bvec.bvLen.toNat / 512 + wholeSectors bvecs := rfl

/-- What the driver is to do for a bio: its whole sectors, from `bi_sector` on. -/
def Bio.accesses (bio : Bio) : List (LbaType × NvmCacheIoDir) :=
  (List.range (wholeSectors bio.biVecs)).map fun k => (bio.biSector + UInt64.ofNat k, bio.dir)

def SectorIo.place (s : SectorIo) : LbaType × NvmCacheIoDir := (s.lba, s.dir)

theorem segment_places (seg : Segment) : seg.sectors.map SectorIo.place =
    (List.range (seg.bvec.bvLen.toNat / 512)).map fun k =>
      (seg.sector + UInt64.ofNat k, seg.dir) := by
  rw [segment_sectors, NvmCacheIoReq.sectors, List.map_map]
  have hnum : (seg.ioReq seg.bvec.bvPage).lbaNum.toNat = seg.bvec.bvLen.toNat / 512 :=
    sectorCnt_toNat _
  rw [hnum]
  rfl

/-- The iterator and the driver count sectors alike, so that each segment goes on where the one before
it has ended. -/
theorem iterated_places {segs : List Segment} {sector : LbaType} {dir : NvmCacheIoDir}
    (hdir : ∀ seg ∈ segs, seg.dir = dir) (hfirst : ∀ seg ∈ segs.head?, seg.sector = sector)
    (hnext : segs.IsChain Segment.Next) :
    (segs.flatMap Segment.sectors).map SectorIo.place =
      (List.range (wholeSectors (segs.map Segment.bvec))).map fun k =>
        (sector + UInt64.ofNat k, dir) := by
  induction segs generalizing sector with
  | nil => rfl
  | cons seg segs ih =>
    rw [List.forall_mem_cons] at hdir
    rw [List.isChain_cons] at hnext
    obtain rfl : seg.sector = sector := hfirst seg rfl
    obtain rfl : seg.dir = dir := hdir.1
    rw [List.flatMap_cons, List.map_append, segment_places, ih hdir.2 hnext.1 hnext.2, List.map_cons,
      wholeSectors_cons, List.range_add, List.map_append, List.map_map]
    congr 1
    apply List.map_congr_left
    intro k _
    rw [Function.comp_apply, shift_toNat, UInt64.ofNat_add, UInt64.add_assoc]

theorem Bio.Iterates.places {bio : Bio} {segs : List Segment} (h : bio.Iterates segs) :
    (segs.flatMap Segment.sectors).map SectorIo.place = bio.accesses := by
  rw [iterated_places h.dir h.first h.next, h.bvecs]
  rfl

theorem bios_places {bios : List Bio} {segss : List (List Segment)}
    (h : List.Forall₂ Bio.Iterates bios segss) :
    (segss.flatten.flatMap Segment.sectors).map SectorIo.place = bios.flatMap Bio.accesses := by
  induction h with
  | nil => rfl
  | cons hbio _ ih =>
    rw [List.flatten_cons, List.flatMap_append, List.map_append, hbio.places, ih, List.flatMap_cons]

theorem wholeSectors_append (bvecs bvecs' : List BioVec) :
    wholeSectors (bvecs ++ bvecs') = wholeSectors bvecs + wholeSectors bvecs' := by
  simp [wholeSectors]

theorem accesses_length (bios : List Bio) :
    (bios.flatMap Bio.accesses).length = wholeSectors (bios.flatMap Bio.biVecs) := by
  induction bios with
  | nil => rfl
  | cons bio bios ih =>
    rw [List.flatMap_cons, List.flatMap_cons, List.length_append, ih, wholeSectors_append,
      Bio.accesses, List.length_map, List.length_range]

theorem wholeSectors_le (bvecs : List BioVec) :
    wholeSectors bvecs * 512 ≤ (bvecs.map fun bvec => bvec.bvLen.toNat).sum := by
  induction bvecs with
  | nil => rfl
  | cons bvec bvecs ih =>
    rw [wholeSectors_cons, List.map_cons, List.sum_cons, Nat.add_mul]
    exact Nat.add_le_add (Nat.div_mul_le_self _ 512) ih

theorem whole_and_rest_iff {len whole bytes : ℕ} (h : whole ≤ bytes) :
    len / 512 * 512 + whole = len + bytes ↔ 512 ∣ len ∧ whole = bytes := by
  omega

theorem wholeSectors_eq_iff (bvecs : List BioVec) :
    wholeSectors bvecs * 512 = (bvecs.map fun bvec => bvec.bvLen.toNat).sum ↔
      ∀ bvec ∈ bvecs, 512 ∣ bvec.bvLen.toNat := by
  induction bvecs with
  | nil => simp [wholeSectors]
  | cons bvec bvecs ih =>
    have hle := wholeSectors_le bvecs
    rw [List.forall_mem_cons, ← ih, wholeSectors_cons, List.map_cons, List.sum_cons, Nat.add_mul]
    exact whole_and_rest_iff hle

/-- A run of the driver over any bios serves the consecutive LBAs of each of them, in the bio's direction,
each once and in order: what comes of that is what it comes to and what is reported. The LBAs account for
all bytes of the bios exactly when every segment is whole sectors: what is left of a segment is dropped,
and with memory for every allocation the request is reported as done all the same. -/
theorem bio_coverage {bios : List Bio} {segss : List (List Segment)}
    (h : List.Forall₂ Bio.Iterates bios segss) (d : Dispatch) :
    let rq : Request := ⟨segss.flatten⟩
    rq.sectors.map SectorIo.place = bios.flatMap Bio.accesses ∧
    (∀ status t, serveSectors rq.sectors d.machine = .ok status t →
      nvmCacheQueueRq rq d = .ok status ⟨t, d.mapped, true, d.ended ++ [status]⟩) ∧
    (∀ e t, serveSectors rq.sectors d.machine = .error e t →
      ∃ page, nvmCacheQueueRq rq d = .error e ⟨t, page :: d.mapped, true, d.ended⟩) ∧
    (rq.sectors.length * 512 = ((bios.flatMap Bio.biVecs).map fun bvec => bvec.bvLen.toNat).sum ↔
      ∀ bvec ∈ bios.flatMap Bio.biVecs, 512 ∣ bvec.bvLen.toNat) ∧
    (d.machine.Ready → (∀ i, d.machine.outcomes.kmalloc.get i ≠ 0) →
      ((∃ t, nvmCacheQueueRq rq d = .ok .ok ⟨t, d.mapped, true, d.ended ++ [.ok]⟩) ↔
        ∀ s ∈ rq.sectors, s.Known d.machine)) := by
  intro rq
  have hplaces : rq.sectors.map SectorIo.place = bios.flatMap Bio.accesses := bios_places h
  refine ⟨hplaces, fun _ _ => nvmCacheQueueRq_served, fun _ _ => nvmCacheQueueRq_stopped, ?_,
    nvmCacheQueueRq_done_iff⟩
  have hlen := congrArg List.length hplaces
  rw [List.length_map, accesses_length] at hlen
  rw [hlen]
  exact wholeSectors_eq_iff _

/-- A bio with a segment of 700 bytes, of which 188 are dropped, and one of 512. -/
def raggedBio : Bio := ⟨4, .cacheRead, [⟨0x8000, 700, 0⟩, ⟨0x9000, 512, 0⟩]⟩

theorem bio_coverage_raggedBio :
    let rq : Request := ⟨[⟨⟨0x8000, 700, 0⟩, 4, .cacheRead⟩, ⟨⟨0x9000, 512, 0⟩, 5, .cacheRead⟩]⟩
    rq.sectors.map SectorIo.place = [(4, .cacheRead), (5, .cacheRead)] ∧
      rq.sectors.length * 512 ≠ 700 + 512 ∧
      ∃ t, nvmCacheQueueRq rq ⟨oneCached, [], false, []⟩ = .ok .ok ⟨t, [], true, [.ok]⟩ := by
  intro rq
  have hbio : raggedBio.Iterates rq.segments := by
    refine ⟨rfl, by simp [rq, raggedBio], by simp [rq, raggedBio], ?_⟩
    rw [List.isChain_pair, Segment.Next]
    decide
  obtain ⟨hplaces, -, -, hbytes, hdone⟩ :=
    bio_coverage (.cons hbio .nil) ⟨oneCached, [], false, []⟩
  refine ⟨hplaces, fun hall => ?_, ?_⟩
  · have hwhole := hbytes.mp hall ⟨0x8000, 700, 0⟩ (by simp [raggedBio])
    exact absurd hwhole (by decide)
  · refine (hdone oneCached_over.toReady ?_).mpr ?_
    · intro i
      change (0x10000 : UInt64) ≠ 0
      decide
    · intro s hs hwrite
      have hplace := List.mem_map_of_mem (f := SectorIo.place) hs
      rw [hplaces] at hplace
      simp [raggedBio, Bio.accesses, SectorIo.place, hwrite] at hplace

end Coverage
end NvmBlkCache
