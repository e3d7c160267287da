import NvmBlkCache.IoData
import NvmBlkCache.IoRemount
import NvmBlkCache.Mount
import NvmBlkCache.Transparency

/-!
# Requests during start-up

`nvm_cache_module_init` adds the disk first, and formats and scans behind it, so a request may come
while the pool is still empty. As the scan does not get past its first slot, the pool stays empty: a
read is answered from the lower device, whatever the mapping array says.
-/
namespace NvmBlkCache
open FaultProgram ByteMemory LabelledRun NvmCacheBlkPool

/-- Where `nvm_cache_module_init` is, from the call of `add_disk` on. `scan i k` is the loop of
`cache_mapper_scan` before block `i`, with `k` blocks to go; `stopped` is an oops. -/
inductive InitPhase
  | addDisk
  | format
  | registerEmpty
  | registerValid
  | scan (blkIndex : NvmCacheBlkId) (k : ℕ)
  | returned (ret : Int32)
  | stopped
  deriving DecidableEq

namespace InitPhase

/-- The next step. What `nvm_cache_format` returns is not looked at. -/
def next : InitPhase → Prog InitPhase
  | .addDisk => return .format
  | .format => do
    let _ ← nvmCacheFormat
    return .registerEmpty
  | .registerEmpty => do
    registerMapperScanFunc .buildNvmEmptyBlock
    return .registerValid
  | .registerValid => do
    registerMapperScanFunc .buildNvmValidBlock
    return .scan 0 (← elementNum).toNat
  | .scan _ 0 => return .returned 0
  | .scan blkIndex (k + 1) => do
    match ← scanElement blkIndex with
    | some ret => return .returned ret
    | none => return .scan (blkIndex + 1) k
  | .returned ret => return .returned ret
  | .stopped => return .stopped

/-- So many steps with no request between them. -/
def steps : ℕ → InitPhase → Prog InitPhase
  | 0, phase => return phase
  | n + 1, phase => do steps n (← phase.next)

theorem steps_returned (n : ℕ) (ret : Int32) : steps n (.returned ret) = pure (.returned ret) := by
  induction n with
  | zero => rfl
  | succ n ih =>
    rw [steps]
    exact ih

theorem steps_scan (k : ℕ) (blkIndex : NvmCacheBlkId) (m : Machine) :
    steps (k + 1) (.scan blkIndex k) m = (do
      match ← countUp scanElement blkIndex k with
      | some ret => return .returned ret
      | none => return .returned 0 : Prog InitPhase) m := by
  induction k generalizing blkIndex m with
  | zero => rfl
  | succ k ih =>
    cases hb : scanElement blkIndex m with
    | error e t =>
      have hnext : next (.scan blkIndex (k + 1)) m = .error e t := bind_error hb
      rw [steps, bind_error hnext, bind_error (countUp_error hb)]
    | ok a t =>
      cases a with
      | some ret =>
        have hnext : next (.scan blkIndex (k + 1)) m = .ok (.returned ret) t := bind_ok hb
        rw [steps, bind_ok hnext, bind_ok (countUp_return hb), steps_returned]
      | none =>
        have hnext : next (.scan blkIndex (k + 1)) m = .ok (.scan (blkIndex + 1) k) t := bind_ok hb
        rw [steps, bind_ok hnext, ih]
        exact bind_congr_run (countUp_next hb).symm

end InitPhase

structure BootState where
  phase : InitPhase
  machine : Machine

/-- What happens next: a step of the initialisation, or a read request. -/
inductive BootEvent
  | init
  | read (ev : IoEvent)

/-- Before the disk is added no request is delivered. -/
def BootState.exec (s : BootState) : BootEvent → BootState
  | .init =>
    match s.phase.next s.machine with
    | .ok phase m => ⟨phase, m⟩
    | .error _ m => ⟨.stopped, m⟩
  | .read ev => if s.phase = .addDisk then s else ⟨s.phase, ev.exec s.machine⟩

namespace Machine

/-- The mapping array says that block `id` holds LBA `l`. -/
def Recorded (m : Machine) (l : LbaType) (id : NvmCacheBlkId) : Prop :=
  id < m.elements ∧ m.slot id = l ∧ l ≠ nvmCacheFormattedValue

def recordedBlock (m : Machine) (id : NvmCacheBlkId) : Sector :=
  sectorOf m.nvm (m.nvmBase + blockOffset m.elements id)

end Machine

/-- A read returns 0, and the NVM block of each of its sectors that the mapping array of `m` records. -/
def ReadsRecorded (m : Machine) (s : BootState) : BootEvent → Prop
  | .init => True
  | .read ev => s.phase ≠ .addDisk → ∀ k < ev.req.lbaNum.toNat, ∀ id,
    m.Recorded (ev.req.sector k) id →
      ∃ t, nvmCacheHandleIo ev.req (s.machine.arrive ev) = .ok 0 t ∧
        sectorOf t.dram (ev.req.target k) = m.recordedBlock id

/-- What the lower device does for the sectors of a read: it has memory for all of them, and its own
sector, or what the buffer holds when the bio fails, is that NVM block anyway. -/
def LowerMatches (m : Machine) (s : BootState) : BootEvent → Prop
  | .init => True
  | .read ev => s.phase ≠ .addDisk → ∀ k < ev.req.lbaNum.toNat, ∀ id,
    m.Recorded (ev.req.sector k) id →
      (∀ j < ev.req.lbaNum.toNat, ev.outcomes.kmalloc.get j ≠ 0) ∧
        (if ev.outcomes.bio.get k = .submitted 0 then m.lowerBdev (ev.req.sector k)
          else sectorOf ev.dram (ev.req.target k)) = m.recordedBlock id

/-- The block layer delivers reads whose buffer fits into the address space. -/
def BootEvent.Deliverable : BootEvent → Prop
  | .init => True
  | .read ev => ev.req.dir = .cacheRead ∧ ev.req.lbaNum.toNat * 512 ≤ 2 ^ 64

/-- Of `m₀`, whose NVM is mapped as far as the slots, initialisation and reads have left the pool
empty, and NVM and the lower device as they were. -/
structure Idle (m₀ : Machine) (acc : NvmAccessor) (n : UInt64) (m : Machine) : Prop where
  accessor : m.cache.accessor = some acc
  mapper : ∃ funcs, m.cache.mapper = some ⟨n, some funcs⟩
  wf : m.cache.blkPool.WF
  usedIds_eq : m.cache.blkPool.usedIds = []
  bufferVar : m.bufferVar ≠ 0
  nvm_eq : m.nvm = m₀.nvm
  lowerBdev_eq : m.lowerBdev = m₀.lowerBdev

/-- The NVM of the accessor is mapped, and holds the header and `n` slots. -/
structure SlotsMapped (acc : NvmAccessor) (n : UInt64) : Prop where
  translate : acc.nvmAddrMapManager.phyAddrMapVirtAddrFunc = phyAddrMapVirtAddr
  mapped : acc.nvmAddrMapManager.nvmVirtStartAddr ≠ 0
  noWrap : acc.nvmAddrMapManager.nvmVirtStartAddr.toNat +
    acc.nvmAddrMapManager.nvmPhyLength.toNat ≤ 2 ^ 64
  slots : (n.toNat + 1) * 8 ≤ acc.nvmAddrMapManager.nvmPhyLength.toNat

namespace Idle
variable {m₀ m t : Machine} {acc : NvmAccessor} {n : UInt64} {ev : IoEvent}

theorem ready (h : Idle m₀ acc n m) : m.Ready where
  wf := h.wf
  mapper := by
    obtain ⟨funcs, hm⟩ := h.mapper
    rw [hm]
    rfl

theorem of_frame (h : Idle m₀ acc n m)
    (ht : t = { m with dram := t.dram, outcomes := t.outcomes }) : Idle m₀ acc n t := by
  rw [ht]
  exact ⟨h.accessor, h.mapper, h.wf, h.usedIds_eq, h.bufferVar, h.nvm_eq, h.lowerBdev_eq⟩

theorem arrive (h : Idle m₀ acc n m) (ev : IoEvent) : Idle m₀ acc n (m.arrive ev) :=
  h.of_frame rfl

theorem blockOf_eq (h : Idle m₀ acc n m) (l : LbaType) : m.blockOf l = none :=
  h.wf.blockOf_eq_none h.usedIds_eq l

theorem register (h : Idle m₀ acc n m) (func : BuildFunc) :
    ∃ t, registerMapperScanFunc func m = .ok ⟨⟩ t ∧ Idle m₀ acc n t := by
  obtain ⟨funcs, hm⟩ := h.mapper
  obtain ⟨t, hrun, ht⟩ := registerMapperScanFunc_ok hm rfl func
  refine ⟨t, hrun, ?_⟩
  rcases ht with rfl | rfl
  · exact h
  · exact ⟨h.accessor, ⟨_, rfl⟩, h.wf, h.usedIds_eq, h.bufferVar, h.nvm_eq,
      h.lowerBdev_eq⟩

theorem format (h : Idle m₀ acc n m) (hmap : SlotsMapped acc n) :
    ∃ ret t, nvmCacheFormat m = .ok ret t ∧ Idle m₀ acc n t :=
  ⟨_, _, nvmCacheFormat_refused h.accessor hmap.translate hmap.mapped h.bufferVar, h.of_frame rfl⟩

/-- The scan gives up at its first block. -/
theorem scan (h : Idle m₀ acc n m) (hmap : SlotsMapped acc n) (hn : 0 < n.toNat) :
    ∃ t, scanElement 0 m = .ok (some (-1)) t ∧ Idle m₀ acc n t := by
  have hslots := hmap.slots
  have hv : acc.nvmAddrMapManager.nvmVirtStartAddr + slotOffset 0 ≠ 0 := by
    apply add_ne_zero hmap.mapped hmap.noWrap
    rw [show (slotOffset 0).toNat = 8 from rfl]
    omega
  exact ⟨_, scanElement_refuses h.accessor hmap.translate h.bufferVar hv, h.of_frame rfl⟩

theorem misses_eq (h : Idle m₀ acc n m) (req : NvmCacheIoReq) (k : ℕ) : m.misses req k = k := by
  simp [Machine.misses, h.blockOf_eq]

theorem noMemory_iff (h : Idle m₀ acc n m) {req : NvmCacheIoReq} {k : ℕ} :
    m.NoMemory req k ↔ m.outcomes.kmalloc.get k = 0 := by
  simp [Machine.NoMemory, h.blockOf_eq, h.misses_eq]

theorem delivers_iff (h : Idle m₀ acc n m) {req : NvmCacheIoReq} {k : ℕ} :
    m.Delivers req k ↔ m.outcomes.bio.get k = .submitted 0 := by
  simp [Machine.Delivers, h.blockOf_eq, h.misses_eq]

/-- A read of an empty pool brings the lower device's sectors, and leaves the places alone of those for
which the bio fails. -/
theorem read_data (h : Idle m₀ acc n m) {req : NvmCacheIoReq} (hdir : req.dir = .cacheRead)
    (hfit : req.lbaNum.toNat * 512 ≤ 2 ^ 64)
    (hmem : ∀ j < req.lbaNum.toNat, m.outcomes.kmalloc.get j ≠ 0) :
    ∃ t, nvmCacheHandleIo req m = .ok 0 t ∧ ∀ k < req.lbaNum.toNat,
      sectorOf t.dram (req.target k) =
        if m.outcomes.bio.get k = .submitted 0 then m₀.lowerBdev (req.sector k)
        else sectorOf m.dram (req.target k) := by
  obtain ⟨t, hrun, hp, hframe⟩ := readIo_dram h.ready hdir
    (fun j hj hno => hmem j hj (h.noMemory_iff.mp hno))
  refine ⟨t, hrun, fun k hk => ?_⟩
  split_ifs with hbio
  · rw [hp.delivered hfit k hk (h.delivers_iff.mpr hbio), Machine.dataAt, h.blockOf_eq,
      ← h.lowerBdev_eq]
  · funext i
    apply hframe
    intro j hj hdel hin
    have hne : j ≠ k := by
      rintro rfl
      exact hbio (h.delivers_iff.mp hdel)
    have hplace : InWindow (req.target k) 512 (req.target k + UInt64.ofNat i) :=
      inWindow_add i.isLt
    rcases Nat.lt_or_gt_of_ne hne with hlt | hgt
    · exact targets_apart hlt ((Nat.mul_le_mul_right 512 hk).trans hfit) _ hplace hin
    · exact targets_apart hgt ((Nat.mul_le_mul_right 512 hj).trans hfit) _ hin hplace

theorem memory_of_read (h : Idle m₀ acc n m) {req : NvmCacheIoReq} (hdir : req.dir = .cacheRead)
    {t : Machine} (hrun : nvmCacheHandleIo req m = .ok 0 t) :
    ∀ j < req.lbaNum.toNat, m.outcomes.kmalloc.get j ≠ 0 := by
  intro j hj h0
  obtain ⟨t', hrun', -⟩ := readIo_noMemory h.wf h.ready.mapper hdir
    ⟨j, hj, h.noMemory_iff.mpr h0⟩
  rw [hrun] at hrun'
  exact absurd (EStateM.Result.ok.inj hrun').1 (by decide)

end Idle

namespace BootState

/-- What every state of a start-up keeps. -/
structure Inv (m₀ : Machine) (acc : NvmAccessor) (n : UInt64) (s : BootState) : Prop where
  idle : Idle m₀ acc n s.machine
  scan : ∀ blkIndex k, s.phase = .scan blkIndex k → blkIndex = 0 ∧ k = n.toNat

variable {m₀ : Machine} {acc : NvmAccessor} {n : UInt64} {s : BootState}

theorem Inv.init (h : Inv m₀ acc n s) (hmap : SlotsMapped acc n) : Inv m₀ acc n (s.exec .init) := by
  obtain ⟨phase, m⟩ := s
  have hidle : Idle m₀ acc n m := h.idle
  -- a step that returns `p` and leaves `t`
  have hnext : ∀ p t, phase.next m = .ok p t → Idle m₀ acc n t →
      (∀ blkIndex k, p = .scan blkIndex k → blkIndex = 0 ∧ k = n.toNat) →
      Inv m₀ acc n (exec ⟨phase, m⟩ .init) := by
    intro p t hrun ht hscan
    rw [exec, hrun]
    exact ⟨ht, hscan⟩
  cases phase with
  | addDisk => exact hnext _ m rfl hidle (by simp)
  | format =>
    obtain ⟨ret, t, hrun, ht⟩ := hidle.format hmap
    exact hnext _ t (bind_ok hrun) ht (by simp)
  | registerEmpty =>
    obtain ⟨t, hrun, ht⟩ := hidle.register .buildNvmEmptyBlock
    exact hnext _ t (bind_ok hrun) ht (by simp)
  | registerValid =>
    obtain ⟨t, hrun, ht⟩ := hidle.register .buildNvmValidBlock
    obtain ⟨funcs, hm⟩ := ht.mapper
    refine hnext (.scan 0 n.toNat) t ?_ ht (by simp +contextual)
    exact (bind_ok hrun).trans (bind_ok (elementNum_apply hm))
  | scan blkIndex k =>
    obtain ⟨rfl, rfl⟩ := h.scan blkIndex k rfl
    cases hk : n.toNat with
    | zero =>
      rw [hk] at hnext
      exact hnext (.returned 0) m rfl hidle (by simp)
    | succ k =>
      obtain ⟨t, hrun, ht⟩ := hidle.scan hmap (by omega)
      rw [hk] at hnext
      exact hnext (.returned (-1)) t (bind_ok hrun) ht (by simp)
  | returned ret => exact hnext _ m rfl hidle (by simp)
  | stopped => exact hnext _ m rfl hidle (by simp)

theorem Inv.read (h : Inv m₀ acc n s) {ev : IoEvent} (hdir : ev.req.dir = .cacheRead) :
    Inv m₀ acc n (s.exec (.read ev)) := by
  have hidle := h.idle.arrive ev
  obtain ⟨ret, t, hrun, hframe⟩ := readIo_frame ev.req hidle.wf hidle.ready.mapper hdir
  rw [exec]
  split_ifs with hphase
  · exact h
  · refine ⟨?_, h.scan⟩
    rw [IoEvent.exec, hrun, stateAfter_ok]
    exact hidle.of_frame hframe

theorem Inv.exec (h : Inv m₀ acc n s) (hmap : SlotsMapped acc n) {ev : BootEvent}
    (hev : ev.Deliverable) : Inv m₀ acc n (s.exec ev) := by
  cases ev with
  | init => exact h.init hmap
  | read ev => exact h.read hev.1

theorem Inv.readsRecorded_iff (h : Inv m₀ acc n s) {ev : BootEvent} (hev : ev.Deliverable) :
    ReadsRecorded m₀ s ev ↔ LowerMatches m₀ s ev := by
  cases ev with
  | init => exact Iff.rfl
  | read ev =>
    have hidle := h.idle.arrive ev
    refine forall_congr' fun _ => forall₂_congr fun k hk => forall₂_congr fun id _ => ?_
    constructor
    · rintro ⟨t, hrun, hdata⟩
      have hmem := hidle.memory_of_read hev.1 hrun
      obtain ⟨t', hrun', hdata'⟩ := hidle.read_data hev.1 hev.2 hmem
      rw [hrun] at hrun'
      cases hrun'
      exact ⟨hmem, (hdata' k hk).symm.trans hdata⟩
    · rintro ⟨hmem, hdata⟩
      obtain ⟨t, hrun, hdata'⟩ := hidle.read_data hev.1 hev.2 hmem
      exact ⟨t, hrun, (hdata' k hk).trans hdata⟩

end BootState

section Program
variable {m₀ m : Machine} {acc : NvmAccessor} {n : UInt64}

/-- Steps with no request between them are the run of as many steps of the initialisation. -/
theorem BootState.run_steps {phase phase' : InitPhase} {t : Machine} {k : ℕ}
    (h : InitPhase.steps k phase m = .ok phase' t) :
    run BootState.exec ⟨phase, m⟩ (List.replicate k .init) = ⟨phase', t⟩ := by
  induction k generalizing phase m with
  | zero =>
    cases h
    rfl
  | succ k ih =>
    cases hnext : phase.next m with
    | error e s =>
      rw [InitPhase.steps, bind_error hnext] at h
      cases h
    | ok p s =>
      rw [InitPhase.steps, bind_ok hnext] at h
      have hexec : BootState.exec ⟨phase, m⟩ .init = ⟨p, s⟩ := by
        rw [BootState.exec, hnext]
      rw [List.replicate_succ, run_cons, hexec]
      exact ih h

theorem Idle.steps_scan (h : Idle m₀ acc n m) :
    InitPhase.steps (n.toNat + 3) .registerEmpty m =
      (do return .returned (← cacheMapperScan) : Prog InitPhase) m := by
  obtain ⟨t₁, hrun₁, h₁⟩ := h.register .buildNvmEmptyBlock
  obtain ⟨t₂, hrun₂, h₂⟩ := h₁.register .buildNvmValidBlock
  obtain ⟨funcs, hm⟩ := h₂.mapper
  have hn : elementNum t₂ = .ok n t₂ := elementNum_apply hm
  have hnext₁ : InitPhase.next .registerEmpty m = .ok .registerValid t₁ := bind_ok hrun₁
  have hnext₂ : InitPhase.next .registerValid t₁ = .ok (.scan 0 n.toNat) t₂ :=
    (bind_ok hrun₂).trans (bind_ok hn)
  have hscan : cacheMapperScan m = (do
      match ← countUp scanElement 0 n.toNat with
      | some ret => return ret
      | none => return 0 : Prog Int32) t₂ := by
    rw [cacheMapperScan, bind_ok hrun₁, bind_ok hrun₂]
    exact bind_ok hn
  rw [InitPhase.steps, bind_ok hnext₁, InitPhase.steps, bind_ok hnext₂, InitPhase.steps_scan]
  cases hloop : countUp scanElement 0 n.toNat t₂ with
  | error e t =>
    rw [bind_error hloop] at hscan ⊢
    exact (bind_error hscan).symm
  | ok a t =>
    rw [bind_ok hloop] at hscan ⊢
    cases a with
    | none =>
      have hret : cacheMapperScan m = .ok 0 t := hscan
      rw [bind_ok hret]
    | some ret =>
      have hret : cacheMapperScan m = .ok ret t := hscan
      rw [bind_ok hret]

/-- The steps, one after the other, are what `nvm_cache_module_init` does from `add_disk` on. -/
theorem Idle.steps_init (h : Idle m₀ acc n m) (hmap : SlotsMapped acc n) :
    InitPhase.steps (n.toNat + 5) .addDisk m = (do
      let _ ← nvmCacheFormat
      return .returned (← cacheMapperScan) : Prog InitPhase) m := by
  obtain ⟨ret, t, hrun, ht⟩ := h.format hmap
  have hnext : InitPhase.next .format m = .ok .registerEmpty t := bind_ok hrun
  have hdisk : InitPhase.next .addDisk m = .ok .format m := rfl
  rw [InitPhase.steps, bind_ok hdisk, InitPhase.steps, bind_ok hnext, ht.steps_scan, bind_ok hrun]

end Program

/-- In any interleaving of the initialisation with reads, the reads of recorded LBAs all return the NVM
blocks that the mapping array records exactly when the lower device holds the same data for them. -/
theorem startup_reads_iff {m : Machine} {acc : NvmAccessor} {n : UInt64}
    (h : Idle m acc n m) (hmap : SlotsMapped acc n) (evs : List BootEvent)
    (hevs : ∀ ev ∈ evs, ev.Deliverable) :
    Along BootState.exec (ReadsRecorded m) ⟨.addDisk, m⟩ evs ↔
      Along BootState.exec (LowerMatches m) ⟨.addDisk, m⟩ evs :=
  along_iff (BootState.Inv m acc n) BootEvent.Deliverable (fun _ _ hs hev => hs.exec hmap hev)
    (fun _ _ hs hev => hs.readsRecorded_iff hev) ⟨h, by simp⟩ hevs

/-- A device with one block of ones, recorded for LBA 5, over a lower device of zeros. -/
def recordedFive : Machine :=
  let m := Machine.zeroed ⟨some smallNvm, some ⟨1, some []⟩, initNvmBlkPool 1 Nat.one_pos⟩
  { m with nvm := (Mem.store64 (fun _ => 0xFF) 8192 nvmCacheMagicNumber).store64 8200 5 }

theorem recordedFive_idle : Idle recordedFive smallNvm 1 recordedFive where
  accessor := rfl
  mapper := ⟨[], rfl⟩
  wf := initNvmBlkPool_wf 1 (by decide)
  usedIds_eq := by decide
  bufferVar := by decide
  nvm_eq := rfl
  lowerBdev_eq := rfl

theorem smallNvm_slotsMapped : SlotsMapped smallNvm 1 :=
  ⟨rfl, by decide, by decide, by decide⟩

theorem recordedFive_recorded : recordedFive.Recorded 5 0 :=
  ⟨by decide, by decide, by decide⟩

/-- Wherever the initialisation is, a read of LBA 5 returns zeros. -/
theorem recordedFive_stale {s : BootState} (h : s.Inv recordedFive smallNvm 1)
    (hphase : s.phase ≠ .addDisk) :
    ¬ ReadsRecorded recordedFive s (.read (oneSector .cacheRead 5)) := by
  have hev : (BootEvent.read (oneSector .cacheRead 5)).Deliverable := ⟨rfl, by decide⟩
  rw [h.readsRecorded_iff hev]
  intro hmatch
  have hdata := (hmatch hphase 0 (by decide) 0 recordedFive_recorded).2
  have hbyte := congrFun hdata 0
  exact absurd hbyte (by decide)

/-- A read that comes between `add_disk` and the scan, and one that comes when all is done. -/
theorem first_read_stale :
    ¬ Along BootState.exec (ReadsRecorded recordedFive) ⟨.addDisk, recordedFive⟩
      [.init, .read (oneSector .cacheRead 5)] ∧
    ¬ Along BootState.exec (ReadsRecorded recordedFive) ⟨.addDisk, recordedFive⟩
      [.init, .init, .init, .init, .init, .read (oneSector .cacheRead 5)] := by
  have hstart : BootState.Inv recordedFive smallNvm 1 ⟨.addDisk, recordedFive⟩ :=
    ⟨recordedFive_idle, by simp⟩
  have h₁ := hstart.init smallNvm_slotsMapped
  have h₂ := h₁.init smallNvm_slotsMapped
  have h₃ := h₂.init smallNvm_slotsMapped
  have h₄ := h₃.init smallNvm_slotsMapped
  have h₅ := h₄.init smallNvm_slotsMapped
  constructor
  · rintro ⟨-, hread, -⟩
    exact recordedFive_stale h₁ (by decide) hread
  · rintro ⟨-, -, -, -, -, hread, -⟩
    exact recordedFive_stale h₅ (by decide) hread

theorem startup_reads_iff_recordedFive :
    Along BootState.exec (ReadsRecorded recordedFive) ⟨.addDisk, recordedFive⟩
        [.init, .read (oneSector .cacheRead 7), .init] ↔
      Along BootState.exec (LowerMatches recordedFive) ⟨.addDisk, recordedFive⟩
        [.init, .read (oneSector .cacheRead 7), .init] :=
  startup_reads_iff recordedFive_idle smallNvm_slotsMapped _ (by
    simp [BootEvent.Deliverable, oneSector])

end NvmBlkCache
