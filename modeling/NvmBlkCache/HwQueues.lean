import NvmBlkCache.BlockRequestData

/-!
# Requests of several hardware queues

`nvm_cache_queue_rq` is called for each hardware queue on its own and takes no lock, so requests of
different queues are in work at the same time. The rounds of their loops come in any order; what happens
within one round is one step here. Each round is one access of the flat device in that order.
-/
namespace NvmBlkCache
open FaultProgram ByteMemory LabelledRun FlatDevice

/-- What a queue is at: `serving req k` is the loop for `req` with `lba_offset` at `k`. -/
inductive QueueWork
  | idle
  | serving (req : NvmCacheIoReq) (lbaOffset : ℕ)
  | oopsed

structure HwQueues where
  machine : Machine
  work : ℕ → QueueWork

/-- A caller hands a request to a queue, with what DRAM holds by then, or a queue goes on by one round. -/
inductive Turn
  | submit (queue : ℕ) (req : NvmCacheIoReq) (dram : Mem)
  | round (queue : ℕ)

def Turn.submitsTo (queue : ℕ) : Turn → Bool
  | .submit queue' _ _ => queue' == queue
  | .round _ => false

def Turn.goesOn (queue : ℕ) : Turn → Bool
  | .submit _ _ _ => false
  | .round queue' => queue' == queue

namespace HwQueues

def setWork (s : HwQueues) (m : Machine) (queue : ℕ) (w : QueueWork) : HwQueues :=
  ⟨m, Function.update s.work queue w⟩

def exec (s : HwQueues) : Turn → HwQueues
  | .submit queue req dram => s.setWork { s.machine with dram := dram } queue (.serving req 0)
  | .round queue =>
    match s.work queue with
    | .serving req lbaOffset =>
      if lbaOffset < req.lbaNum.toNat then
        match serveSector req (UInt64.ofNat lbaOffset) s.machine with
        | .ok none m => s.setWork m queue (.serving req (lbaOffset + 1))
        | .ok (some _) m => s.setWork m queue .idle
        | .error _ m => s.setWork m queue .oopsed
      else s.setWork s.machine queue .idle
    | _ => s

/-- Sector `k` of a request. -/
def sectorIo (req : NvmCacheIoReq) (k : ℕ) : SectorIo := ⟨req.sector k, req.target k, req.dir⟩

/-- The access of the flat device that a turn is. -/
def accessOf (s : HwQueues) : Turn → List (Access LbaType Sector)
  | .submit _ _ _ => []
  | .round queue =>
    match s.work queue with
    | .serving req lbaOffset =>
      if lbaOffset < req.lbaNum.toNat then [(sectorIo req lbaOffset).access s.machine.dram] else []
    | _ => []

def accesses (s : HwQueues) : List Turn → List (Access LbaType Sector)
  | [] => []
  | turn :: turns => s.accessOf turn ++ accesses (s.exec turn) turns

def InBuffer (req : NvmCacheIoReq) (a : Addr) : Prop :=
  InWindow req.buffer (req.lbaNum.toNat * 512) a

/-- Two requests may be in work together: a buffer that is read into is nobody else's. -/
def Compatible (req req' : NvmCacheIoReq) : Prop :=
  req.dir = .cacheRead ∨ req'.dir = .cacheRead → ∀ a, InBuffer req a → ¬ InBuffer req' a

/-- The buffer does not begin at NULL and ends within the address space, and what is to be written is
cached. -/
structure Acceptable (m : Machine) (req : NvmCacheIoReq) : Prop where
  nonNull : req.buffer ≠ 0
  ends : req.buffer.toNat + req.lbaNum.toNat * 512 ≤ 2 ^ 64
  known : req.dir = .cacheWrite → ¬ m.HasMiss req

/-- What the block layer keeps to: a queue has one request at a time, the buffers in work are compatible,
and nobody else touches them meanwhile. -/
def Allowed (s : HwQueues) : Turn → Prop
  | .submit queue req dram =>
    s.work queue = .idle ∧ Acceptable s.machine req ∧
    ∀ queue' req' k, s.work queue' = .serving req' k →
      Compatible req req' ∧ ∀ a, InBuffer req' a → dram a = s.machine.dram a
  | .round _ => True

end HwQueues

section Round
variable {m t : Machine} {req : NvmCacheIoReq} {k : ℕ}

/-- A round needs nothing of its request but the sector. -/
theorem serveSector_eq (req : NvmCacheIoReq) (k : ℕ) :
    serveSector req (UInt64.ofNat k) = serveSector (HwQueues.sectorIo req k).ioReq 0 := by
  have hlba : (HwQueues.sectorIo req k).ioReq.lba + 0 = req.lba + UInt64.ofNat k := UInt64.add_zero _
  have hbuffer : (HwQueues.sectorIo req k).ioReq.buffer + 0 * cacheBlockSize =
      req.buffer + UInt64.ofNat k * cacheBlockSize := by
    rw [UInt64.zero_mul, UInt64.add_zero]
    rfl
  have hdir : (HwQueues.sectorIo req k).ioReq.dir = req.dir := rfl
  cases hd : req.dir with
  | cacheRead => simp only [serveSector, readSector, hlba, hbuffer, hdir, hd]
  | cacheWrite => simp only [serveSector, writeSector, writeBack, hlba, hbuffer, hdir, hd]

/-- A request for one sector that returns 0 has gone through its one round. -/
theorem serveSector_of_handleIo {s : SectorIo} (h : nvmCacheHandleIo s.ioReq m = .ok 0 t) :
    serveSector s.ioReq 0 m = .ok none t := by
  rw [nvmCacheHandleIo_eq, show s.ioReq.lbaNum.toNat = 1 from rfl] at h
  cases hround : serveSector s.ioReq 0 m with
  | error e t' =>
    rw [ioLoop, bind_error (countUp_error hround)] at h
    cases h
  | ok a t' =>
    cases a with
    | none =>
      rw [ioLoop, bind_ok ((countUp_next hround).trans (countUp_zero _ _))] at h
      rw [(EStateM.Result.ok.inj h).2]
    | some ret =>
      rw [ioLoop, bind_ok (countUp_return hround)] at h
      have hret : ret = 0 := (EStateM.Result.ok.inj h).1
      exact absurd (congrArg some hret) (serveSector_nonzero s.ioReq 0 _ _ _ hround)

theorem Machine.Placed.serves_round {mapping : NvmMapping} (h : m.Placed mapping)
    (ho : m.outcomes.Succeed) (hfits : (HwQueues.sectorIo req k).Fits)
    (hknown : (HwQueues.sectorIo req k).Known m) :
    ∃ t, serveSector req (UInt64.ofNat k) m = .ok none t ∧
      SectorServed m (HwQueues.sectorIo req k) t := by
  obtain ⟨t, he, hserved⟩ := h.serves_sector ho hfits hknown
  exact ⟨t, (serveSector_eq req k ▸ serveSector_of_handleIo he), hserved⟩

end Round

namespace HwQueues
variable {s : HwQueues} {m t : Machine} {mapping : NvmMapping} {req req' : NvmCacheIoReq}
  {queue k j : ℕ}

@[simp] theorem setWork_machine (w : QueueWork) : (s.setWork m queue w).machine = m := rfl

@[simp] theorem setWork_self (w : QueueWork) : (s.setWork m queue w).work queue = w := by
  simp [setWork]

theorem setWork_of_ne {queue' : ℕ} (h : queue' ≠ queue) (w : QueueWork) :
    (s.setWork m queue w).work queue' = s.work queue' := by
  simp [setWork, h]

namespace Acceptable

theorem of_eq (h : Acceptable m req) (hcache : t.cache = m.cache) : Acceptable t req where
  nonNull := h.nonNull
  ends := h.ends
  known := by
    unfold Machine.HasMiss Machine.blockOf
    rw [hcache]
    exact h.known

theorem target_toNat (h : Acceptable m req) (hk : k < req.lbaNum.toNat) :
    (req.target k).toNat = req.buffer.toNat + k * 512 := by
  have hends := h.ends
  have hlt := req.lbaNum.toNat_lt
  unfold NvmCacheIoReq.target
  rw [UInt64.toNat_add, UInt64.toNat_mul, UInt64.toNat_ofNat', show cacheBlockSize.toNat = 512 from rfl]
  omega

theorem fits (h : Acceptable m req) (hk : k < req.lbaNum.toNat) : (sectorIo req k).Fits where
  nonNull := by
    intro hzero
    have hto := h.target_toNat hk
    have hpos : req.buffer.toNat ≠ 0 := fun h0 => h.nonNull (UInt64.toNat_inj.mp h0)
    rw [show req.target k = 0 from hzero, UInt64.toNat_zero] at hto
    omega
  ends := by
    have hends := h.ends
    change (req.target k).toNat + 512 ≤ 2 ^ 64
    rw [h.target_toNat hk]
    omega

theorem knownSector (h : Acceptable m req) (hk : k < req.lbaNum.toNat) : (sectorIo req k).Known m :=
  fun hdir hb => h.known hdir ⟨k, hk, hb⟩

theorem inBuffer (h : Acceptable m req) (hk : k < req.lbaNum.toNat) {a : Addr}
    (ha : InWindow (req.target k) 512 a) : InBuffer req a :=
  target_inWindow hk ((Nat.le_add_left _ _).trans h.ends) ha

theorem targets_apart (h : Acceptable m req) (hj : j < k) (hk : k < req.lbaNum.toNat) :
    Apart (req.target k) 512 (req.target j) 512 := by
  have hends := h.ends
  exact NvmBlkCache.targets_apart hj (by omega)

end Acceptable

/-- Whatever is in work is acceptable and compatible with the rest, and no queue has oopsed. -/
structure Orderly (mapping : NvmMapping) (s : HwQueues) : Prop where
  placed : s.machine.Placed mapping
  succeed : s.machine.outcomes.Succeed
  acceptable : ∀ queue req k, s.work queue = .serving req k →
    k ≤ req.lbaNum.toNat ∧ Acceptable s.machine req
  compatible : ∀ queue queue' req k req' k', queue ≠ queue' → s.work queue = .serving req k →
    s.work queue' = .serving req' k' → Compatible req req'
  running : ∀ queue, s.work queue ≠ .oopsed

/-- A round of a queue: it serves the next sector, or the queue has nothing to serve any more. -/
inductive RoundDone (s : HwQueues) (queue : ℕ) : Prop
  | served (req : NvmCacheIoReq) (k : ℕ) (m : Machine) (work : s.work queue = .serving req k)
      (more : k < req.lbaNum.toNat) (sector : SectorServed s.machine (sectorIo req k) m)
      (exec : s.exec (.round queue) = s.setWork m queue (.serving req (k + 1)))
      (access : s.accessOf (.round queue) = [(sectorIo req k).access s.machine.dram])
  | finished (exec : s.exec (.round queue) = s.setWork s.machine queue .idle)
      (access : s.accessOf (.round queue) = [])

theorem Orderly.round_done (h : s.Orderly mapping) (queue : ℕ) : s.RoundDone queue := by
  cases hw : s.work queue with
  | idle =>
    apply RoundDone.finished
    · have hidle : s.setWork s.machine queue .idle = s := by
        unfold setWork
        rw [← hw, Function.update_eq_self]
      rw [hidle, HwQueues.exec, hw]
    · rw [accessOf, hw]
  | oopsed => exact absurd hw (h.running queue)
  | serving req k =>
    obtain ⟨-, hok⟩ := h.acceptable queue req k hw
    by_cases hk : k < req.lbaNum.toNat
    · obtain ⟨m, hrun, hserved⟩ := h.placed.serves_round h.succeed (hok.fits hk) (hok.knownSector hk)
      refine .served req k m hw hk hserved ?_ ?_
      · rw [HwQueues.exec, hw]
        simp only [if_pos hk, hrun]
      · rw [accessOf, hw]
        simp only [if_pos hk]
    · apply RoundDone.finished
      · rw [HwQueues.exec, hw]
        simp only [if_neg hk]
      · rw [accessOf, hw]
        simp only [if_neg hk]

namespace Orderly

/-- A queue whose work is replaced, with the machine changed in what does not matter to the others. -/
theorem setWork (h : s.Orderly mapping) (hcache : m.cache = s.machine.cache)
    (ho : m.outcomes.Succeed) {w : QueueWork} (hw : w ≠ .oopsed)
    (hnew : ∀ req k, w = .serving req k → k ≤ req.lbaNum.toNat ∧ Acceptable s.machine req ∧
      ∀ queue' req' k', queue' ≠ queue → s.work queue' = .serving req' k' → Compatible req req') :
    (s.setWork m queue w).Orderly mapping where
  placed := h.placed.of_eq hcache
  succeed := ho
  acceptable := by
    intro q req k hq
    by_cases hqq : q = queue
    · subst hqq
      rw [setWork_self] at hq
      exact ⟨(hnew req k hq).1, (hnew req k hq).2.1.of_eq hcache⟩
    · rw [setWork_of_ne hqq] at hq
      exact ⟨(h.acceptable q req k hq).1, (h.acceptable q req k hq).2.of_eq hcache⟩
  compatible := by
    intro q q' req k req' k' hne hq hq'
    by_cases hqq : q = queue
    · subst hqq
      rw [setWork_self] at hq
      rw [setWork_of_ne hne.symm] at hq'
      exact (hnew req k hq).2.2 q' req' k' hne.symm hq'
    · rw [setWork_of_ne hqq] at hq
      by_cases hqq' : q' = queue
      · subst hqq'
        rw [setWork_self] at hq'
        have hcomp := (hnew req' k' hq').2.2 q req k hqq hq
        exact fun hread a ha ha' => hcomp hread.symm a ha' ha
      · rw [setWork_of_ne hqq'] at hq'
        exact h.compatible q q' req k req' k' hne hq hq'
  running := by
    intro q
    by_cases hqq : q = queue
    · subst hqq
      rwa [setWork_self]
    · rw [setWork_of_ne hqq]
      exact h.running q

theorem exec_turn (h : s.Orderly mapping) {turn : Turn} (hall : s.Allowed turn) :
    (s.exec turn).Orderly mapping := by
  cases turn with
  | submit queue req dram =>
    obtain ⟨-, hok, hothers⟩ := hall
    refine h.setWork (m := { s.machine with dram := dram }) (w := .serving req 0) rfl h.succeed
      nofun ?_
    rintro req₀ k₀ ⟨⟩
    exact ⟨Nat.zero_le _, hok, fun q' req' k' _ hq' => (hothers q' req' k' hq').1⟩
  | round queue =>
    cases h.round_done queue with
    | served req k m hw hk hserved hexec =>
      rw [hexec]
      refine h.setWork (w := .serving req (k + 1)) hserved.cache_eq hserved.outcomes nofun ?_
      rintro req₀ k₀ ⟨⟩
      exact ⟨hk, (h.acceptable queue req k hw).2,
        fun q' req' k' hne hq' => h.compatible queue q' req k req' k' hne.symm hw hq'⟩
    | finished hexec =>
      rw [hexec]
      exact h.setWork rfl h.succeed nofun nofun

theorem run_turns (h : s.Orderly mapping) {turns : List Turn} (hall : Along exec Allowed s turns) :
    (run exec s turns).Orderly mapping :=
  run_invariant (Orderly mapping) (fun _ _ ht hturn => ht.exec_turn hturn) h hall

end Orderly

theorem Orderly.kept (h : s.Orderly mapping) (turn : Turn) :
    (s.exec turn).machine.dataAt = run step s.machine.dataAt (s.accessOf turn) ∧
      (s.exec turn).machine.cache = s.machine.cache ∧
      (s.exec turn).machine.lowerBdev = s.machine.lowerBdev := by
  cases turn with
  | submit queue req dram => exact ⟨rfl, rfl, rfl⟩
  | round queue =>
    cases h.round_done queue with
    | served req k m hw hk hserved hexec haccess =>
      rw [hexec, haccess]
      exact ⟨hserved.dataAt_eq, hserved.cache_eq, hserved.lowerBdev_eq⟩
    | finished hexec haccess =>
      rw [hexec, haccess]
      exact ⟨rfl, rfl, rfl⟩

theorem Orderly.run_kept (h : s.Orderly mapping) {turns : List Turn} (hall : Along exec Allowed s turns) :
    (run exec s turns).machine.dataAt = run step s.machine.dataAt (s.accesses turns) ∧
      (run exec s turns).machine.cache = s.machine.cache ∧
      (run exec s turns).machine.lowerBdev = s.machine.lowerBdev := by
  induction turns generalizing s with
  | nil => exact ⟨rfl, rfl, rfl⟩
  | cons turn turns ih =>
    obtain ⟨hdata, hcache, hlower⟩ := h.kept turn
    obtain ⟨hdata', hcache', hlower'⟩ := ih (h.exec_turn hall.1) hall.2
    refine ⟨?_, hcache'.trans hcache, hlower'.trans hlower⟩
    rw [run_cons, hdata', hdata, accesses, run_append]

section History

/-- The queue has gone on by `k` rounds since it was handed the request, and what the request writes is
still in its buffer. -/
def Handed (s : HwQueues) (turns : List Turn) (queue : ℕ) (req : NvmCacheIoReq) (k : ℕ) : Prop :=
  ∃ before dram after, turns = before ++ .submit queue req dram :: after ∧
    after.countP (Turn.submitsTo queue) = 0 ∧ after.countP (Turn.goesOn queue) = k ∧
    (req.dir = .cacheWrite → ∀ a, InBuffer req a → (run exec s turns).machine.dram a = dram a)

/-- Sector `j` of the request is in its buffer as the last write before the sector's own round left it. -/
def Delivered (s : HwQueues) (turns : List Turn) (queue : ℕ) (req : NvmCacheIoReq) (j : ℕ) : Prop :=
  ∃ before after, turns = before ++ .round queue :: after ∧
    after.countP (Turn.submitsTo queue) = 0 ∧ (run exec s before).work queue = .serving req j ∧
    sectorOf (run exec s turns).machine.dram (req.target j) =
      (lastWritten (req.sector j) (s.accesses before)).getD (s.machine.dataAt (req.sector j))

/-- What is known of the requests in work. -/
def History (s : HwQueues) (turns : List Turn) : Prop :=
  ∀ queue req k, (run exec s turns).work queue = .serving req k →
    Handed s turns queue req k ∧ (req.dir = .cacheRead → ∀ j < k, Delivered s turns queue req j)

variable {turns : List Turn} {turn : Turn}

theorem run_append_singleton (s : HwQueues) (turns : List Turn) (turn : Turn) :
    run exec s (turns ++ [turn]) = (run exec s turns).exec turn := run_append s turns [turn]

theorem Handed.append (h : Handed s turns queue req k) (hother : turn.submitsTo queue = false)
    (hdram : req.dir = .cacheWrite → ∀ a, InBuffer req a →
      ((run exec s turns).exec turn).machine.dram a = (run exec s turns).machine.dram a) :
    Handed s (turns ++ [turn]) queue req (k + if turn.goesOn queue then 1 else 0) := by
  obtain ⟨before, dram, after, rfl, hsubmits, hrounds, hbuffer⟩ := h
  refine ⟨before, dram, after ++ [turn], by simp, ?_, ?_, fun hdir a ha => ?_⟩
  · simp [List.countP_append, hsubmits, hother]
  · rw [List.countP_append, hrounds, List.countP_singleton]
  · rw [run_append_singleton, hdram hdir a ha, hbuffer hdir a ha]

theorem Delivered.append (h : Delivered s turns queue req j) (hother : turn.submitsTo queue = false)
    (hdram : ∀ a, InWindow (req.target j) 512 a →
      ((run exec s turns).exec turn).machine.dram a = (run exec s turns).machine.dram a) :
    Delivered s (turns ++ [turn]) queue req j := by
  obtain ⟨before, after, rfl, hsubmits, hwork, hread⟩ := h
  refine ⟨before, after ++ [turn], by simp, ?_, hwork, ?_⟩
  · simp [List.countP_append, hsubmits, hother]
  · rw [run_append_singleton, sectorOf_congr hdram, hread]

/-- A turn that is not the queue's own and leaves its buffer alone. -/
theorem History.frame (h : History s turns) (ht : (run exec s turns).Orderly mapping)
    (hwork : (run exec s turns).work queue = .serving req k) (hother : turn.submitsTo queue = false)
    (hround : turn.goesOn queue = false) (hdram : ∀ a, InBuffer req a →
      ((run exec s turns).exec turn).machine.dram a = (run exec s turns).machine.dram a) :
    Handed s (turns ++ [turn]) queue req k ∧
      (req.dir = .cacheRead → ∀ j < k, Delivered s (turns ++ [turn]) queue req j) := by
  obtain ⟨hhanded, hread⟩ := h queue req k hwork
  obtain ⟨hk, hok⟩ := ht.acceptable queue req k hwork
  constructor
  · have hnext := hhanded.append hother fun _ => hdram
    rwa [hround, if_neg Bool.false_ne_true, Nat.add_zero] at hnext
  · intro hdir j hj
    exact (hread hdir j hj).append hother fun a ha => hdram a (hok.inBuffer (hj.trans_le hk) ha)

theorem History.submit {dram : Mem} (h : History s turns) (ht : (run exec s turns).Orderly mapping)
    (hall : (run exec s turns).Allowed (.submit queue req dram)) :
    History s (turns ++ [.submit queue req dram]) := by
  obtain ⟨-, -, hothers⟩ := hall
  intro queue' req' k' hq
  rw [run_append_singleton, exec] at hq
  by_cases hqq : queue' = queue
  · subst hqq
    rw [setWork_self] at hq
    cases hq
    refine ⟨⟨turns, dram, [], rfl, rfl, rfl, fun _ a _ => ?_⟩,
      fun _ j hj => absurd hj (Nat.not_lt_zero j)⟩
    rw [run_append_singleton]
    rfl
  · rw [setWork_of_ne hqq] at hq
    exact h.frame ht hq (beq_false_of_ne (Ne.symm hqq)) rfl (hothers queue' req' k' hq).2

/-- The round that serves sector `k` reads what the device holds by then, and the next rounds of the
request are for other bytes. -/
theorem History.served (h : History s turns) (ht : (run exec s turns).Orderly mapping)
    (hdata : (run exec s turns).machine.dataAt = run step s.machine.dataAt (s.accesses turns))
    (hwork : (run exec s turns).work queue = .serving req k) (hk : k < req.lbaNum.toNat)
    (hserved : SectorServed (run exec s turns).machine (sectorIo req k) m)
    (hexec : (run exec s turns).exec (.round queue) =
      (run exec s turns).setWork m queue (.serving req (k + 1))) :
    History s (turns ++ [.round queue]) := by
  have hok := (ht.acceptable queue req k hwork).2
  have hmachine : ((run exec s turns).exec (.round queue)).machine = m := by rw [hexec, setWork_machine]
  intro queue' req' k' hq
  rw [run_append_singleton, hexec] at hq
  by_cases hqq : queue' = queue
  · subst hqq
    rw [setWork_self] at hq
    cases hq
    obtain ⟨hhanded, hread⟩ := h queue' req k hwork
    constructor
    · have hown : (Turn.round queue').submitsTo queue' = false := rfl
      have hnext := hhanded.append hown fun hdir a _ => by
        rw [hmachine]
        refine hserved.dram_outside a fun hread => ?_
        rw [show req.dir = _ from hread] at hdir
        cases hdir
      rwa [Turn.goesOn, beq_self_eq_true, if_pos rfl] at hnext
    · intro hdir j hj
      by_cases hjk : j = k
      · subst hjk
        refine ⟨turns, [], rfl, rfl, hwork, ?_⟩
        rw [run_append_singleton, hmachine, ← run_step, ← hdata]
        exact hserved.delivered hdir
      · have hlt : j < k := by omega
        refine (hread hdir j hlt).append rfl fun a ha => ?_
        rw [hmachine]
        exact hserved.dram_outside a fun _ hin => hok.targets_apart hlt hk a hin ha
  · rw [setWork_of_ne hqq] at hq
    refine h.frame ht hq rfl (beq_false_of_ne (Ne.symm hqq)) fun a ha => ?_
    rw [hmachine]
    have hcomp := ht.compatible queue queue' req k req' k' (Ne.symm hqq) hwork hq
    exact hserved.dram_outside a fun hdir hin => hcomp (Or.inl hdir) a (hok.inBuffer hk hin) ha

theorem History.append (h : History s turns) (ht : (run exec s turns).Orderly mapping)
    (hdata : (run exec s turns).machine.dataAt = run step s.machine.dataAt (s.accesses turns))
    (hall : (run exec s turns).Allowed turn) : History s (turns ++ [turn]) := by
  cases turn with
  | submit queue req dram => exact h.submit ht hall
  | round queue =>
    cases ht.round_done queue with
    | served req k m hwork hk hserved hexec => exact h.served ht hdata hwork hk hserved hexec
    | finished hexec =>
      intro queue' req' k' hq
      rw [run_append_singleton, hexec] at hq
      by_cases hqq : queue' = queue
      · subst hqq
        rw [setWork_self] at hq
        cases hq
      · rw [setWork_of_ne hqq] at hq
        exact h.frame ht hq rfl (beq_false_of_ne (Ne.symm hqq)) fun a _ => by rw [hexec, setWork_machine]

theorem Orderly.history (h : s.Orderly mapping) (hidle : ∀ queue, s.work queue = .idle)
    (hall : Along exec Allowed s turns) : History s turns := by
  induction turns using List.reverseRecOn with
  | nil =>
    intro queue req k hq
    rw [run_nil, hidle] at hq
    cases hq
  | append_singleton turns turn ih =>
    rw [along_append] at hall
    exact (ih hall.1).append (h.run_turns hall.1) (h.run_kept hall.1).1 hall.2.1

end History

theorem Orderly.of_idle (h : s.machine.Placed mapping) (ho : s.machine.outcomes.Succeed)
    (hidle : ∀ queue, s.work queue = .idle) : s.Orderly mapping where
  placed := h
  succeed := ho
  acceptable := by
    intro queue req k hq
    rw [hidle] at hq
    cases hq
  compatible := by
    intro queue queue' req k req' k' _ hq
    rw [hidle] at hq
    cases hq
  running := by
    intro queue hq
    rw [hidle] at hq
    cases hq

end HwQueues

/-- However the rounds of the queues come, no queue oopses and the cache stays as it is; a sector holds
what the last write to it wrote. A request in work has had one round for each of its sectors so far,
what it writes is what it was handed over with, and what it has read is what the last write before the
round of the sector wrote. -/
theorem queues_interleave {s : HwQueues} {mapping : NvmMapping} {turns : List Turn}
    (h : s.machine.Placed mapping) (ho : s.machine.outcomes.Succeed)
    (hidle : ∀ queue, s.work queue = .idle) (hall : Along HwQueues.exec HwQueues.Allowed s turns) :
    let t := run HwQueues.exec s turns
    (t.machine.dataAt = fun l => (lastWritten l (s.accesses turns)).getD (s.machine.dataAt l)) ∧
    t.machine.cache = s.machine.cache ∧ t.machine.lowerBdev = s.machine.lowerBdev ∧
    (∀ queue, t.work queue ≠ .oopsed) ∧
    ∀ queue req k, t.work queue = .serving req k → k ≤ req.lbaNum.toNat ∧
      HwQueues.Handed s turns queue req k ∧
      (req.dir = .cacheRead → ∀ j < k, HwQueues.Delivered s turns queue req j) := by
  have hs := HwQueues.Orderly.of_idle h ho hidle
  have ht := hs.run_turns hall
  obtain ⟨hdata, hcache, hlower⟩ := hs.run_kept hall
  refine ⟨?_, hcache, hlower, ht.running, fun queue req k hq => ?_⟩
  · funext l
    rw [hdata, run_step]
  · exact ⟨(ht.acceptable queue req k hq).1, hs.history hidle hall queue req k hq⟩

/-- One queue reads two sectors, the first of which another writes meanwhile. -/
def readAcrossWrite : List Turn :=
  [.submit 0 ⟨5, 2, 0x9000, .cacheRead⟩ oneCached.dram,
    .submit 1 ⟨5, 1, 0x8000, .cacheWrite⟩ oneCached.dram, .round 1, .round 0, .round 1, .round 0]

theorem queues_interleave_readAcrossWrite :
    let s : HwQueues := ⟨oneCached, fun _ => .idle⟩
    (run HwQueues.exec s readAcrossWrite).machine.dataAt =
      (fun l => (lastWritten l (s.accesses readAcrossWrite)).getD (oneCached.dataAt l)) ∧
    ∀ queue, (run HwQueues.exec s readAcrossWrite).work queue ≠ .oopsed := by
  intro s
  have hall : Along HwQueues.exec HwQueues.Allowed s readAcrossWrite := by
    refine ⟨⟨rfl, ⟨by decide, by decide, nofun⟩, nofun⟩,
      ⟨rfl, ⟨by decide, by decide, fun _ => ?_⟩, ?_⟩, trivial, trivial, trivial, trivial, trivial⟩
    · exact oneCached_knows
    · intro queue' req' k hq
      refine ⟨fun _ => ?_, fun _ _ => rfl⟩
      by_cases h0 : queue' = 0
      · subst h0
        cases hq
        exact apart_of_toNat_le (by decide) (by decide)
      · rw [HwQueues.exec, HwQueues.setWork_of_ne h0] at hq
        cases hq
  obtain ⟨hdata, -, -, hrunning, -⟩ :=
    queues_interleave (s := s) oneCached_placed oneCached_succeed (fun _ => rfl) hall
  exact ⟨hdata, hrunning⟩

end NvmBlkCache
