import NvmBlkCache.Startup

/-!
# The module as it starts

Of the whole module, from `add_disk` on: with any requests between the steps of the initialisation and
behind them, writes included, nothing gets into the cache. The scan fails, every write stops on a NULL
pointer, and a read is a read of the lower device. (`BootEvent.read` may carry a write here.)
-/
namespace NvmBlkCache
open FaultProgram ByteMemory LabelledRun NvmCacheBlkPool

def BootEvent.isInit : BootEvent → Bool
  | .init => true
  | .read _ => false

namespace InitPhase

/-- The phases, when formatting and scanning go as they do for a device of `n` blocks. -/
def planned (n : UInt64) : InitPhase → InitPhase
  | .addDisk => .format
  | .format => .registerEmpty
  | .registerEmpty => .registerValid
  | .registerValid => .scan 0 n.toNat
  | .scan _ 0 => .returned 0
  | .scan _ (_ + 1) => .returned (-1)
  | .returned ret => .returned ret
  | .stopped => .stopped

theorem planned_done (n : UInt64) {k : ℕ} (hk : 5 ≤ k) :
    (planned n)^[k] .addDisk = .returned (if n.toNat = 0 then 0 else -1) := by
  obtain ⟨j, rfl⟩ := Nat.exists_eq_add_of_le' hk
  have hfive : (planned n)^[5] .addDisk = .returned (if n.toNat = 0 then 0 else -1) := by
    change planned n (.scan 0 n.toNat) = _
    cases hn : n.toNat with
    | zero => rfl
    | succ k => rfl
  rw [Function.iterate_add_apply, hfive]
  exact Function.iterate_fixed rfl j

end InitPhase

namespace Idle
variable {m₀ m : Machine} {acc : NvmAccessor} {n : UInt64} {req : NvmCacheIoReq}

/-- A write gets no further than to its first sector. -/
theorem write_faults (h : Idle m₀ acc n m) (hdir : req.dir = .cacheWrite) (hpos : 0 < req.lbaNum.toNat) :
    ∃ t, nvmCacheHandleIo req m = .error .nullDeref t ∧ Idle m₀ acc n t := by
  have hb : m.blockOf (req.lba + 0) = none := h.blockOf_eq _
  obtain ⟨p, hleft, hround⟩ := writeSector_miss req h.wf hb
  refine ⟨{ m with cache := { m.cache with blkPool := p } }, ?_, h.accessor, h.mapper, hleft.wf,
    hleft.usedIds_eq.trans h.usedIds_eq, h.bufferVar, h.nvm_eq, h.lowerBdev_eq⟩
  obtain ⟨k, hk⟩ := Nat.exists_eq_succ_of_ne_zero hpos.ne'
  rw [nvmCacheHandleIo, hdir]
  change nvmCacheHandleWriteIo req m = _
  rw [nvmCacheHandleWriteIo, hk, bind_error (countUp_error hround)]

theorem write_nothing (hdir : req.dir = .cacheWrite) (hnone : req.lbaNum.toNat = 0) :
    nvmCacheHandleIo req m = .ok 0 m := by
  rw [nvmCacheHandleIo, hdir]
  change nvmCacheHandleWriteIo req m = _
  rw [nvmCacheHandleWriteIo, hnone]
  rfl

theorem write_returns_iff (h : Idle m₀ acc n m) (hdir : req.dir = .cacheWrite) :
    (∃ ret t, nvmCacheHandleIo req m = .ok ret t) ↔ req.lbaNum.toNat = 0 := by
  constructor
  · rintro ⟨ret, t, hok⟩
    by_contra hne
    obtain ⟨t', hstop, -⟩ := h.write_faults hdir (Nat.pos_of_ne_zero hne)
    rw [hok] at hstop
    cases hstop
  · intro hnone
    exact ⟨0, m, write_nothing hdir hnone⟩

/-- However a request ends, the cache is as idle as before. -/
theorem request (h : Idle m₀ acc n m) (req : NvmCacheIoReq) :
    Idle m₀ acc n (stateAfter (nvmCacheHandleIo req m)) := by
  cases hdir : req.dir with
  | cacheRead =>
    obtain ⟨ret, t, hrun, hframe⟩ := readIo_frame req h.wf h.ready.mapper hdir
    rw [hrun, stateAfter_ok]
    exact h.of_frame hframe
  | cacheWrite =>
    by_cases hnone : req.lbaNum.toNat = 0
    · rw [write_nothing hdir hnone, stateAfter_ok]
      exact h
    · obtain ⟨t, hstop, ht⟩ := h.write_faults hdir (Nat.pos_of_ne_zero hnone)
      rw [hstop, stateAfter_error]
      exact ht

end Idle

namespace BootState
variable {m₀ : Machine} {acc : NvmAccessor} {n : UInt64} {s : BootState}

theorem Inv.request (h : Inv m₀ acc n s) (ev : IoEvent) : Inv m₀ acc n (s.exec (.read ev)) := by
  rw [BootState.exec]
  split_ifs with hphase
  · exact h
  · exact ⟨(h.idle.arrive ev).request ev.req, h.scan⟩

theorem exec_request_phase (ev : IoEvent) : (s.exec (.read ev)).phase = s.phase := by
  rw [exec]
  split_ifs <;> rfl

/-- No step of the initialisation faults, and which one comes next does not depend on the requests. -/
theorem Inv.phase_init (h : Inv m₀ acc n s) (hmap : SlotsMapped acc n) :
    (s.exec .init).phase = s.phase.planned n := by
  obtain ⟨phase, m⟩ := s
  have hidle : Idle m₀ acc n m := h.idle
  have hnext : ∀ p t, phase.next m = .ok p t → (BootState.exec ⟨phase, m⟩ .init).phase = p := by
    intro p t hrun
    rw [BootState.exec, hrun]
  cases phase with
  | addDisk => exact hnext _ m rfl
  | format =>
    obtain ⟨ret, t, hrun, -⟩ := hidle.format hmap
    exact hnext _ t (bind_ok hrun)
  | registerEmpty =>
    obtain ⟨t, hrun, -⟩ := hidle.register .buildNvmEmptyBlock
    exact hnext _ t (bind_ok hrun)
  | registerValid =>
    obtain ⟨t, hrun, ht⟩ := hidle.register .buildNvmValidBlock
    obtain ⟨funcs, hm⟩ := ht.mapper
    exact hnext (.scan 0 n.toNat) t ((bind_ok hrun).trans (bind_ok (elementNum_apply hm)))
  | scan blkIndex k =>
    obtain ⟨rfl, rfl⟩ := h.scan blkIndex k rfl
    cases hk : n.toNat with
    | zero =>
      rw [hk] at hnext
      exact hnext (.returned 0) m rfl
    | succ k =>
      obtain ⟨t, hrun, -⟩ := hidle.scan hmap (by omega)
      rw [hk] at hnext
      exact hnext (.returned (-1)) t (bind_ok hrun)
  | returned ret => exact hnext _ m rfl
  | stopped => exact hnext _ m rfl

theorem Inv.run (h : Inv m₀ acc n s) (hmap : SlotsMapped acc n) (evs : List BootEvent) :
    Inv m₀ acc n (LabelledRun.run BootState.exec s evs) ∧
      (LabelledRun.run BootState.exec s evs).phase =
        (InitPhase.planned n)^[evs.countP BootEvent.isInit] s.phase := by
  induction evs generalizing s with
  | nil => exact ⟨h, rfl⟩
  | cons ev evs ih =>
    cases ev with
    | init =>
      obtain ⟨hinv, hphase⟩ := ih (h.init hmap)
      refine ⟨hinv, ?_⟩
      rw [run_cons, hphase, h.phase_init hmap, List.countP_cons_of_pos rfl, Function.iterate_succ_apply]
    | read ev =>
      obtain ⟨hinv, hphase⟩ := ih (h.request ev)
      refine ⟨hinv, ?_⟩
      rw [run_cons, hphase, exec_request_phase, List.countP_cons_of_neg (by simp [BootEvent.isInit])]

end BootState

/-- In any interleaving of the initialisation with requests: NVM and the lower device stay as they were and
the pool empty; the initialisation ends after its five steps, with an error if there is a block to scan. A
write returns only if it writes nothing, and a read that gets its memory has the sectors of the lower device
for which the bio succeeds. -/
theorem startup_passes_through {m : Machine} {acc : NvmAccessor} {n : UInt64} (h : Idle m acc n m)
    (hmap : SlotsMapped acc n) (evs : List BootEvent) :
    let s := run BootState.exec ⟨.addDisk, m⟩ evs
    s.machine.nvm = m.nvm ∧ s.machine.lowerBdev = m.lowerBdev ∧ s.machine.cache.blkPool.usedIds = [] ∧
    (5 ≤ evs.countP BootEvent.isInit → s.phase = .returned (if n.toNat = 0 then 0 else -1)) ∧
    ∀ ev : IoEvent,
      (ev.req.dir = .cacheWrite →
        ((∃ ret t, nvmCacheHandleIo ev.req (s.machine.arrive ev) = .ok ret t) ↔
          ev.req.lbaNum.toNat = 0)) ∧
      (ev.req.dir = .cacheRead → ev.req.lbaNum.toNat * 512 ≤ 2 ^ 64 →
        (∀ j < ev.req.lbaNum.toNat, ev.outcomes.kmalloc.get j ≠ 0) →
        ∃ t, nvmCacheHandleIo ev.req (s.machine.arrive ev) = .ok 0 t ∧ ∀ k < ev.req.lbaNum.toNat,
          sectorOf t.dram (ev.req.target k) =
            if ev.outcomes.bio.get k = .submitted 0 then m.lowerBdev (ev.req.sector k)
            else sectorOf ev.dram (ev.req.target k)) := by
  intro s
  have hstart : BootState.Inv m acc n ⟨.addDisk, m⟩ := ⟨h, by simp⟩
  obtain ⟨hinv, hphase⟩ := hstart.run hmap evs
  refine ⟨hinv.idle.nvm_eq, hinv.idle.lowerBdev_eq, hinv.idle.usedIds_eq, fun hfive => ?_, fun ev => ?_⟩
  · rw [← InitPhase.planned_done n hfive]
    exact hphase
  · have hidle := hinv.idle.arrive ev
    exact ⟨fun hdir => hidle.write_returns_iff hdir, fun hdir hfit hmem => hidle.read_data hdir hfit hmem⟩

/-- A write of LBA 5, which NVM has a block for, between the steps and after them. -/
theorem startup_passes_through_recordedFive :
    let s := run BootState.exec ⟨.addDisk, recordedFive⟩
      [.init, .read (oneSector .cacheWrite 5), .init, .init, .init, .init]
    s.machine.nvm = recordedFive.nvm ∧ s.phase = .returned (-1) ∧
      ¬ ∃ ret t, nvmCacheHandleIo (oneSector .cacheWrite 5).req
        (s.machine.arrive (oneSector .cacheWrite 5)) = .ok ret t := by
  obtain ⟨hnvm, -, -, hphase, hreq⟩ := startup_passes_through recordedFive_idle smallNvm_slotsMapped
    [.init, .read (oneSector .cacheWrite 5), .init, .init, .init, .init]
  refine ⟨hnvm, hphase (by decide), fun hret => ?_⟩
  exact absurd (((hreq (oneSector .cacheWrite 5)).1 rfl).mp hret) (by decide)

end NvmBlkCache
