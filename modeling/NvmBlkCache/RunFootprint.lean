import NvmBlkCache.IoRun

/-!
# What runs change

However many requests come, in whatever order and with whatever failures: no sector enters the cache and
none leaves it, and the lower device is never written. What does change is the contents of the blocks that
are written, and the queue, which is one block shorter for each write that meets an unknown sector.
-/
namespace NvmBlkCache
open FaultProgram ByteMemory LabelledRun NvmCacheBlkPool

namespace Machine

instance (m : Machine) (req : NvmCacheIoReq) : Decidable (m.HasMiss req) :=
  inferInstanceAs (Decidable (∃ k < req.lbaNum.toNat, m.blockOf (req.sector k) = none))

/-- A write that has to serve a sector which the pool does not know. -/
def MissedWrite (m : Machine) (ev : IoEvent) : Prop := ev.req.dir = .cacheWrite ∧ m.HasMiss ev.req

instance (m : Machine) (ev : IoEvent) : Decidable (m.MissedWrite ev) :=
  inferInstanceAs (Decidable (_ ∧ _))

def missedWrites (m : Machine) (evs : List IoEvent) : ℕ := evs.countP fun ev => m.MissedWrite ev

/-- The byte lies in the block of a sector that the request writes. -/
def MayWrite (m : Machine) (ev : IoEvent) (a : Addr) : Prop :=
  ev.req.dir = .cacheWrite ∧ ∃ k < ev.req.lbaNum.toNat, ∃ id, m.blockOf (ev.req.sector k) = some id ∧
    m.blockVaddr id ≠ 0 ∧ InWindow (m.blockVaddr id) 512 a

theorem blockVaddr_congr {m t : Machine} (hacc : t.cache.accessor = m.cache.accessor)
    (hmapper : t.cache.mapper = m.cache.mapper) : t.blockVaddr = m.blockVaddr := by
  unfold blockVaddr elements
  rw [hacc, hmapper]

end Machine

/-- What the requests leave of `m`. -/
structure Footprint (m : Machine) (evs : List IoEvent) (t : Machine) : Prop where
  accessor_eq : t.cache.accessor = m.cache.accessor
  mapper_eq : t.cache.mapper = m.cache.mapper
  lowerBdev_eq : t.lowerBdev = m.lowerBdev
  usedIds_eq : t.cache.blkPool.usedIds = m.cache.blkPool.usedIds
  blockOf_eq : t.blockOf = m.blockOf
  emptyIds_eq : t.cache.blkPool.emptyIds = m.cache.blkPool.emptyIds.drop (m.missedWrites evs)
  untouched : ∀ a, (∀ ev ∈ evs, ¬ m.MayWrite ev a) → t.nvm a = m.nvm a

namespace Footprint
variable {m t : Machine} {evs : List IoEvent} {ev : IoEvent}

theorem hasMiss_iff (h : Footprint m evs t) (req : NvmCacheIoReq) : t.HasMiss req ↔ m.HasMiss req := by
  unfold Machine.HasMiss
  rw [h.blockOf_eq]

theorem blockVaddr_eq (h : Footprint m evs t) : t.blockVaddr = m.blockVaddr :=
  Machine.blockVaddr_congr h.accessor_eq h.mapper_eq

/-- A write that misses takes a block, if there is one to take. -/
theorem emptyIds_step (h : Footprint m evs t) (he : Executed t ev (ev.exec t)) :
    (ev.exec t).cache.blkPool.emptyIds =
      m.cache.blkPool.emptyIds.drop (m.missedWrites (evs ++ [ev])) := by
  have hcount : m.missedWrites (evs ++ [ev]) =
      m.missedWrites evs + if m.MissedWrite ev then 1 else 0 := by
    unfold Machine.missedWrites
    rw [List.countP_append, List.countP_singleton]
    simp
  have htakes : t.TakesBlock ev ↔ m.MissedWrite ev ∧ t.cache.blkPool.emptyIds ≠ [] := by
    unfold Machine.TakesBlock Machine.MissedWrite
    rw [h.hasMiss_iff, and_assoc]
  by_cases hmissed : m.MissedWrite ev
  · rw [hcount, if_pos hmissed, ← List.tail_drop, ← h.emptyIds_eq]
    by_cases hnil : t.cache.blkPool.emptyIds = []
    · have hkept := he.emptyIds_kept fun ht => (htakes.mp ht).2 hnil
      rw [hkept, hnil, List.tail_nil]
    · exact he.emptyIds_lost (htakes.mpr ⟨hmissed, hnil⟩)
  · rw [hcount, if_neg hmissed, Nat.add_zero, ← h.emptyIds_eq]
    exact he.emptyIds_kept fun ht => hmissed (htakes.mp ht).1

theorem untouched_step (h : Footprint m evs t) (he : Executed t ev (ev.exec t)) {a : Addr}
    (ha : ∀ e ∈ evs ++ [ev], ¬ m.MayWrite e a) : (ev.exec t).nvm a = m.nvm a := by
  rw [List.forall_mem_append] at ha
  rw [← h.untouched a ha.1]
  have hev : ¬ m.MayWrite ev a := ha.2 ev (by simp)
  cases hdir : ev.req.dir with
  | cacheRead => rw [he.read_nvm hdir]
  | cacheWrite =>
    apply he.untouched
    intro k hk id hb hv hin
    rw [h.blockOf_eq] at hb
    rw [h.blockVaddr_eq] at hv hin
    exact hev ⟨hdir, k, hk, id, hb, hv, hin⟩

theorem step (h : Footprint m evs t) (he : Executed t ev (ev.exec t)) :
    Footprint m (evs ++ [ev]) (ev.exec t) where
  accessor_eq := he.accessor_eq.trans h.accessor_eq
  mapper_eq := he.mapper_eq.trans h.mapper_eq
  lowerBdev_eq := he.lowerBdev_eq.trans h.lowerBdev_eq
  usedIds_eq := he.usedIds_eq.trans h.usedIds_eq
  blockOf_eq := he.blockOf_eq.trans h.blockOf_eq
  emptyIds_eq := h.emptyIds_step he
  untouched := fun _ ha => h.untouched_step he ha

theorem start (m : Machine) : Footprint m [] m where
  accessor_eq := rfl
  mapper_eq := rfl
  lowerBdev_eq := rfl
  usedIds_eq := rfl
  blockOf_eq := rfl
  emptyIds_eq := rfl
  untouched := fun _ _ => rfl

theorem run (h : m.Ready) (evs : List IoEvent) :
    (LabelledRun.run IoEvent.exec m evs).Ready ∧ Footprint m evs (LabelledRun.run IoEvent.exec m evs) := by
  induction evs using List.reverseRecOn with
  | nil => exact ⟨h, start m⟩
  | append_singleton evs ev ih =>
    rw [run_append]
    exact ⟨ih.1.exec ev, ih.2.step (ih.1.executed ev)⟩

end Footprint

/-- After any run the table maps what it mapped and holds the ids that it held, the queue has lost a block
for each write that met an unknown sector until none was left, NVM has changed in written blocks of the
table only and the lower device nowhere. So whether a write returns is decided before the first request.
The table's cursor does move, in a write that meets an unknown sector when the queue is empty. -/
theorem run_footprint {m : Machine} (h : m.Ready) (evs : List IoEvent) :
    Footprint m evs (run IoEvent.exec m evs) ∧
      ∀ ev : IoEvent, ev.req.dir = .cacheWrite →
        ((∃ ret t, nvmCacheHandleIo ev.req ((run IoEvent.exec m evs).arrive ev) = .ok ret t) ↔
          ¬ m.HasMiss ev.req) := by
  obtain ⟨hready, hfoot⟩ := Footprint.run h evs
  refine ⟨hfoot, fun ev hdir => ?_⟩
  rw [hready.write_returns_iff hdir, hfoot.hasMiss_iff]

/-- The one block of the queue is gone after the first of three writes. -/
theorem run_footprint_oneBlock :
    Footprint oneBlock [oneSector .cacheWrite 5, oneSector .cacheRead 5, oneSector .cacheWrite 6]
      (run IoEvent.exec oneBlock
        [oneSector .cacheWrite 5, oneSector .cacheRead 5, oneSector .cacheWrite 6]) :=
  (run_footprint oneBlock_ready _).1

end NvmBlkCache
