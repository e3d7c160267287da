import NvmBlkCache.EmptyQueue
import NvmBlkCache.LabelledRun

/-!
# Runs of the queue

Any sequence of `enqueue`, `dequeue` and `destruct_queue` on a queue, with `malloc` free to fail. What
the queue stands for is the list of the values in it, oldest first, and every call keeps the
counter, both end pointers and the chain in agreement with that list.
-/
namespace NvmBlkCache
open FaultProgram LinkedChain LabelledRun

/-- `malloc` is what the allocation in `enqueue` answers. -/
inductive QueueOp
  | enqueue (value : UInt64) (malloc : Option Addr)
  | dequeue
  | destructQueue

namespace QueueOp

def exec (q : Queue) : QueueOp → Queue
  | .enqueue value malloc => NvmBlkCache.enqueue value malloc q
  | .dequeue => stateAfter (NvmBlkCache.dequeue q)
  | .destructQueue => stateAfter (NvmBlkCache.destructQueue q)

/-- `malloc` hands out no address that is in use. -/
def MallocSound (q : Queue) : QueueOp → Prop
  | .enqueue _ malloc => ∀ a ∈ malloc, a ∉ q.nodes.live
  | _ => True

/-- The same call on a first-in-first-out list. -/
def onList (values : List UInt64) : QueueOp → List UInt64
  | .enqueue _ none => values
  | .enqueue value (some _) => values ++ [value]
  | .dequeue => values.tail
  | .destructQueue => []

end QueueOp

namespace Queue

/-- `chain` is all that is met from `head` on, the counter and the end pointers are those of the
chain, and read from its end it holds `values`. -/
structure Represents (q : Queue) (values : List UInt64) : Prop where
  chain : IsChain q.link q.head q.chain
  live : ∀ a ∈ q.chain, a ∈ q.nodes.live
  size : q.size = q.chain.length
  tail : q.tail = q.chain.getLast?
  head_null : q.head = none ↔ q.size = 0
  tail_null : q.tail = none ↔ q.size = 0
  values : q.chain.reverse.map q.data = values

variable {q : Queue} {values : List UInt64}

theorem represents_iff : q.Represents values ↔ q.WF ∧ q.ids = values := by
  constructor
  · intro h
    exact ⟨⟨h.chain, h.live, h.size, h.tail⟩, by rw [ids, ← List.map_reverse, h.values]⟩
  · rintro ⟨h, rfl⟩
    have hhead : q.head = q.chain.head? := h.chained.head_eq
    refine ⟨h.chained, h.live, h.size_eq, h.tail_eq, ?_, ?_, by rw [ids, List.map_reverse]⟩
    · rw [hhead, h.size_eq]
      simp
    · rw [h.tail_eq, h.size_eq]
      simp

namespace Represents

theorem dequeue_oldest {v : UInt64} (h : q.Represents (v :: values)) :
    ∃ q', dequeue q = .ok v q' ∧ q'.Represents values := by
  obtain ⟨hwf, hids⟩ := represents_iff.mp h
  obtain ⟨q', hd, hwf', hids'⟩ := dequeue_cons hwf hids
  exact ⟨q', hd, represents_iff.mpr ⟨hwf', hids'⟩⟩

theorem dequeue_nothing (h : q.Represents []) : dequeue q = .ok 0 q := by
  obtain ⟨hwf, hids⟩ := represents_iff.mp h
  exact dequeue_empty hwf hids

theorem destructs (h : q.Represents values) :
    ∃ q', destructQueue q = .ok ⟨⟩ q' ∧ q'.Represents [] := by
  obtain ⟨q', hd, hempty⟩ := destructQueue_spec (represents_iff.mp h).1
  exact ⟨q', hd, represents_iff.mpr hempty⟩

theorem enqueue_newest (h : q.Represents values) {a : Addr} (ha : a ∉ q.nodes.live) (v : UInt64) :
    (enqueue v (some a) q).Represents (values ++ [v]) := by
  obtain ⟨hwf, rfl⟩ := represents_iff.mp h
  exact represents_iff.mpr ⟨enqueue_wf hwf ha v, ids_enqueue hwf ha v⟩

theorem exec (h : q.Represents values) {op : QueueOp} (hm : op.MallocSound q) :
    (op.exec q).Represents (op.onList values) := by
  cases op with
  | enqueue v malloc =>
    cases malloc with
    | none => exact h
    | some a => exact h.enqueue_newest (hm a rfl) v
  | dequeue =>
    cases values with
    | nil => simpa [QueueOp.exec, QueueOp.onList, h.dequeue_nothing] using h
    | cons v vs =>
      obtain ⟨q', hd, h'⟩ := h.dequeue_oldest
      simpa [QueueOp.exec, QueueOp.onList, hd] using h'
  | destructQueue =>
    obtain ⟨q', hd, h'⟩ := h.destructs
    simpa [QueueOp.exec, QueueOp.onList, hd] using h'

end Represents

theorem initQueue_represents : initQueue.Represents [] :=
  represents_iff.mpr ⟨initQueue_linked.wf, ids_initQueue⟩

end Queue

open Queue

/-- Whatever has been done to a queue since `init_queue`, it stands for the list on which the same
calls have been made, and the next call answers as on that list. -/
theorem queue_is_fifo (ops : List QueueOp)
    (hm : Along QueueOp.exec QueueOp.MallocSound initQueue ops) :
    let q := run QueueOp.exec initQueue ops
    let values := run QueueOp.onList [] ops
    q.Represents values ∧
      (∀ v vs, values = v :: vs → ∃ q', dequeue q = .ok v q' ∧ q'.Represents vs) ∧
      (values = [] → dequeue q = .ok 0 q) ∧
      (∀ v, enqueue v none q = q) ∧
      ∃ q', destructQueue q = .ok ⟨⟩ q' ∧ q'.Represents [] := by
  have hstep : ∀ q values op, Represents q values → QueueOp.MallocSound q op →
      Represents (op.exec q) (op.onList values) := by
    intro q values op hr hc
    exact hr.exec hc
  have h := run_simulates Represents hstep initQueue_represents hm
  refine ⟨h, ?_, ?_, fun _ => rfl, h.destructs⟩
  · intro v vs hv
    rw [hv] at h
    exact h.dequeue_oldest
  · intro hv
    rw [hv] at h
    exact h.dequeue_nothing

/-- 20 gets no node and 10 is dequeued, so the next one is 30. -/
theorem queue_is_fifo_oldest_first :
    let ops : List QueueOp := [.enqueue 10 (some 4096), .enqueue 20 none, .enqueue 30 (some 8192),
      .enqueue 40 (some 12288), .dequeue]
    let q := run QueueOp.exec initQueue ops
    q.Represents [30, 40] ∧ ∃ q', dequeue q = .ok 30 q' ∧ q'.Represents [40] := by
  intro ops q
  have hm : Along QueueOp.exec QueueOp.MallocSound initQueue ops := by
    refine ⟨?_, nofun, ?_, ?_, trivial, trivial⟩ <;>
    · rintro a ⟨⟩
      decide
  obtain ⟨hrep, hdequeue, -⟩ := queue_is_fifo ops hm
  exact ⟨hrep, hdequeue 30 [40] rfl⟩

end NvmBlkCache
