import NvmBlkCache.Defs

/-!
# The queue of empty blocks

`EmptyBlkManager/queue.c`: values enter at the head of a singly linked chain and leave at its end.
`Queue.ids` reads the chain oldest value first; `enqueue` and `dequeue` act on it as on a FIFO list.
-/
namespace NvmBlkCache
open FaultProgram LinkedChain

structure Node where
  data : UInt64
  next : Option Addr
  deriving Inhabited, DecidableEq

structure Queue where
  nodes : Heap Addr Node
  head : Option Addr
  tail : Option Addr
  size : ℕ

namespace Queue

def link (q : Queue) (a : Addr) : Option Addr := (q.nodes.cell a).next

def data (q : Queue) (a : Addr) : UInt64 := (q.nodes.cell a).data

end Queue

def initQueue : Queue := ⟨emptyHeap, none, none, 0⟩

def isEmpty (q : Queue) : Bool := q.size == 0

/-- `malloc` is what `malloc(sizeof(Node))` answers. -/
def enqueue (value : UInt64) (malloc : Option Addr) (q : Queue) : Queue :=
  match malloc with
  | none => q
  | some newNode =>
    { nodes := q.nodes.alloc newNode ⟨value, q.head⟩
      head := some newNode
      tail := if q.size = 0 then some newNode else q.tail
      size := q.size + 1 }

/-- `dequeue` when the last node is also the first. -/
def Queue.removeOnly (q : Queue) (current : Addr) : Queue :=
  { nodes := q.nodes.free current, head := none, tail := none, size := q.size - 1 }

/-- `dequeue` when the last node has a node before it. -/
def Queue.removeAfter (q : Queue) (previous current : Addr) : Queue :=
  { nodes := (q.nodes.write previous { q.nodes.cell previous with next := none }).free current
    head := q.head
    tail := some previous
    size := q.size - 1 }

def dequeue : EStateM Fault Queue UInt64 := fun q =>
  if isEmpty q then .ok 0 q
  else
    match walk q.link (fun current => (q.link current).isNone) q.nodes.live.card none q.head with
    | none => .error .hang q
    | some (_, none) => .error .nullDeref q
    | some (none, some current) => .ok (q.data current) (q.removeOnly current)
    | some (some previous, some current) => .ok (q.data current) (q.removeAfter previous current)

/-- The loop of `destruct_queue`, over at most `fuel` rounds. -/
def emptyOut : ℕ → EStateM Fault Queue Unit
  | 0 => do
    if !isEmpty (← get) then throw .hang
  | fuel + 1 => do
    if isEmpty (← get) then return
    let _ ← dequeue
    emptyOut fuel

/-- A round takes one node, and the loop trusts the counter. -/
def destructQueue : EStateM Fault Queue Unit := fun q => emptyOut q.size q

namespace Queue

def chain (q : Queue) : List Addr := follow q.link q.nodes.live.card q.head

/-- The queued values, oldest first. -/
def ids (q : Queue) : List UInt64 := (q.chain.map q.data).reverse

/-- `xs` is the chain of `q`, all of it allocated, with `size` and `tail` as they should be. -/
structure Linked (q : Queue) (xs : List Addr) : Prop where
  chained : IsChain q.link q.head xs
  live : ∀ a ∈ xs, a ∈ q.nodes.live
  size_eq : q.size = xs.length
  tail_eq : q.tail = xs.getLast?

def WF (q : Queue) : Prop := q.Linked q.chain

variable {q : Queue} {xs : List Addr}

theorem Linked.length_le (h : q.Linked xs) : xs.length ≤ q.nodes.live.card :=
  h.chained.length_le_card h.live

theorem Linked.chain_eq (h : q.Linked xs) : q.chain = xs :=
  h.chained.follow_eq h.length_le

theorem Linked.wf (h : q.Linked xs) : q.WF := by
  unfold WF
  rwa [h.chain_eq]

theorem Linked.ids_eq (h : q.Linked xs) : q.ids = (xs.map q.data).reverse := by
  rw [ids, h.chain_eq]

theorem initQueue_linked : initQueue.Linked [] where
  chained := rfl
  live := by simp
  size_eq := rfl
  tail_eq := rfl

@[simp] theorem ids_initQueue : initQueue.ids = [] := by
  simp [initQueue_linked.ids_eq]

theorem isEmpty_iff (h : q.WF) : isEmpty q = true ↔ q.ids = [] := by
  rw [isEmpty, h.size_eq, ids]
  simp

theorem enqueue_linked (h : q.Linked xs) {a : Addr} (ha : a ∉ q.nodes.live) (v : UInt64) :
    (enqueue v (some a) q).Linked (a :: xs) := by
  have hax : a ∉ xs := fun hm => ha (h.live a hm)
  have hlink : (enqueue v (some a) q).link = Function.update q.link a q.head := by
    funext b
    by_cases hb : b = a <;> simp [enqueue, link, hb]
  refine ⟨?_, ?_, by simp [enqueue, h.size_eq], ?_⟩
  · rw [hlink]
    exact h.chained.push hax
  · intro b hb
    rcases List.mem_cons.mp hb with rfl | hb
    · simp [enqueue]
    · simp [enqueue, h.live b hb]
  · cases xs with
    | nil => simp [enqueue, h.size_eq]
    | cons b xs => simp [enqueue, h.size_eq, h.tail_eq, List.getLast?_cons]

theorem ids_enqueue (h : q.WF) {a : Addr} (ha : a ∉ q.nodes.live) (v : UInt64) :
    (enqueue v (some a) q).ids = q.ids ++ [v] := by
  have hax : ∀ b ∈ q.chain, b ≠ a := fun b hb he => ha (he ▸ h.live b hb)
  rw [(enqueue_linked h ha v).ids_eq, ids, List.map_cons, List.reverse_cons]
  congr 2
  · refine List.map_congr_left (fun b hb => ?_)
    simp [enqueue, data, Function.update_of_ne (hax b hb)]
  · simp [enqueue, data]

theorem enqueue_wf (h : q.WF) {a : Addr} (ha : a ∉ q.nodes.live) (v : UInt64) :
    (enqueue v (some a) q).WF := (enqueue_linked h ha v).wf

theorem dequeue_empty (h : q.WF) (he : q.ids = []) : dequeue q = .ok 0 q := by
  simp [dequeue, (isEmpty_iff h).mpr he]

/-- The walk of `dequeue` ends on the last node and knows the one before it. -/
theorem walk_last (h : q.Linked (xs ++ [a])) :
    walk q.link (fun current => (q.link current).isNone) q.nodes.live.card none q.head =
      some (xs.getLast?, some a) := by
  have hlast : q.link a = none := h.chained.suffix
  have hstop : ∀ b ∈ xs, (q.link b).isNone = false := by
    intro b hb
    obtain ⟨pre, post, rfl⟩ := List.append_of_mem hb
    have hs : IsChain q.link (q.link b) (post ++ [a]) := by
      have := h.chained
      rw [List.append_assoc, List.cons_append] at this
      exact this.suffix
    cases post with
    | nil => rw [hs.1]; rfl
    | cons c post => rw [hs.1]; rfl
  rw [h.chained.walk_some h.length_le hstop (by simp [hlast]) none]
  simp

theorem dequeue_linked (h : q.Linked (xs ++ [a])) :
    ∃ q', dequeue q = .ok (q.data a) q' ∧ q'.Linked xs ∧ q'.data = q.data := by
  have hne : ¬ isEmpty q = true := by simp [isEmpty, h.size_eq]
  have hsize : q.size - 1 = xs.length := by simp [h.size_eq]
  have hlive : ∀ b ∈ xs, b ∈ q.nodes.live.erase a := by
    intro b hb
    refine Finset.mem_erase.mpr ⟨?_, h.live b (by simp [hb])⟩
    rintro rfl
    exact List.disjoint_of_nodup_append h.chained.nodup hb (by simp)
  have hw := walk_last h
  rcases List.eq_nil_or_concat xs with rfl | ⟨ys, p, rfl⟩
  · refine ⟨q.removeOnly a, ?_, ⟨rfl, by simp, hsize, rfl⟩, rfl⟩
    rw [dequeue, if_neg hne, hw]
    rfl
  · rw [List.concat_eq_append] at *
    rw [List.getLast?_concat] at hw
    have hcut : IsChain (Function.update q.link p none) q.head (ys ++ [p]) := by
      have hlast : q.link a = none := h.chained.suffix
      have := h.chained
      rw [List.append_assoc, List.cons_append, List.nil_append] at this
      simpa [hlast] using this.unlink
    refine ⟨q.removeAfter p a, ?_, ⟨?_, hlive, hsize, by simp [removeAfter]⟩, ?_⟩
    · rw [dequeue, if_neg hne, hw]
    · refine hcut.congr (fun b _ => ?_)
      by_cases hb : b = p <;> simp [removeAfter, link, hb]
    · funext b
      by_cases hb : b = p <;> simp [removeAfter, data, hb]

theorem dequeue_cons (h : q.WF) {v : UInt64} {vs : List UInt64} (hi : q.ids = v :: vs) :
    ∃ q', dequeue q = .ok v q' ∧ q'.WF ∧ q'.ids = vs := by
  rcases List.eq_nil_or_concat q.chain with hn | ⟨xs, a, hc⟩
  · simp [ids, hn] at hi
  · rw [List.concat_eq_append] at hc
    have hl : q.Linked (xs ++ [a]) := hc ▸ h
    have hids : q.data a :: (xs.map q.data).reverse = v :: vs := by
      rw [← hi, ids, hc]
      simp
    obtain ⟨q', hd, hl', hdata⟩ := dequeue_linked hl
    obtain ⟨rfl, rfl⟩ := List.cons.inj hids
    exact ⟨q', hd, hl'.wf, by rw [hl'.ids_eq, hdata]⟩

theorem emptyOut_done (h : q.WF) (he : q.ids = []) (fuel : ℕ) : emptyOut fuel q = .ok ⟨⟩ q := by
  have hempty := (isEmpty_iff h).mpr he
  cases fuel with
  | zero =>
    rw [emptyOut, bind_ok (get_apply q), hempty]
    rfl
  | succ fuel =>
    rw [emptyOut, bind_ok (get_apply q), if_pos hempty]
    rfl

theorem emptyOut_spec (h : q.WF) {fuel : ℕ} (hf : q.ids.length ≤ fuel) :
    ∃ q', emptyOut fuel q = .ok ⟨⟩ q' ∧ q'.WF ∧ q'.ids = [] := by
  induction fuel generalizing q with
  | zero =>
    have he : q.ids = [] := List.length_eq_zero_iff.mp (Nat.le_zero.mp hf)
    exact ⟨q, emptyOut_done h he 0, h, he⟩
  | succ fuel ih =>
    cases hi : q.ids with
    | nil => exact ⟨q, emptyOut_done h hi _, h, hi⟩
    | cons v vs =>
      obtain ⟨q', hd, hwf, hids⟩ := dequeue_cons h hi
      have hfuel : q'.ids.length ≤ fuel := by simpa [hi, hids] using hf
      obtain ⟨q'', hrest, hspec⟩ := ih hwf hfuel
      have hne : ¬ isEmpty q = true := by simp [isEmpty_iff h, hi]
      refine ⟨q'', ?_, hspec⟩
      rw [emptyOut, bind_ok (get_apply q), if_neg hne, bind_ok hd, hrest]

/-- The counter is the number of values, so the loop ends, and ends with nothing left. -/
theorem destructQueue_spec (h : q.WF) :
    ∃ q', destructQueue q = .ok ⟨⟩ q' ∧ q'.WF ∧ q'.ids = [] := by
  apply emptyOut_spec h
  rw [h.size_eq, ids]
  simp

end Queue
end NvmBlkCache
