import NvmBlkCache.TableRun
import NvmBlkCache.UsedTableAhead

/-!
# Traversals

Calls of `next` after `reset_cursor`, with inserts and updates in between. What `next` has returned and
what the cursor has ahead never share a node, and together they have all the nodes of the table that
was there at the reset. Before the reset the cursor may be anywhere.
-/
namespace NvmBlkCache
open FaultProgram LinkedChain LabelledRun

/-- What a client does to a table before the reset. A call of `next` after the cursor's node has been
deleted reads what `free` has left there. -/
inductive ClientOp
  | table (op : TableOp)
  | next
  | resetCursor

namespace ClientOp

def exec (ht : HashTable) : ClientOp → HashTable
  | .table op => op.exec ht
  | .next => (NvmBlkCache.next ht).2
  | .resetCursor => NvmBlkCache.resetCursor ht

def MallocSound (ht : HashTable) : ClientOp → Prop
  | .table op => op.MallocSound ht
  | _ => True

end ClientOp

/-- `malloc` is what the allocation of an insert answers. -/
inductive TraversalOp
  | next
  | insert (key value : UInt64) (malloc : Option Addr)
  | update (key newValue : UInt64) (malloc : Option Addr)

namespace TraversalOp

def exec (ht : HashTable) : TraversalOp → HashTable
  | .next => (NvmBlkCache.next ht).2
  | .insert key value malloc => TableOp.exec ht (.insert key value malloc)
  | .update key newValue malloc => TableOp.exec ht (.update key newValue malloc)

def MallocSound (ht : HashTable) : TraversalOp → Prop
  | .next => True
  | .insert key value malloc => TableOp.MallocSound ht (.insert key value malloc)
  | .update key newValue malloc => TableOp.MallocSound ht (.update key newValue malloc)

/-- What the calls of `next` answer, in order. -/
def answers (ht : HashTable) : List TraversalOp → List (Option Addr)
  | [] => []
  | .next :: ops => (NvmBlkCache.next ht).1 :: answers (exec ht .next) ops
  | .insert key value malloc :: ops => answers (exec ht (.insert key value malloc)) ops
  | .update key newValue malloc :: ops => answers (exec ht (.update key newValue malloc)) ops

/-- The nodes that the calls of `next` return. -/
def nodes (ht : HashTable) (ops : List TraversalOp) : List Addr := (answers ht ops).reduceOption

theorem nodes_next (ht : HashTable) (ops : List TraversalOp) :
    nodes ht (.next :: ops) = (NvmBlkCache.next ht).1.toList ++ nodes (exec ht .next) ops := by
  rw [nodes, answers]
  cases (NvmBlkCache.next ht).1 with
  | none => rfl
  | some a => rfl

end TraversalOp

namespace HashTable

/-- `visited` has been returned since a reset at which the table had the nodes of `start`. -/
structure Traversing (start visited : List Addr) (ht : HashTable) : Prop where
  wf : ht.WF
  cursor : ∀ a, ht.cursorNode = some a → a ∈ ht.linked
  linked : ∀ a ∈ visited, a ∈ ht.linked
  split : ∃ rest, ht.Ahead rest ∧ (visited ++ rest).Nodup ∧ ∀ a ∈ start, a ∈ visited ++ rest

variable {ht : HashTable} {start visited : List Addr}

theorem WF.client_exec (h : ht.WF) {op : ClientOp} (hm : op.MallocSound ht) : (op.exec ht).WF := by
  cases op with
  | table op => exact (h.exec_record hm).1
  | next =>
    obtain ⟨cb, cn, he⟩ := next_moves ht
    change (next ht).2.WF
    rw [he]
    exact h.moveCursor cb cn
  | resetCursor => exact h.moveCursor _ _

theorem WF.client_run (h : ht.WF) {ops : List ClientOp}
    (hm : Along ClientOp.exec ClientOp.MallocSound ht ops) : (run ClientOp.exec ht ops).WF :=
  run_invariant WF (fun _ _ h hm => h.client_exec hm) h hm

theorem WF.resetCursor_traversing (h : ht.WF) : Traversing ht.linked [] (resetCursor ht) where
  wf := h.moveCursor _ _
  cursor _ ha := by cases ha
  linked := by simp
  split := ⟨ht.linked, resetCursor_ahead ht, h.linked_nodup, by simp⟩

namespace Traversing

theorem next_returns (h : Traversing start visited ht) :
    Traversing start (visited ++ (next ht).1.toList) (next ht).2 := by
  obtain ⟨rest, ha, hn, hs⟩ := h.split
  cases rest with
  | nil =>
    obtain ⟨he, ha'⟩ := ha.next_nil h.wf
    rw [he]
    rw [Option.toList_none, List.append_nil]
    exact ⟨h.wf.moveCursor _ _, h.cursor, h.linked, [], ha', hn, hs⟩
  | cons a rest =>
    obtain ⟨cb, _, he, ha'⟩ := ha.next_cons h.wf
    have hm : a ∈ ht.linked := ha.mem_linked h.wf (by simp)
    rw [he]
    refine ⟨h.wf.moveCursor _ _, ?_, ?_, rest, ha', ?_, ?_⟩
    · rintro c ⟨rfl⟩
      exact hm
    · intro c hc
      rcases List.mem_append.mp hc with hc | hc
      · exact h.linked c hc
      · obtain rfl : c = a := by simpa using hc
        exact hm
    · simpa using hn
    · simpa using hs

theorem setValue (h : Traversing start visited ht) (a : Addr) (v : UInt64) :
    Traversing start visited (ht.setValue a v) := by
  obtain ⟨rest, ha, hsplit⟩ := h.split
  have hl : (ht.setValue a v).Linked ht.chain := Linked.setValue h.wf a
  have hmem : ∀ c, c ∈ ht.linked → c ∈ (ht.setValue a v).linked :=
    fun c hc => (h.wf.mem_linked_setValue a c).mpr hc
  exact ⟨hl.wf, fun c hc => hmem c (h.cursor c hc), fun c hc => hmem c (h.linked c hc), rest,
    ha.setValue h.wf a v, hsplit⟩

theorem pushNode (h : Traversing start visited ht) {k v : UInt64} {a : Addr}
    (hfresh : a ∉ ht.nodes.live) (hk : ∀ b ∈ ht.linked, ht.key b ≠ k) :
    Traversing start visited (ht.pushNode k v a) := by
  obtain ⟨rest, ha, hn, hs⟩ := h.split
  obtain ⟨rest', ha', hrest⟩ := ha.pushNode (v := v) h.wf hfresh hk h.cursor
  have hl := h.wf.pushNode_linked (v := v) hfresh hk
  have hmem : ∀ c, c ∈ ht.linked → c ∈ (ht.pushNode k v a).linked :=
    fun c hc => (h.wf.mem_linked_pushNode hfresh hk c).mpr (.inr hc)
  have hnew : a ∉ ht.linked := fun hm => hfresh (h.wf.linked_live hm)
  refine ⟨hl.wf, fun c hc => hmem c (h.cursor c hc), fun c hc => hmem c (h.linked c hc), rest',
    ha', ?_⟩
  rcases hrest with rfl | hperm
  · exact ⟨hn, hs⟩
  · have hall : (visited ++ rest').Perm (a :: (visited ++ rest)) :=
      (hperm.append_left visited).trans List.perm_middle
    refine ⟨hall.nodup_iff.mpr (List.nodup_cons.mpr ⟨?_, hn⟩), fun c hc => ?_⟩
    · intro hm
      rcases List.mem_append.mp hm with hm | hm
      · exact hnew (h.linked a hm)
      · exact hnew (ha.mem_linked h.wf hm)
    · exact hall.mem_iff.mpr (List.mem_cons_of_mem a (hs c hc))

theorem insert (h : Traversing start visited ht) {malloc : Option Addr}
    (hm : ∀ a ∈ malloc, a ∉ ht.nodes.live) (k v : UInt64) :
    Traversing start visited (stateAfter (insert k v malloc ht)) := by
  cases hf : ht.findNode k with
  | some c =>
    rw [h.wf.insert_present hf]
    exact h.setValue c v
  | none =>
    cases malloc with
    | none =>
      rw [h.wf.insert_refused hf]
      exact h
    | some a =>
      rw [h.wf.insert_absent hf]
      exact h.pushNode (hm a rfl) (h.wf.lookup_eq_none.mp (by simp [lookup, hf]))

theorem run_nodes (h : Traversing start visited ht) {ops : List TraversalOp}
    (hm : Along TraversalOp.exec TraversalOp.MallocSound ht ops) :
    Traversing start (visited ++ TraversalOp.nodes ht ops) (run TraversalOp.exec ht ops) := by
  induction ops generalizing ht visited with
  | nil => simpa [TraversalOp.nodes, TraversalOp.answers] using h
  | cons op ops ih =>
    cases op with
    | next =>
      rw [TraversalOp.nodes_next, ← List.append_assoc]
      exact ih h.next_returns hm.2
    | insert k v malloc => exact ih (h.insert hm.1 k v) hm.2
    | update k v malloc => exact ih (h.insert hm.1 k v) hm.2

end Traversing

theorem Ahead.answers_nil (h : ht.WF) (ha : ht.Ahead []) (j : ℕ) :
    TraversalOp.answers ht (List.replicate j .next) = List.replicate j none := by
  induction j generalizing ht with
  | zero => rfl
  | succ j ih =>
    obtain ⟨he, ha'⟩ := ha.next_nil h
    rw [List.replicate_succ, List.replicate_succ, TraversalOp.answers, TraversalOp.exec, he,
      ih (h.moveCursor _ _) ha']

/-- With nothing in between, `next` returns what is ahead and then NULL, on and on. -/
theorem Ahead.answers_replicate (h : ht.WF) {rest : List Addr} (ha : ht.Ahead rest) (j : ℕ) :
    TraversalOp.answers ht (List.replicate (rest.length + j) .next) =
      rest.map some ++ List.replicate j none := by
  induction rest generalizing ht with
  | nil => simpa using ha.answers_nil h j
  | cons a rest ih =>
    obtain ⟨cb, _, he, ha'⟩ := ha.next_cons h
    rw [List.length_cons, show rest.length + 1 + j = rest.length + j + 1 by omega,
      List.replicate_succ, TraversalOp.answers, TraversalOp.exec, he, ih (h.moveCursor _ _) ha']
    rfl

end HashTable

open HashTable

/-- After `reset_cursor` on any table, whatever is inserted or updated between the calls of `next`: no
node is returned twice, and once `next` answers NULL every node that the table had at the reset has been
returned. With nothing in between the answers are `count` nodes and then NULL for good. -/
theorem traversal_is_complete (size : ℕ) (hs : 0 < size) (built : List ClientOp)
    (hb : Along ClientOp.exec ClientOp.MallocSound (createHashtable size hs) built)
    (ops : List TraversalOp)
    (hm : Along TraversalOp.exec TraversalOp.MallocSound
      (resetCursor (run ClientOp.exec (createHashtable size hs) built)) ops) :
    let ht := resetCursor (run ClientOp.exec (createHashtable size hs) built)
    (TraversalOp.nodes ht ops).Nodup ∧
      ((next (run TraversalOp.exec ht ops)).1 = none →
        ∀ a ∈ ht.linked, (TraversalOp.nodes ht ops).count a = 1) ∧
      ht.linked.length = ht.count ∧
      ∀ j, TraversalOp.answers ht (List.replicate (ht.count + j) .next) =
        ht.linked.map some ++ List.replicate j none := by
  intro ht
  have hbuilt := (createHashtable_linked size hs).wf.client_run hb
  have hwf : ht.WF := hbuilt.moveCursor _ _
  have hrun := hbuilt.resetCursor_traversing.run_nodes hm
  obtain ⟨rest, ha, hn, hstart⟩ := hrun.split
  rw [List.nil_append] at hn hstart
  have hnodes := hn.of_append_left
  refine ⟨hnodes, fun hnone a hmem => ?_, hwf.count_eq.symm, fun j => ?_⟩
  · have hrest : rest = [] := by
      cases rest with
      | nil => rfl
      | cons c rest =>
        obtain ⟨cb, _, he, _⟩ := ha.next_cons hrun.wf
        rw [he] at hnone
        cases hnone
    rw [hrest, List.append_nil] at hstart
    exact List.count_eq_one_of_mem hnodes (hstart a hmem)
  · rw [hwf.count_eq]
    exact Ahead.answers_replicate hwf (resetCursor_ahead _) j

/-- Keys 1 and 3 share a bucket, and the cursor is on its way when it is reset. Key 5 comes into that
bucket before the cursor does. -/
theorem traversal_is_complete_two_chains :
    let built : List ClientOp := [.table (.insert 1 10 (some 0x10)), .table (.insert 2 20 (some 0x20)),
      .table (.insert 3 30 (some 0x30)), .next]
    let ops : List TraversalOp := [.next, .insert 5 50 (some 0x40), .update 2 21 none, .next, .next,
      .next]
    let ht := resetCursor (run ClientOp.exec (createHashtable 2 Nat.two_pos) built)
    (next (run TraversalOp.exec ht ops)).1 = none ∧ (TraversalOp.nodes ht ops).Nodup ∧
      ∀ a ∈ ht.linked, (TraversalOp.nodes ht ops).count a = 1 := by
  intro built ops ht
  have hb : Along ClientOp.exec ClientOp.MallocSound (createHashtable 2 Nat.two_pos) built := by
    refine ⟨?_, ?_, ?_, trivial, trivial⟩ <;>
    · rintro a ⟨⟩
      decide
  have hm : Along TraversalOp.exec TraversalOp.MallocSound ht ops := by
    refine ⟨trivial, ?_, nofun, trivial, trivial, trivial, trivial⟩
    rintro a ⟨⟩
    decide
  have hend : (next (run TraversalOp.exec ht ops)).1 = none := by decide
  obtain ⟨hnodup, hall, -⟩ := traversal_is_complete 2 Nat.two_pos built hb ops hm
  exact ⟨hend, hnodup, hall hend⟩

end NvmBlkCache
