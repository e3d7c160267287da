import NvmBlkCache.LabelledRun
import NvmBlkCache.UsedTableSpec

/-!
# Runs of the hash table

Any sequence of `insert`, `update` and `delete_key` on a table, with `malloc` free to fail. A client who
writes down every insert that answers 0 and strikes out every key deleted has the map that `search`
reads.
-/
namespace NvmBlkCache
open FaultProgram LinkedChain LabelledRun

/-- `malloc` is what the allocation of an insert answers. -/
inductive TableOp
  | insert (key value : UInt64) (malloc : Option Addr)
  | update (key newValue : UInt64) (malloc : Option Addr)
  | deleteKey (key : UInt64)

namespace TableOp

def call : TableOp → EStateM Fault HashTable Int32
  | .insert key value malloc => NvmBlkCache.insert key value malloc
  | .update key newValue malloc => NvmBlkCache.update key newValue malloc
  | .deleteKey key => NvmBlkCache.deleteKey key

def exec (ht : HashTable) (op : TableOp) : HashTable := stateAfter (op.call ht)

/-- `malloc` hands out no address that is in use. -/
def MallocSound (ht : HashTable) : TableOp → Prop
  | .insert _ _ malloc => ∀ a ∈ malloc, a ∉ ht.nodes.live
  | .update _ _ malloc => ∀ a ∈ malloc, a ∉ ht.nodes.live
  | .deleteKey _ => True

/-- What the client writes down when the call has answered `ret`. -/
def record (map : UInt64 → Option UInt64) (ret : Option Int32) :
    TableOp → UInt64 → Option UInt64
  | .insert key value _ => if ret = some 0 then Function.update map key (some value) else map
  | .update key newValue _ =>
    if ret = some 0 then Function.update map key (some newValue) else map
  | .deleteKey key => Function.update map key none

/-- What the client has written down after a run from `ht`. -/
def recorded (ht : HashTable) (map : UInt64 → Option UInt64) :
    List TableOp → UInt64 → Option UInt64
  | [] => map
  | op :: ops => recorded (op.exec ht) (op.record map (returned (op.call ht))) ops

end TableOp

namespace HashTable

/-- The table is `map`: that is what a search answers; each key of it is in the bucket where it belongs,
in one node, and the counter counts them. -/
structure IsMap (ht : HashTable) (map : UInt64 → Option UInt64) : Prop where
  searched : ∀ k, ∃ ptr, search k ht = .ok ptr ht ∧ ptr.val? = map k
  chained : ∀ b < ht.size, IsChain ht.link (ht.buckets b) (ht.chain b)
  placed : ∀ b < ht.size, ∀ a ∈ ht.chain b, (ht.key a).toNat % ht.size = b
  keys_nodup : (ht.linked.map ht.key).Nodup
  mem_keys : ∀ k, k ∈ ht.linked.map ht.key ↔ map k ≠ none
  counted : ht.count = (ht.linked.map ht.key).length

variable {ht : HashTable}

theorem WF.isMap (h : ht.WF) : ht.IsMap ht.lookup where
  searched := h.search_eq
  chained := h.chained
  placed := h.hashed
  keys_nodup :=
    (List.nodup_map_iff_inj_on h.linked_nodup).mpr (fun _ ha _ hb he => h.key_injective ha hb he)
  mem_keys k := by
    rw [ne_eq, h.lookup_eq_none]
    simp
  counted := by rw [h.count_eq, List.length_map]

/-- One call: it answers, and the client's map stays the table's. -/
theorem WF.exec_record (h : ht.WF) {op : TableOp} (hm : op.MallocSound ht) :
    (op.exec ht).WF ∧ (op.exec ht).size = ht.size ∧
      (op.exec ht).lookup = op.record ht.lookup (returned (op.call ht)) := by
  have hinsert : ∀ k v malloc, (∀ a ∈ malloc, a ∉ ht.nodes.live) →
      (TableOp.exec ht (.insert k v malloc)).WF ∧
        (TableOp.exec ht (.insert k v malloc)).size = ht.size ∧
        (TableOp.exec ht (.insert k v malloc)).lookup =
          TableOp.record ht.lookup (returned (insert k v malloc ht)) (.insert k v malloc) := by
    intro k v malloc hm
    rcases h.insert_cases hm k v with ⟨_, rfl, hi⟩ | ⟨_, ht', hi, hwf, hsize, hl⟩
    · simp [TableOp.exec, TableOp.call, TableOp.record, hi, h]
    · simp [TableOp.exec, TableOp.call, TableOp.record, hi, hwf, hsize, hl]
  cases op with
  | insert k v malloc => exact hinsert k v malloc hm
  | update k v malloc => exact hinsert k v malloc hm
  | deleteKey k =>
    rcases h.deleteKey_cases k with ⟨hn, hd⟩ | ⟨_, ht', hd, hwf, hsize, hl⟩
    · have hsame : Function.update ht.lookup k none = ht.lookup := by
        rw [← hn, Function.update_eq_self]
      simp [TableOp.exec, TableOp.call, TableOp.record, hd, h, hsame]
    · simp [TableOp.exec, TableOp.call, TableOp.record, hd, hwf, hsize, hl]

theorem WF.run_recorded (h : ht.WF) {ops : List TableOp}
    (hm : Along TableOp.exec TableOp.MallocSound ht ops) :
    (run TableOp.exec ht ops).WF ∧ (run TableOp.exec ht ops).size = ht.size ∧
      (run TableOp.exec ht ops).lookup = TableOp.recorded ht ht.lookup ops := by
  induction ops generalizing ht with
  | nil => exact ⟨h, rfl, rfl⟩
  | cons op ops ih =>
    obtain ⟨hwf, hsize, hl⟩ := h.exec_record hm.1
    obtain ⟨hwf', hsize', hl'⟩ := ih hwf hm.2
    refine ⟨hwf', hsize'.trans hsize, ?_⟩
    rw [run_cons, hl', hl]
    rfl

end HashTable

open HashTable

/-- Whatever has been inserted, updated and deleted since `create_hashtable`: the table is the map that
the answers tell. `insert` and `update` answer 0 and write their key, and no other, when the key is there
or there is a node for it; otherwise they say so and change nothing. `delete_key` answers 0 for the keys
of the map only, and takes that key out and no other. -/
theorem table_is_finite_map (size : ℕ) (hs : 0 < size) (ops : List TableOp)
    (hm : Along TableOp.exec TableOp.MallocSound (createHashtable size hs) ops) :
    let ht := run TableOp.exec (createHashtable size hs) ops
    let map := TableOp.recorded (createHashtable size hs) (fun _ => none) ops
    ht.size = size ∧ ht.IsMap map ∧
      (∀ k, map k = none → deleteKey k ht = .ok (-1) ht) ∧
      (∀ k, map k ≠ none →
        ∃ ht', deleteKey k ht = .ok 0 ht' ∧ ht'.IsMap (Function.update map k none)) ∧
      (∀ k v, map k = none →
        insert k v none ht = .ok (-1) ht ∧ update k v none ht = .ok (-1) ht) ∧
      ∀ k v malloc, (∀ a ∈ malloc, a ∉ ht.nodes.live) → (map k ≠ none ∨ malloc ≠ none) →
        ∃ ht', insert k v malloc ht = .ok 0 ht' ∧ update k v malloc ht = .ok 0 ht' ∧
          ht'.IsMap (Function.update map k (some v)) := by
  obtain ⟨hwf, hsize, hl⟩ := (createHashtable_linked size hs).wf.run_recorded hm
  rw [createHashtable_lookup] at hl
  intro ht map
  change ht.lookup = map at hl
  rw [← hl]
  refine ⟨hsize, hwf.isMap, ?_, ?_, ?_, ?_⟩
  · intro k hk
    rcases hwf.deleteKey_cases k with ⟨_, hd⟩ | ⟨hne, _⟩
    · exact hd
    · exact absurd hk hne
  · intro k hk
    rcases hwf.deleteKey_cases k with ⟨hn, _⟩ | ⟨_, ht', hd, hwf', _, hl'⟩
    · exact absurd hn hk
    · exact ⟨ht', hd, hl' ▸ hwf'.isMap⟩
  · intro k v hk
    have hf : ht.findNode k = none := by simpa [lookup] using hk
    exact ⟨hwf.insert_refused hf, hwf.insert_refused hf⟩
  · intro k v malloc hfresh hroom
    rcases hwf.insert_cases hfresh k v with ⟨hn, rfl, _⟩ | ⟨_, ht', hi, hwf', _, hl'⟩
    · exact absurd rfl (hroom.resolve_left (not_not.mpr hn))
    · exact ⟨ht', hi, hi, hl' ▸ hwf'.isMap⟩

/-- Keys 3, 13 and 23 share a bucket; 23 gets no node, 3 is updated in place and 7 deleted again. -/
def collidingOps : List TableOp :=
  [.insert 3 30 (some 4096), .insert 13 40 (some 8192), .insert 23 50 none, .update 3 31 none,
    .insert 7 70 (some 12288), .deleteKey 7]

theorem table_is_finite_map_colliding :
    let ht := run TableOp.exec (createHashtable 10 (by decide)) collidingOps
    (∃ ptr, search 3 ht = .ok ptr ht ∧ ptr.val? = some 31) ∧
      (∃ ptr, search 13 ht = .ok ptr ht ∧ ptr.val? = some 40) ∧
      (∃ ptr, search 23 ht = .ok ptr ht ∧ ptr.val? = none) ∧
      ∃ ht', insert 23 51 (some 16384) ht = .ok 0 ht' ∧
        ∃ ptr, search 23 ht' = .ok ptr ht' ∧ ptr.val? = some 51 := by
  intro ht
  have hm : Along TableOp.exec TableOp.MallocSound (createHashtable 10 (by decide)) collidingOps := by
    refine ⟨?_, ?_, nofun, nofun, ?_, trivial, trivial⟩ <;>
    · rintro a ⟨⟩
      decide
  obtain ⟨-, hmap, -, -, -, hinsert⟩ := table_is_finite_map 10 (by decide) collidingOps hm
  have hfresh : ∀ a ∈ some (16384 : Addr), a ∉ ht.nodes.live := by
    rintro a ⟨⟩
    decide
  obtain ⟨ht', hi, -, hmap'⟩ := hinsert 23 51 (some 16384) hfresh (.inr nofun)
  refine ⟨?_, ?_, ?_, ht', hi, hmap'.searched 23⟩
  · exact hmap.searched 3
  · exact hmap.searched 13
  · exact hmap.searched 23

end NvmBlkCache
