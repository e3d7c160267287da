import NvmBlkCache.Defs

/-!
# The hash table of used blocks

`UsedBlkManager/hashtable.c`: chained buckets from LBAs to block ids, with a cursor that walks over
the nodes. The nodes are cells of a heap, so `deleteKey` leaves the contents of a freed node behind
and `next` can read them.
-/
namespace NvmBlkCache
open FaultProgram LinkedChain

structure HashNode where
  key : UInt64
  value : UInt64
  next : Option Addr
  deriving Inhabited, DecidableEq

/-- A table has at least one bucket: `hash_func` divides by `size`. -/
structure HashTable where
  nodes : Heap Addr HashNode
  buckets : ℕ → Option Addr
  size : ℕ
  size_pos : 0 < size
  count : ℕ
  cursorBucket : ℕ
  cursorNode : Option Addr

namespace HashTable

def key (ht : HashTable) (a : Addr) : UInt64 := (ht.nodes.cell a).key

def value (ht : HashTable) (a : Addr) : UInt64 := (ht.nodes.cell a).value

def link (ht : HashTable) (a : Addr) : Option Addr := (ht.nodes.cell a).next

end HashTable

def hashFunc (key : UInt64) (size : ℕ) : ℕ := key.toNat % size

def createHashtable (size : ℕ) (size_pos : 0 < size) : HashTable where
  nodes := emptyHeap
  buckets := fun _ => none
  size := size
  size_pos := size_pos
  count := 0
  cursorBucket := 0
  cursorNode := none

namespace HashTable

/-- The loop over the chain of a key that `insert`, `delete_key` and `search` share: the node with
the key and the node before it. -/
def findKey (ht : HashTable) (k : UInt64) : Option (Option Addr × Option Addr) :=
  walk ht.link (fun node => ht.key node == k) ht.nodes.live.card none
    (ht.buckets (hashFunc k ht.size))

/-- `node->value = value` -/
def setValue (ht : HashTable) (node : Addr) (v : UInt64) : HashTable :=
  { ht with nodes := ht.nodes.write node { ht.nodes.cell node with value := v } }

def pushNode (ht : HashTable) (k v : UInt64) (newNode : Addr) : HashTable :=
  { ht with
    nodes := ht.nodes.alloc newNode ⟨k, v, ht.buckets (hashFunc k ht.size)⟩
    buckets := Function.update ht.buckets (hashFunc k ht.size) (some newNode)
    count := ht.count + 1 }

/-- `prev->next = node->next`, or the bucket head in its place, then `free(node)`. -/
def unlinkNode (ht : HashTable) (index : ℕ) (prev : Option Addr) (node : Addr) : HashTable :=
  match prev with
  | some prev =>
    { ht with
      nodes := (ht.nodes.write prev { ht.nodes.cell prev with next := ht.link node }).free node
      count := ht.count - 1 }
  | none =>
    { ht with
      nodes := ht.nodes.free node
      buckets := Function.update ht.buckets index (ht.link node)
      count := ht.count - 1 }

end HashTable

/-- `malloc` is what `malloc(sizeof(HashNode))` answers, should it be called. -/
def insert (key value : UInt64) (malloc : Option Addr) : EStateM Fault HashTable Int32 := fun ht =>
  match ht.findKey key with
  | none => .error .hang ht
  | some (_, some node) => .ok 0 (ht.setValue node value)
  | some (_, none) =>
    match malloc with
    | none => .ok (-1) ht
    | some newNode => .ok 0 (ht.pushNode key value newNode)

def deleteKey (key : UInt64) : EStateM Fault HashTable Int32 := fun ht =>
  match ht.findKey key with
  | none => .error .hang ht
  | some (prev, some node) => .ok 0 (ht.unlinkNode (hashFunc key ht.size) prev node)
  | some (_, none) => .ok (-1) ht

/-- The answer points to the `value` field, 8 bytes into the node. -/
def search (key : UInt64) : EStateM Fault HashTable U64Ptr := fun ht =>
  match ht.findKey key with
  | none => .error .hang ht
  | some (_, some node) => .ok (.cell (node + 8) (ht.value node)) ht
  | some (_, none) => .ok .null ht

def update (key newValue : UInt64) (malloc : Option Addr) : EStateM Fault HashTable Int32 :=
  insert key newValue malloc

def resetCursor (ht : HashTable) : HashTable :=
  { ht with cursorBucket := 0, cursorNode := none }

/-- The loop of `next` over the buckets that the cursor has not entered yet. -/
def nextBucket : ℕ → HashTable → Option Addr × HashTable
  | 0, ht => (none, ht)
  | n + 1, ht =>
    match ht.buckets ht.cursorBucket with
    | some node =>
      (some node, { ht with cursorBucket := ht.cursorBucket + 1, cursorNode := some node })
    | none => nextBucket n { ht with cursorBucket := ht.cursorBucket + 1 }

def next (ht : HashTable) : Option Addr × HashTable :=
  -- `cursor_node->next` is read whether or not the node has been freed
  match ht.cursorNode.bind ht.link with
  | some node => (some node, { ht with cursorNode := some node })
  | none => nextBucket (ht.size - ht.cursorBucket) ht

namespace HashTable

def chain (ht : HashTable) (b : ℕ) : List Addr :=
  follow ht.link ht.nodes.live.card (ht.buckets b)

/-- The nodes that the buckets link, bucket by bucket. -/
def linked (ht : HashTable) : List Addr := (List.range ht.size).flatMap ht.chain

def values (ht : HashTable) : List UInt64 := ht.linked.map ht.value

def findNode (ht : HashTable) (k : UInt64) : Option Addr :=
  (ht.chain (hashFunc k ht.size)).find? (fun a => ht.key a == k)

def lookup (ht : HashTable) (k : UInt64) : Option UInt64 := (ht.findNode k).map ht.value

/-- A call of `next` has an entry to return: the node after the cursor's, or a bucket that the cursor
has not entered. -/
def CursorReaches (ht : HashTable) : Prop :=
  (∃ a, ht.cursorNode.bind ht.link = some a) ∨
    ∃ b, ht.cursorBucket ≤ b ∧ b < ht.size ∧ ht.buckets b ≠ none

end HashTable
end NvmBlkCache
