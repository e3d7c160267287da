import NvmBlkCache.UsedTable

/-!
# The hash table is a finite map

`HashTable.Linked` ties the heap to the lists of nodes that the buckets stand for. Under it `search`
reads the map `lookup`, `insert` and `deleteKey` change it at one key, and no loop over a chain runs
forever.
-/
namespace NvmBlkCache
open FaultProgram LinkedChain

/-- What a pointer to a `u64` gives: nothing, or the value of its cell. -/
def U64Ptr.val? : U64Ptr → Option UInt64
  | .null => none
  | .cell _ v => some v

namespace HashTable

theorem hashFunc_lt (ht : HashTable) (k : UInt64) : hashFunc k ht.size < ht.size :=
  Nat.mod_lt _ ht.size_pos

/-- `chains b` is the chain of bucket `b`: allocated nodes whose keys hash to `b` and differ. -/
structure Linked (ht : HashTable) (chains : ℕ → List Addr) : Prop where
  chained : ∀ b < ht.size, IsChain ht.link (ht.buckets b) (chains b)
  live : ∀ b < ht.size, ∀ a ∈ chains b, a ∈ ht.nodes.live
  hashed : ∀ b < ht.size, ∀ a ∈ chains b, hashFunc (ht.key a) ht.size = b
  keys_nodup : ∀ b < ht.size, ((chains b).map ht.key).Nodup
  counted : ht.count = ∑ b ∈ Finset.range ht.size, (chains b).length

def WF (ht : HashTable) : Prop := ht.Linked ht.chain

variable {ht : HashTable} {chains : ℕ → List Addr}

theorem Linked.length_le (h : ht.Linked chains) {b : ℕ} (hb : b < ht.size) :
    (chains b).length ≤ ht.nodes.live.card :=
  (h.chained b hb).length_le_card (h.live b hb)

theorem Linked.chain_eq (h : ht.Linked chains) {b : ℕ} (hb : b < ht.size) :
    ht.chain b = chains b :=
  (h.chained b hb).follow_eq (h.length_le hb)

theorem Linked.wf (h : ht.Linked chains) : ht.WF where
  chained b hb := by rw [h.chain_eq hb]; exact h.chained b hb
  live b hb := by rw [h.chain_eq hb]; exact h.live b hb
  hashed b hb := by rw [h.chain_eq hb]; exact h.hashed b hb
  keys_nodup b hb := by rw [h.chain_eq hb]; exact h.keys_nodup b hb
  counted := by
    rw [h.counted]
    refine Finset.sum_congr rfl (fun b hb => ?_)
    rw [h.chain_eq (Finset.mem_range.mp hb)]

theorem mem_linked {a : Addr} : a ∈ ht.linked ↔ ∃ b < ht.size, a ∈ ht.chain b := by
  simp [linked]

theorem createHashtable_linked (size : ℕ) (hs : 0 < size) :
    (createHashtable size hs).Linked (fun _ => []) where
  chained _ _ := rfl
  live := by simp
  hashed := by simp
  keys_nodup := by simp
  counted := by simp [createHashtable]

theorem WF.linked_live (h : ht.WF) {a : Addr} (ha : a ∈ ht.linked) : a ∈ ht.nodes.live := by
  obtain ⟨b, hb, ha⟩ := mem_linked.mp ha
  exact h.live b hb a ha

/-- A key sits in the chain of its own bucket and nowhere else. -/
theorem WF.mem_chain_of_key (h : ht.WF) {a : Addr} (ha : a ∈ ht.linked) :
    a ∈ ht.chain (hashFunc (ht.key a) ht.size) := by
  obtain ⟨b, hb, ha⟩ := mem_linked.mp ha
  rwa [h.hashed b hb a ha]

theorem WF.key_injective (h : ht.WF) {a b : Addr} (ha : a ∈ ht.linked) (hb : b ∈ ht.linked)
    (he : ht.key a = ht.key b) : a = b := by
  have ha' := h.mem_chain_of_key ha
  have hb' := h.mem_chain_of_key hb
  rw [← he] at hb'
  exact List.inj_on_of_nodup_map (h.keys_nodup _ (ht.hashFunc_lt _)) ha' hb' he

theorem WF.linked_nodup (h : ht.WF) : ht.linked.Nodup := by
  rw [linked, List.nodup_flatMap]
  refine ⟨fun b hb => (h.chained b (List.mem_range.mp hb)).nodup, ?_⟩
  refine List.nodup_range.imp_of_mem (fun hb hc hne a ha ha' => hne ?_)
  rw [← h.hashed _ (List.mem_range.mp hb) a ha, ← h.hashed _ (List.mem_range.mp hc) a ha']

theorem findNode_some {k : UInt64} {a : Addr} (hf : ht.findNode k = some a) :
    a ∈ ht.linked ∧ ht.key a = k := by
  refine ⟨mem_linked.mpr ⟨_, ht.hashFunc_lt k, List.mem_of_find?_eq_some hf⟩, ?_⟩
  simpa using List.find?_some hf

theorem WF.findNode_key (h : ht.WF) {a : Addr} (ha : a ∈ ht.linked) :
    ht.findNode (ht.key a) = some a := by
  cases hf : ht.findNode (ht.key a) with
  | some b =>
    obtain ⟨hb, hk⟩ := findNode_some hf
    rw [h.key_injective hb ha hk]
  | none =>
    have hn := List.find?_eq_none.mp hf a (h.mem_chain_of_key ha)
    simp at hn

theorem WF.findNode_iff (h : ht.WF) {k : UInt64} {a : Addr} :
    ht.findNode k = some a ↔ a ∈ ht.linked ∧ ht.key a = k := by
  refine ⟨findNode_some, ?_⟩
  rintro ⟨ha, rfl⟩
  exact h.findNode_key ha

theorem WF.lookup_iff (h : ht.WF) {k v : UInt64} :
    ht.lookup k = some v ↔ ∃ a ∈ ht.linked, ht.key a = k ∧ ht.value a = v := by
  simp only [lookup, Option.map_eq_some_iff, h.findNode_iff, and_assoc]

theorem WF.lookup_key (h : ht.WF) {a : Addr} (ha : a ∈ ht.linked) :
    ht.lookup (ht.key a) = some (ht.value a) := by
  simp [lookup, h.findNode_key ha]

theorem WF.lookup_eq_none (h : ht.WF) {k : UInt64} :
    ht.lookup k = none ↔ ∀ a ∈ ht.linked, ht.key a ≠ k := by
  constructor
  · rintro hn a ha rfl
    simp [h.lookup_key ha] at hn
  · intro hk
    rw [lookup, Option.map_eq_none_iff, Option.eq_none_iff_forall_ne_some]
    intro a hf
    exact hk a (findNode_some hf).1 (findNode_some hf).2

/-- A map that agrees with the linked nodes, and is undefined elsewhere, is the table's map. -/
theorem WF.lookup_unique (h : ht.WF) {m : UInt64 → Option UInt64}
    (hm : ∀ a ∈ ht.linked, m (ht.key a) = some (ht.value a))
    (hn : ∀ k, (∀ a ∈ ht.linked, ht.key a ≠ k) → m k = none) : ht.lookup = m := by
  funext k
  cases hl : ht.lookup k with
  | none => exact (hn k (h.lookup_eq_none.mp hl)).symm
  | some v =>
    obtain ⟨a, ha, rfl, rfl⟩ := h.lookup_iff.mp hl
    exact (hm a ha).symm

theorem Linked.mem_linked (h : ht.Linked chains) {a : Addr} :
    a ∈ ht.linked ↔ ∃ b < ht.size, a ∈ chains b := by
  rw [HashTable.mem_linked]
  constructor <;> rintro ⟨b, hb, ha⟩ <;> refine ⟨b, hb, ?_⟩
  · rwa [← h.chain_eq hb]
  · rwa [h.chain_eq hb]

/-- The loop over a chain ends, at the node of the key or at the end of the chain. -/
theorem WF.findKey_eq (h : ht.WF) (k : UInt64) :
    (∃ last, ht.findKey k = some (last, none) ∧ ht.findNode k = none) ∨
      ∃ xs a ys, ht.chain (hashFunc k ht.size) = xs ++ a :: ys ∧ ht.key a = k ∧
        ht.findKey k = some (xs.getLast?, some a) ∧ ht.findNode k = some a := by
  have hb := ht.hashFunc_lt k
  have hc := h.chained _ hb
  have hl := Linked.length_le h hb
  cases hf : ht.findNode k with
  | none =>
    have hstop : ∀ a ∈ ht.chain (hashFunc k ht.size), (ht.key a == k) = false := by
      intro a ha
      simpa using List.find?_eq_none.mp hf a ha
    obtain ⟨last, hw⟩ := hc.walk_none hl hstop none
    exact Or.inl ⟨last, hw, rfl⟩
  | some a =>
    obtain ⟨hk, xs, ys, he, hxs⟩ := List.find?_eq_some_iff_append.mp hf
    rw [he] at hc hl
    have hstop : ∀ b ∈ xs, (ht.key b == k) = false := fun b hb => by simpa using hxs b hb
    have hw : ht.findKey k = some (xs.getLast?.or none, some a) :=
      hc.walk_some hl hstop hk none
    rw [Option.or_none] at hw
    exact Or.inr ⟨xs, a, ys, he, by simpa using hk, hw, rfl⟩

theorem WF.search_eq (h : ht.WF) (k : UInt64) :
    ∃ p, search k ht = .ok p ht ∧ p.val? = ht.lookup k := by
  rcases h.findKey_eq k with ⟨last, hw, hf⟩ | ⟨xs, a, ys, _, _, hw, hf⟩
  · exact ⟨.null, by simp [search, hw], by simp [lookup, hf, U64Ptr.val?]⟩
  · exact ⟨.cell (a + 8) (ht.value a), by simp [search, hw], by simp [lookup, hf, U64Ptr.val?]⟩

/-- Replacing one chain changes the number of nodes by the difference of its lengths. -/
theorem sum_length_update (chains : ℕ → List Addr) (xs : List Addr) {i n : ℕ} (hi : i < n) :
    ∑ b ∈ Finset.range n, (Function.update chains i xs b).length + (chains i).length =
      ∑ b ∈ Finset.range n, (chains b).length + xs.length := by
  have hm := Finset.mem_range.mpr hi
  rw [← Finset.add_sum_erase _ _ hm, ← Finset.add_sum_erase _ (fun b => (chains b).length) hm,
    Function.update_self]
  have hrest : ∑ b ∈ (Finset.range n).erase i, (Function.update chains i xs b).length =
      ∑ b ∈ (Finset.range n).erase i, (chains b).length := by
    refine Finset.sum_congr rfl (fun b hb => ?_)
    rw [Function.update_of_ne (Finset.ne_of_mem_erase hb)]
  omega

structure HasChain (ht : HashTable) (b : ℕ) (xs : List Addr) : Prop where
  chained : IsChain ht.link (ht.buckets b) xs
  live : ∀ a ∈ xs, a ∈ ht.nodes.live
  hashed : ∀ a ∈ xs, hashFunc (ht.key a) ht.size = b
  keys_nodup : (xs.map ht.key).Nodup

/-- After one chain is replaced it is enough to look at the new chain and at the other buckets. -/
theorem linked_update {i : ℕ} {xs : List Addr} (hnew : ht.HasChain i xs)
    (hold : ∀ b < ht.size, b ≠ i → ht.HasChain b (chains b))
    (hcount : ht.count = ∑ b ∈ Finset.range ht.size, (Function.update chains i xs b).length) :
    ht.Linked (Function.update chains i xs) := by
  have hall : ∀ b < ht.size, ht.HasChain b (Function.update chains i xs b) := by
    intro b hb
    by_cases he : b = i
    · subst he
      rwa [Function.update_self]
    · rw [Function.update_of_ne he]
      exact hold b hb he
  exact ⟨fun b hb => (hall b hb).chained, fun b hb => (hall b hb).live,
    fun b hb => (hall b hb).hashed, fun b hb => (hall b hb).keys_nodup, hcount⟩

theorem mem_update_chains (chains : ℕ → List Addr) (xs : List Addr) {i n : ℕ} (hi : i < n)
    {c : Addr} : (∃ b < n, c ∈ Function.update chains i xs b) ↔
      c ∈ xs ∨ ∃ b < n, b ≠ i ∧ c ∈ chains b := by
  constructor
  · rintro ⟨b, hb, hc⟩
    by_cases he : b = i
    · subst he
      rw [Function.update_self] at hc
      exact Or.inl hc
    · rw [Function.update_of_ne he] at hc
      exact Or.inr ⟨b, hb, he, hc⟩
  · rintro (hc | ⟨b, hb, he, hc⟩)
    · exact ⟨i, hi, by rwa [Function.update_self]⟩
    · exact ⟨b, hb, by rwa [Function.update_of_ne he]⟩

theorem mem_linked_split {i : ℕ} (hi : i < ht.size) {c : Addr} :
    c ∈ ht.linked ↔ c ∈ ht.chain i ∨ ∃ b < ht.size, b ≠ i ∧ c ∈ ht.chain b := by
  rw [mem_linked, ← mem_update_chains ht.chain (ht.chain i) hi, Function.update_eq_self]

section Insert
variable {k v : UInt64}

theorem WF.insert_present (h : ht.WF) {a : Addr} (hf : ht.findNode k = some a)
    (m : Option Addr) : insert k v m ht = .ok 0 (ht.setValue a v) := by
  rcases h.findKey_eq k with ⟨last, _, hn⟩ | ⟨xs, b, ys, _, _, hw, hb⟩
  · simp [hf] at hn
  · obtain rfl : a = b := by simpa [hf] using hb
    simp [insert, hw]

theorem WF.insert_absent (h : ht.WF) (hf : ht.findNode k = none) (a : Addr) :
    insert k v (some a) ht = .ok 0 (ht.pushNode k v a) := by
  rcases h.findKey_eq k with ⟨last, hw, _⟩ | ⟨xs, b, ys, _, _, _, hb⟩
  · simp [insert, hw]
  · simp [hf] at hb

theorem WF.insert_refused (h : ht.WF) (hf : ht.findNode k = none) :
    insert k v none ht = .ok (-1) ht := by
  rcases h.findKey_eq k with ⟨last, hw, _⟩ | ⟨xs, b, ys, _, _, _, hb⟩
  · simp [insert, hw]
  · simp [hf] at hb

@[simp] theorem setValue_link (a : Addr) : (ht.setValue a v).link = ht.link := by
  funext b
  by_cases hb : b = a <;> simp [setValue, link, hb]

@[simp] theorem setValue_key (a : Addr) : (ht.setValue a v).key = ht.key := by
  funext b
  by_cases hb : b = a <;> simp [setValue, key, hb]

theorem setValue_value (a : Addr) :
    (ht.setValue a v).value = Function.update ht.value a v := by
  funext b
  by_cases hb : b = a <;> simp [setValue, value, hb]

theorem Linked.setValue (h : ht.Linked chains) (a : Addr) :
    (ht.setValue a v).Linked chains where
  chained b hb := by rw [setValue_link]; exact h.chained b hb
  live := h.live
  hashed b hb := by rw [setValue_key]; exact h.hashed b hb
  keys_nodup b hb := by rw [setValue_key]; exact h.keys_nodup b hb
  counted := h.counted

theorem pushNode_link (a : Addr) :
    (ht.pushNode k v a).link =
      Function.update ht.link a (ht.buckets (hashFunc k ht.size)) := by
  funext b
  by_cases hb : b = a <;> simp [pushNode, link, hb]

theorem pushNode_key (a : Addr) : (ht.pushNode k v a).key = Function.update ht.key a k := by
  funext b
  by_cases hb : b = a <;> simp [pushNode, key, hb]

theorem pushNode_value (a : Addr) : (ht.pushNode k v a).value = Function.update ht.value a v := by
  funext b
  by_cases hb : b = a <;> simp [pushNode, value, hb]

section
variable {a : Addr}

theorem Linked.ne_of_fresh (h : ht.Linked chains) (ha : a ∉ ht.nodes.live) :
    ∀ b < ht.size, ∀ c ∈ chains b, c ≠ a := by
  rintro b hb c hc rfl
  exact ha (h.live b hb c hc)

theorem Linked.pushNode_key_eq (h : ht.Linked chains) (ha : a ∉ ht.nodes.live) :
    ∀ b < ht.size, ∀ c ∈ chains b, (ht.pushNode k v a).key c = ht.key c := by
  intro b hb c hc
  rw [pushNode_key, Function.update_of_ne (h.ne_of_fresh ha b hb c hc)]

theorem Linked.hasChain_pushNode (h : ht.Linked chains) (ha : a ∉ ht.nodes.live)
    (hk : ∀ b ∈ chains (hashFunc k ht.size), ht.key b ≠ k) :
    (ht.pushNode k v a).HasChain (hashFunc k ht.size) (a :: chains (hashFunc k ht.size)) := by
  have hi := ht.hashFunc_lt k
  have hkey := h.pushNode_key_eq (k := k) (v := v) ha _ hi
  have hself : (ht.pushNode k v a).key a = k := by rw [pushNode_key, Function.update_self]
  refine ⟨?_, ?_, fun c hc => ?_, ?_⟩
  · rw [pushNode_link]
    simpa [HashTable.pushNode] using
      (h.chained _ hi).push (fun hm => h.ne_of_fresh ha _ hi a hm rfl)
  · simpa [HashTable.pushNode] using fun c hc => Or.inr (h.live _ hi c hc)
  · rcases List.mem_cons.mp hc with rfl | hc
    · rw [hself]
      rfl
    · rw [hkey c hc]
      exact h.hashed _ hi c hc
  · rw [List.map_cons, hself, List.nodup_cons, List.map_congr_left hkey]
    exact ⟨by simpa using hk, h.keys_nodup _ hi⟩

theorem Linked.hasChain_pushNode_of_ne (h : ht.Linked chains) (ha : a ∉ ht.nodes.live) {b : ℕ}
    (hb : b < ht.size) (he : b ≠ hashFunc k ht.size) :
    (ht.pushNode k v a).HasChain b (chains b) := by
  have hkey := h.pushNode_key_eq (k := k) (v := v) ha b hb
  have hbucket : (ht.pushNode k v a).buckets b = ht.buckets b := by
    simp [HashTable.pushNode, he]
  refine ⟨?_, fun c hc => ?_, fun c hc => ?_, ?_⟩
  · rw [pushNode_link, hbucket]
    exact (h.chained b hb).congr
      (fun c hc => Function.update_of_ne (h.ne_of_fresh ha b hb c hc) _ _)
  · exact Finset.mem_insert_of_mem (h.live b hb c hc)
  · rw [hkey c hc]
    exact h.hashed b hb c hc
  · rw [List.map_congr_left hkey]
    exact h.keys_nodup b hb

/-- The chains after a push: one longer at the bucket of the key. -/
theorem Linked.pushNode (h : ht.Linked chains) (ha : a ∉ ht.nodes.live)
    (hk : ∀ b ∈ chains (hashFunc k ht.size), ht.key b ≠ k) :
    (ht.pushNode k v a).Linked
      (Function.update chains (hashFunc k ht.size) (a :: chains (hashFunc k ht.size))) := by
  refine linked_update (h.hasChain_pushNode ha hk)
    (fun b hb he => h.hasChain_pushNode_of_ne ha hb he) ?_
  have hsum := sum_length_update chains (a :: chains (hashFunc k ht.size)) (ht.hashFunc_lt k)
  have hcount := h.counted
  simp only [List.length_cons] at hsum
  simp only [HashTable.pushNode]
  omega

end

theorem WF.mem_linked_setValue (h : ht.WF) (a c : Addr) :
    c ∈ (ht.setValue a v).linked ↔ c ∈ ht.linked := by
  have hl : (ht.setValue a v).Linked ht.chain := Linked.setValue h a
  rw [hl.mem_linked, HashTable.mem_linked]
  rfl

theorem WF.lookup_setValue (h : ht.WF) {a : Addr} (ha : a ∈ ht.linked) :
    (ht.setValue a v).lookup = Function.update ht.lookup (ht.key a) (some v) := by
  have hl : (ht.setValue a v).Linked ht.chain := Linked.setValue h a
  have hmem := h.mem_linked_setValue (v := v) a
  refine hl.wf.lookup_unique (fun c hc => ?_) (fun k hk => ?_)
  · rw [hmem] at hc
    rw [setValue_key, setValue_value]
    by_cases he : c = a
    · simp [he]
    · have hk : ht.key c ≠ ht.key a := fun hk => he (h.key_injective hc ha hk)
      rw [Function.update_of_ne hk, Function.update_of_ne he, h.lookup_key hc]
  · simp only [hmem, setValue_key] at hk
    rw [Function.update_of_ne (hk a ha).symm]
    exact h.lookup_eq_none.mpr hk

/-- A new key is in no chain, so not in that of its bucket. -/
theorem WF.pushNode_linked (h : ht.WF) {a : Addr} (ha : a ∉ ht.nodes.live)
    (hk : ∀ b ∈ ht.linked, ht.key b ≠ k) : (ht.pushNode k v a).Linked
      (Function.update ht.chain (hashFunc k ht.size) (a :: ht.chain (hashFunc k ht.size))) :=
  Linked.pushNode h ha fun b hb => hk b (HashTable.mem_linked.mpr ⟨_, ht.hashFunc_lt k, hb⟩)

theorem WF.mem_linked_pushNode (h : ht.WF) {a : Addr} (ha : a ∉ ht.nodes.live)
    (hk : ∀ b ∈ ht.linked, ht.key b ≠ k) (c : Addr) :
    c ∈ (ht.pushNode k v a).linked ↔ c = a ∨ c ∈ ht.linked := by
  have hi := ht.hashFunc_lt k
  have hl := h.pushNode_linked (v := v) ha hk
  rw [hl.mem_linked, mem_linked_split hi, ← or_assoc, ← List.mem_cons]
  exact mem_update_chains _ _ hi

theorem WF.lookup_pushNode (h : ht.WF) {a : Addr} (ha : a ∉ ht.nodes.live)
    (hk : ∀ b ∈ ht.linked, ht.key b ≠ k) :
    (ht.pushNode k v a).lookup = Function.update ht.lookup k (some v) := by
  have hl := h.pushNode_linked (v := v) ha hk
  have hne : ∀ c ∈ ht.linked, c ≠ a := by
    rintro c hc rfl
    exact ha (h.linked_live hc)
  refine hl.wf.lookup_unique (fun c hc => ?_) (fun k' hk' => ?_)
  · rw [pushNode_key, pushNode_value]
    rcases (h.mem_linked_pushNode ha hk c).mp hc with rfl | hc
    · simp
    · rw [Function.update_of_ne (hne c hc), Function.update_of_ne (hne c hc),
        Function.update_of_ne (hk c hc), h.lookup_key hc]
  · simp only [h.mem_linked_pushNode ha hk, pushNode_key] at hk'
    have hkk : k' ≠ k := by simpa using (hk' a (Or.inl rfl)).symm
    rw [Function.update_of_ne hkk]
    refine h.lookup_eq_none.mpr (fun c hc => ?_)
    simpa [hne c hc] using hk' c (Or.inr hc)

end Insert

section Delete
variable {k : UInt64}

theorem WF.deleteKey_absent (h : ht.WF) (hf : ht.findNode k = none) :
    deleteKey k ht = .ok (-1) ht := by
  rcases h.findKey_eq k with ⟨last, hw, _⟩ | ⟨xs, b, ys, _, _, _, hb⟩
  · simp [deleteKey, hw]
  · simp [hf] at hb

theorem WF.deleteKey_present (h : ht.WF) {a : Addr} (hf : ht.findNode k = some a) :
    ∃ xs ys, ht.chain (hashFunc k ht.size) = xs ++ a :: ys ∧
      deleteKey k ht = .ok 0 (ht.unlinkNode (hashFunc k ht.size) xs.getLast? a) := by
  rcases h.findKey_eq k with ⟨last, _, hn⟩ | ⟨xs, b, ys, hc, _, hw, hb⟩
  · simp [hf] at hn
  · obtain rfl : a = b := by simpa [hf] using hb
    exact ⟨xs, ys, hc, by simp [deleteKey, hw]⟩

variable {index : ℕ} {prev : Option Addr}

@[simp] theorem unlinkNode_size (a : Addr) : (ht.unlinkNode index prev a).size = ht.size := by
  cases prev <;> rfl

@[simp] theorem unlinkNode_count (a : Addr) :
    (ht.unlinkNode index prev a).count = ht.count - 1 := by
  cases prev <;> rfl

@[simp] theorem unlinkNode_live (a : Addr) :
    (ht.unlinkNode index prev a).nodes.live = ht.nodes.live.erase a := by
  cases prev <;> rfl

@[simp] theorem unlinkNode_cursorNode (a : Addr) :
    (ht.unlinkNode index prev a).cursorNode = ht.cursorNode := by
  cases prev <;> rfl

@[simp] theorem unlinkNode_cursorBucket (a : Addr) :
    (ht.unlinkNode index prev a).cursorBucket = ht.cursorBucket := by
  cases prev <;> rfl

@[simp] theorem unlinkNode_key (a : Addr) : (ht.unlinkNode index prev a).key = ht.key := by
  cases prev with
  | none => rfl
  | some p => funext b; by_cases hb : b = p <;> simp [unlinkNode, key, hb]

@[simp] theorem unlinkNode_value (a : Addr) : (ht.unlinkNode index prev a).value = ht.value := by
  cases prev with
  | none => rfl
  | some p => funext b; by_cases hb : b = p <;> simp [unlinkNode, value, hb]

theorem unlinkNode_link_some (p a : Addr) :
    (ht.unlinkNode index (some p) a).link = Function.update ht.link p (ht.link a) := by
  funext b
  by_cases hb : b = p <;> simp [unlinkNode, link, hb]

theorem unlinkNode_link_none (a : Addr) : (ht.unlinkNode index none a).link = ht.link := rfl

/-- Only the cell before the node gets another link. -/
theorem unlinkNode_link_of_ne {a c : Addr} (hp : prev ≠ some c) :
    (ht.unlinkNode index prev a).link c = ht.link c := by
  cases prev with
  | none => rfl
  | some p =>
    rw [unlinkNode_link_some, Function.update_of_ne]
    rintro rfl
    exact hp rfl

section
variable {xs ys : List Addr} {a : Addr}

theorem Linked.ne_of_bucket_ne (h : ht.Linked chains) (hi : index < ht.size) {b : ℕ}
    (hb : b < ht.size) (he : b ≠ index) {c d : Addr} (hc : c ∈ chains b) (hd : d ∈ chains index) :
    c ≠ d := by
  rintro rfl
  exact he ((h.hashed b hb c hc).symm.trans (h.hashed index hi c hd))

theorem Linked.hasChain_unlinkNode (h : ht.Linked chains) (hi : index < ht.size)
    (hc : chains index = xs ++ a :: ys) :
    (ht.unlinkNode index xs.getLast? a).HasChain index (xs ++ ys) := by
  have hchain := h.chained index hi
  have hk := h.keys_nodup index hi
  rw [hc] at hchain hk
  have hnd := hchain.nodup
  have hsub : ∀ c ∈ xs ++ ys, c ∈ chains index := by
    intro c hm
    rw [hc]
    simp only [List.mem_append, List.mem_cons] at hm ⊢
    tauto
  refine ⟨?_, fun c hm => ?_, fun c hm => ?_, ?_⟩
  · rcases List.eq_nil_or_concat xs with rfl | ⟨zs, p, rfl⟩
    · rw [List.getLast?_nil, unlinkNode_link_none]
      simpa [HashTable.unlinkNode] using hchain.2
    · rw [List.concat_eq_append, List.append_assoc] at *
      rw [List.getLast?_concat, unlinkNode_link_some]
      exact hchain.unlink
  · rw [unlinkNode_live, Finset.mem_erase]
    refine ⟨?_, h.live _ hi c (hsub c hm)⟩
    rintro rfl
    rw [List.nodup_middle, List.nodup_cons] at hnd
    exact hnd.1 hm
  · rw [unlinkNode_size, unlinkNode_key]
    exact h.hashed _ hi c (hsub c hm)
  · rw [List.map_append, List.map_cons, List.nodup_middle] at hk
    rw [unlinkNode_key, List.map_append]
    exact (List.nodup_cons.mp hk).2

theorem Linked.hasChain_unlinkNode_of_ne (h : ht.Linked chains) (hi : index < ht.size)
    (hc : chains index = xs ++ a :: ys) {b : ℕ} (hb : b < ht.size) (he : b ≠ index) :
    (ht.unlinkNode index xs.getLast? a).HasChain b (chains b) := by
  refine ⟨?_, fun c hm => ?_, fun c hm => ?_, ?_⟩
  · rcases List.eq_nil_or_concat xs with rfl | ⟨zs, p, rfl⟩
    · rw [List.getLast?_nil, unlinkNode_link_none]
      simpa [HashTable.unlinkNode, he] using h.chained b hb
    · rw [List.concat_eq_append, List.getLast?_concat, unlinkNode_link_some]
      have hp : p ∈ chains index := by rw [hc]; simp
      exact (h.chained b hb).congr
        (fun c hm => Function.update_of_ne (h.ne_of_bucket_ne hi hb he hm hp) _ _)
  · rw [unlinkNode_live, Finset.mem_erase]
    have ha : a ∈ chains index := by rw [hc]; simp
    exact ⟨h.ne_of_bucket_ne hi hb he hm ha, h.live b hb c hm⟩
  · rw [unlinkNode_size, unlinkNode_key]
    exact h.hashed b hb c hm
  · rw [unlinkNode_key]
    exact h.keys_nodup b hb

/-- The chains after a delete: one shorter at the bucket of the node. -/
theorem Linked.unlinkNode (h : ht.Linked chains) (hi : index < ht.size)
    (hc : chains index = xs ++ a :: ys) :
    (ht.unlinkNode index xs.getLast? a).Linked (Function.update chains index (xs ++ ys)) := by
  refine linked_update (h.hasChain_unlinkNode hi hc) (fun b hb he => ?_) ?_
  · rw [unlinkNode_size] at hb
    exact h.hasChain_unlinkNode_of_ne hi hc hb he
  · have hsum := sum_length_update chains (xs ++ ys) hi
    have hcount := h.counted
    rw [hc] at hsum
    simp only [List.length_append, List.length_cons] at hsum
    rw [unlinkNode_count, unlinkNode_size]
    omega

end

theorem WF.mem_linked_unlinkNode (h : ht.WF) {xs ys : List Addr} {a : Addr}
    (hi : index < ht.size) (hc : ht.chain index = xs ++ a :: ys) (c : Addr) :
    c ∈ (ht.unlinkNode index xs.getLast? a).linked ↔ c ∈ ht.linked ∧ c ≠ a := by
  have hl := Linked.unlinkNode h hi hc
  have hnd := (h.chained index hi).nodup
  rw [hc, List.nodup_middle, List.nodup_cons] at hnd
  have ha : a ∈ ht.chain index := by rw [hc]; simp
  rw [hl.mem_linked, unlinkNode_size, mem_update_chains _ _ hi, mem_linked_split hi, hc]
  have hrest : c ∈ xs ++ ys ↔ c ∈ xs ++ a :: ys ∧ c ≠ a := by
    constructor
    · intro hm
      refine ⟨by simp only [List.mem_append, List.mem_cons] at hm ⊢; tauto, ?_⟩
      rintro rfl
      exact hnd.1 hm
    · rintro ⟨hm, hne⟩
      simpa [hne] using hm
  rw [hrest, or_and_right]
  refine or_congr_right (iff_self_and.mpr ?_)
  rintro ⟨b, hb, he, hm⟩
  exact Linked.ne_of_bucket_ne h hi hb he hm ha

theorem WF.lookup_unlinkNode (h : ht.WF) {xs ys : List Addr} {a : Addr}
    (hi : index < ht.size) (hc : ht.chain index = xs ++ a :: ys) :
    (ht.unlinkNode index xs.getLast? a).lookup =
      Function.update ht.lookup (ht.key a) none := by
  have hmem := h.mem_linked_unlinkNode hi hc
  have ha : a ∈ ht.linked := HashTable.mem_linked.mpr ⟨index, hi, by rw [hc]; simp⟩
  refine (Linked.unlinkNode h hi hc).wf.lookup_unique (fun c hm => ?_) (fun k hk => ?_)
  · obtain ⟨hm, hne⟩ := (hmem c).mp hm
    rw [unlinkNode_key, unlinkNode_value,
      Function.update_of_ne (fun he => hne (h.key_injective hm ha he)), h.lookup_key hm]
  · simp only [hmem, unlinkNode_key] at hk
    by_cases he : k = ht.key a
    · rw [he, Function.update_self]
    · rw [Function.update_of_ne he]
      refine h.lookup_eq_none.mpr (fun c hm => ?_)
      by_cases hca : c = a
      · rw [hca]
        exact Ne.symm he
      · exact hk c ⟨hm, hca⟩

end Delete

theorem WF.count_eq (h : ht.WF) : ht.count = ht.linked.length := by
  rw [h.counted, linked, List.length_flatMap]
  rfl

theorem createHashtable_lookup (size : ℕ) (hs : 0 < size) :
    (createHashtable size hs).lookup = fun _ => none := by
  have hl := createHashtable_linked size hs
  funext k
  apply hl.wf.lookup_eq_none.mpr
  intro a ha
  obtain ⟨b, _, ha⟩ := hl.mem_linked.mp ha
  simp at ha

/-- An insert writes the key, unless it needs a node and gets none. -/
theorem WF.insert_cases (h : ht.WF) {malloc : Option Addr} (hm : ∀ a ∈ malloc, a ∉ ht.nodes.live)
    (k v : UInt64) :
    (ht.lookup k = none ∧ malloc = none ∧ insert k v malloc ht = .ok (-1) ht) ∨
      (ht.lookup k ≠ none ∨ malloc ≠ none) ∧ ∃ ht', insert k v malloc ht = .ok 0 ht' ∧ ht'.WF ∧
        ht'.size = ht.size ∧ ht'.lookup = Function.update ht.lookup k (some v) := by
  cases hf : ht.findNode k with
  | some c =>
    obtain ⟨hc, rfl⟩ := findNode_some hf
    exact .inr ⟨.inl (by simp [lookup, hf]), _, h.insert_present hf malloc,
      (Linked.setValue h c).wf, rfl, h.lookup_setValue hc⟩
  | none =>
    have hn : ht.lookup k = none := by simp [lookup, hf]
    cases malloc with
    | none => exact .inl ⟨hn, rfl, h.insert_refused hf⟩
    | some a =>
      have ha := hm a rfl
      have hk := h.lookup_eq_none.mp hn
      have hl := h.pushNode_linked (v := v) ha hk
      exact .inr ⟨.inr (by simp), _, h.insert_absent hf a, hl.wf, rfl, h.lookup_pushNode ha hk⟩

theorem WF.deleteKey_cases (h : ht.WF) (k : UInt64) :
    (ht.lookup k = none ∧ deleteKey k ht = .ok (-1) ht) ∨
      (ht.lookup k ≠ none ∧ ∃ ht', deleteKey k ht = .ok 0 ht' ∧ ht'.WF ∧ ht'.size = ht.size ∧
        ht'.lookup = Function.update ht.lookup k none) := by
  cases hf : ht.findNode k with
  | none => exact .inl ⟨by simp [lookup, hf], h.deleteKey_absent hf⟩
  | some a =>
    obtain ⟨ha, rfl⟩ := findNode_some hf
    obtain ⟨xs, ys, hx, hd⟩ := h.deleteKey_present hf
    have hi := ht.hashFunc_lt (ht.key a)
    exact .inr ⟨by simp [lookup, hf], _, hd, (Linked.unlinkNode h hi hx).wf,
      unlinkNode_size a, h.lookup_unlinkNode hi hx⟩

end HashTable
end NvmBlkCache
