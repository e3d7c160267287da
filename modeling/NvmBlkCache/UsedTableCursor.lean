import NvmBlkCache.UsedTableSpec

/-!
# The cursor of the hash table

`next` leaves the cursor on the node that it returns, and an eviction frees that node. What keeps the
cursor usable is that the node's link still leads into a chain: `CursorInv`. It survives inserts
even when the allocator hands the freed node out again.
-/
namespace NvmBlkCache
open FaultProgram LinkedChain
namespace HashTable

variable {ht : HashTable}

/-- The link of the cursor's node leads to the rest of some chain. -/
structure CursorInv (ht : HashTable) : Prop where
  bucket_le : ht.cursorBucket ≤ ht.size
  rest : ∀ a, ht.cursorNode = some a → ∃ b < ht.size, ∃ zs, zs <:+ ht.chain b ∧
    IsChain ht.link (ht.link a) zs

theorem chain_moveCursor (cb : ℕ) (cn : Option Addr) :
    { ht with cursorBucket := cb, cursorNode := cn }.chain = ht.chain := rfl

theorem WF.moveCursor (h : ht.WF) (cb : ℕ) (cn : Option Addr) :
    { ht with cursorBucket := cb, cursorNode := cn }.WF :=
  ⟨h.chained, h.live, h.hashed, h.keys_nodup, h.counted⟩

theorem moveCursor_self {cb : ℕ} (h : cb = ht.cursorBucket) :
    { ht with cursorBucket := cb } = ht := by
  subst h
  rfl

theorem nextBucket_found {a : Addr} (hb : ht.buckets ht.cursorBucket = some a) (n : ℕ) :
    nextBucket (n + 1) ht =
      (some a, { ht with cursorBucket := ht.cursorBucket + 1, cursorNode := some a }) := by
  simp [nextBucket, hb]

theorem nextBucket_skips (hb : ht.buckets ht.cursorBucket = none) (n : ℕ) :
    nextBucket (n + 1) ht = nextBucket n { ht with cursorBucket := ht.cursorBucket + 1 } := by
  simp [nextBucket, hb]

/-- The loop over the buckets, wherever the cursor stands, moves the cursor and nothing else. -/
theorem nextBucket_moves (n : ℕ) (ht : HashTable) :
    ∃ cb cn, (nextBucket n ht).2 = { ht with cursorBucket := cb, cursorNode := cn } := by
  induction n generalizing ht with
  | zero => exact ⟨ht.cursorBucket, ht.cursorNode, rfl⟩
  | succ n ih =>
    cases hb : ht.buckets ht.cursorBucket with
    | some a => exact ⟨_, _, by rw [nextBucket_found hb]⟩
    | none =>
      rw [nextBucket_skips hb]
      exact ih _

theorem next_moves (ht : HashTable) :
    ∃ cb cn, (next ht).2 = { ht with cursorBucket := cb, cursorNode := cn } := by
  unfold next
  split
  · exact ⟨_, _, rfl⟩
  · exact nextBucket_moves _ ht

/-- The loop over the buckets stops at the first one that holds a node. -/
theorem nextBucket_cases (n : ℕ) (ht : HashTable) (hn : ht.cursorBucket + n = ht.size) :
    (∃ b a, ht.cursorBucket ≤ b ∧ b < ht.size ∧ ht.buckets b = some a ∧
      nextBucket n ht = (some a, { ht with cursorBucket := b + 1, cursorNode := some a })) ∨
    ((∀ b, ht.cursorBucket ≤ b → b < ht.size → ht.buckets b = none) ∧
      nextBucket n ht = (none, { ht with cursorBucket := ht.size })) := by
  induction n generalizing ht with
  | zero =>
    refine Or.inr ⟨fun b hb hb' => by omega, ?_⟩
    rw [moveCursor_self (show ht.size = ht.cursorBucket by omega)]
    rfl
  | succ n ih =>
    cases hb : ht.buckets ht.cursorBucket with
    | some a =>
      exact Or.inl ⟨ht.cursorBucket, a, le_rfl, by omega, hb, nextBucket_found hb n⟩
    | none =>
      rw [nextBucket_skips hb]
      rcases ih { ht with cursorBucket := ht.cursorBucket + 1 } (by simp only; omega) with
        ⟨b, a, hle, hlt, ha, he⟩ | ⟨hnone, he⟩
      · exact Or.inl ⟨b, a, by simp only at hle; omega, hlt, ha, he⟩
      · refine Or.inr ⟨fun c hc hc' => ?_, he⟩
        rcases Nat.eq_or_lt_of_le hc with rfl | hlt
        · exact hb
        · exact hnone c hlt hc'

/-- All that a call of `next` can do: move to a linked node, or give up at the end of the table. -/
theorem next_cases (h : ht.WF) (hc : ht.CursorInv) :
    (ht.CursorReaches ∧ ∃ a ∈ ht.linked, ∃ cb ≤ ht.size,
      next ht = (some a, { ht with cursorBucket := cb, cursorNode := some a })) ∨
    (¬ ht.CursorReaches ∧ next ht = (none, { ht with cursorBucket := ht.size })) := by
  cases hl : ht.cursorNode.bind ht.link with
  | some a =>
    left
    obtain ⟨c, hcur, hlink⟩ := Option.bind_eq_some_iff.mp hl
    obtain ⟨b, hb, zs, hz, hchain⟩ := hc.rest c hcur
    have haz : a ∈ zs := by
      cases zs with
      | nil => rw [isChain_nil, hlink] at hchain; simp at hchain
      | cons d zs => rw [isChain_cons, hlink] at hchain; simp [Option.some.inj hchain.1]
    refine ⟨Or.inl ⟨a, hl⟩, a, mem_linked.mpr ⟨b, hb, hz.subset haz⟩, ht.cursorBucket,
      hc.bucket_le, ?_⟩
    simp [next, hl]
  | none =>
    have hn : next ht = nextBucket (ht.size - ht.cursorBucket) ht := by simp [next, hl]
    have hle := hc.bucket_le
    rcases nextBucket_cases (ht.size - ht.cursorBucket) ht (by omega) with
      ⟨b, a, hle, hlt, ha, he⟩ | ⟨hnone, he⟩
    · refine Or.inl ⟨Or.inr ⟨b, hle, hlt, by simp [ha]⟩, a, ?_, b + 1, hlt, by rw [hn, he]⟩
      have hch := h.chained b hlt
      rw [ha] at hch
      have hhead : (ht.chain b).head? = some a := hch.head_eq.symm
      exact mem_linked.mpr ⟨b, hlt, List.mem_of_mem_head? (by simp [hhead])⟩
    · refine Or.inr ⟨?_, by rw [hn, he]⟩
      rintro (⟨a, ha⟩ | ⟨b, hb, hb', hne⟩)
      · rw [hl] at ha; cases ha
      · exact hne (hnone b hb hb')

theorem createHashtable_cursorInv (size : ℕ) (hs : 0 < size) :
    (createHashtable size hs).CursorInv :=
  ⟨Nat.zero_le _, fun a ha => by cases ha⟩

theorem CursorInv.moveToEnd (hc : ht.CursorInv) :
    { ht with cursorBucket := ht.size }.CursorInv :=
  ⟨le_rfl, hc.rest⟩

theorem WF.cursorInv_at (h : ht.WF) {a : Addr} (ha : a ∈ ht.linked) {cb : ℕ}
    (hcb : cb ≤ ht.size) : { ht with cursorBucket := cb, cursorNode := some a }.CursorInv := by
  refine ⟨hcb, ?_⟩
  rintro c hc
  obtain rfl : a = c := by simpa using hc
  obtain ⟨b, hb, hm⟩ := mem_linked.mp ha
  obtain ⟨xs, ys, hxy⟩ := List.append_of_mem hm
  have hch := h.chained b hb
  rw [hxy] at hch
  refine ⟨b, hb, ys, ?_, hch.suffix⟩
  rw [chain_moveCursor, hxy]
  exact ⟨xs ++ [a], by simp⟩

theorem CursorInv.setValue (hc : ht.CursorInv) (h : ht.WF) (a : Addr) (v : UInt64) :
    (ht.setValue a v).CursorInv := by
  refine ⟨hc.bucket_le, fun c hcur => ?_⟩
  obtain ⟨b, hb, zs, hz, hchain⟩ := hc.rest c hcur
  have hl : (ht.setValue a v).Linked ht.chain := Linked.setValue h a
  exact ⟨b, hb, zs, by rwa [hl.chain_eq hb], by rwa [setValue_link]⟩

/-- An insert keeps the cursor usable, even if the new node takes over the freed node the cursor
stands on: then the cursor continues in the chain of the new node. -/
theorem CursorInv.pushNode (hc : ht.CursorInv) (h : ht.WF) {a : Addr} {k v : UInt64}
    (ha : a ∉ ht.nodes.live) (hk : ∀ b ∈ ht.linked, ht.key b ≠ k) :
    (ht.pushNode k v a).CursorInv := by
  have hi := ht.hashFunc_lt k
  have hl := h.pushNode_linked (v := v) ha hk
  have hkeep : ∀ b < ht.size, ∀ p zs, zs <:+ ht.chain b → IsChain ht.link p zs →
      IsChain (ht.pushNode k v a).link p zs := by
    intro b hb p zs hz hchain
    refine hchain.congr (fun c hm => ?_)
    rw [pushNode_link, Function.update_of_ne]
    rintro rfl
    exact ha (h.live b hb c (hz.subset hm))
  refine ⟨hc.bucket_le, fun c hcur => ?_⟩
  by_cases hca : c = a
  · subst hca
    refine ⟨_, hi, ht.chain (hashFunc k ht.size), ?_, ?_⟩
    · rw [hl.chain_eq hi, Function.update_self]
      exact List.suffix_cons _ _
    · rw [pushNode_link, Function.update_self, ← pushNode_link (v := v)]
      exact hkeep _ hi _ _ (List.suffix_refl _) (h.chained _ hi)
  · obtain ⟨b, hb, zs, hz, hchain⟩ := hc.rest c hcur
    refine ⟨b, hb, zs, ?_, ?_⟩
    · rw [hl.chain_eq hb]
      by_cases he : b = hashFunc k ht.size
      · subst he
        rw [Function.update_self]
        exact hz.trans (List.suffix_cons _ _)
      · rwa [Function.update_of_ne he]
    · rw [pushNode_link, Function.update_of_ne hca, ← pushNode_link (v := v)]
      exact hkeep b hb _ _ hz hchain

/-- Freeing the node that the cursor stands on leaves its link on the rest of the chain. -/
theorem WF.cursorInv_unlinkNode (h : ht.WF) {index : ℕ} (hi : index < ht.size)
    {xs ys : List Addr} {a : Addr} (hx : ht.chain index = xs ++ a :: ys)
    (hcb : ht.cursorBucket ≤ ht.size) (hcur : ht.cursorNode = some a) :
    (ht.unlinkNode index xs.getLast? a).CursorInv := by
  have hl := Linked.unlinkNode h hi hx
  have hch := h.chained index hi
  rw [hx] at hch
  refine ⟨by simpa using hcb, fun c hc => ?_⟩
  rw [unlinkNode_cursorNode, hcur, Option.some.injEq] at hc
  subst hc
  refine ⟨index, by simpa using hi, ys, ?_, ?_⟩
  · rw [hl.chain_eq (by simpa using hi), Function.update_self]
    exact List.suffix_append _ _
  · rw [unlinkNode_link_of_ne (hch.prev_ne List.mem_cons_self)]
    exact hch.suffix.congr fun c hm =>
      unlinkNode_link_of_ne (hch.prev_ne (List.mem_cons_of_mem a hm))

end HashTable
end NvmBlkCache
