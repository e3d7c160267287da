import NvmBlkCache.UsedTableCursor

/-!
# What the cursor still has ahead

The cursor is a node and a bucket: behind the node lies the rest of a chain, and from the bucket on
lie the chains that no call of `next` has entered. `Ahead` lists both. A call of `next` takes the first
node off that list, an insert puts its node somewhere on it or leaves it alone.
-/
namespace NvmBlkCache
open FaultProgram LinkedChain

namespace HashTable

theorem flatMap_update_cons {ι α : Type*} [DecidableEq ι] {f : ι → List α} {is : List ι}
    (hn : is.Nodup) {i : ι} (hi : i ∈ is) (a : α) :
    (is.flatMap (Function.update f i (a :: f i))).Perm (a :: is.flatMap f) := by
  obtain ⟨pre, post, rfl⟩ := List.append_of_mem hi
  have hnot : i ∉ pre ++ post := (List.nodup_cons.mp (List.nodup_middle.mp hn)).1
  have hsame : ∀ js ⊆ pre ++ post, js.flatMap (Function.update f i (a :: f i)) = js.flatMap f := by
    intro js hsub
    refine List.flatMap_congr fun j hj => Function.update_of_ne ?_ _ _
    rintro rfl
    exact hnot (hsub hj)
  simp only [List.flatMap_append, List.flatMap_cons, Function.update_self, List.cons_append,
    hsame pre (List.subset_append_left pre post), hsame post (List.subset_append_right pre post)]
  exact List.perm_middle

/-- The chains of the buckets that the cursor has not entered. -/
def unvisited (ht : HashTable) : List Addr :=
  (List.range' ht.cursorBucket (ht.size - ht.cursorBucket)).flatMap ht.chain

/-- `rest` are the nodes that the next calls of `next` will come to, in order. -/
structure Ahead (ht : HashTable) (rest : List Addr) : Prop where
  bucket_le : ht.cursorBucket ≤ ht.size
  passed : ∀ a, ht.cursorNode = some a → hashFunc (ht.key a) ht.size < ht.cursorBucket
  split : ∃ ys, IsChain ht.link (ht.cursorNode.bind ht.link) ys ∧
    (∀ a ∈ ys, a ∈ ht.linked ∧ hashFunc (ht.key a) ht.size < ht.cursorBucket) ∧
    rest = ys ++ ht.unvisited

variable {ht : HashTable} {rest : List Addr} {a : Addr}

theorem mem_unvisited (h : ht.WF) :
    a ∈ ht.unvisited ↔ a ∈ ht.linked ∧ ht.cursorBucket ≤ hashFunc (ht.key a) ht.size := by
  rw [unvisited, List.mem_flatMap, mem_linked]
  constructor
  · rintro ⟨b, hb, ha⟩
    rw [List.mem_range'_1] at hb
    have hlt : b < ht.size := by omega
    exact ⟨⟨b, hlt, ha⟩, by rw [h.hashed b hlt a ha]; exact hb.1⟩
  · rintro ⟨⟨b, hlt, ha⟩, hle⟩
    rw [h.hashed b hlt a ha] at hle
    exact ⟨b, List.mem_range'_1.mpr ⟨hle, by omega⟩, ha⟩

theorem unvisited_nodup (h : ht.WF) : ht.unvisited.Nodup := by
  rw [unvisited, List.nodup_flatMap]
  have hlt : ∀ b ∈ List.range' ht.cursorBucket (ht.size - ht.cursorBucket), b < ht.size := by
    intro b hb
    rw [List.mem_range'_1] at hb
    omega
  refine ⟨fun b hb => (h.chained b (hlt b hb)).nodup, ?_⟩
  refine (List.nodup_range' 1).imp_of_mem (fun hb hc hne a ha ha' => hne ?_)
  rw [← h.hashed _ (hlt _ hb) a ha, ← h.hashed _ (hlt _ hc) a ha']

theorem unvisited_congr {ht' : HashTable} (hsize : ht'.size = ht.size)
    (hcb : ht'.cursorBucket = ht.cursorBucket)
    (hchain : ∀ b, ht.cursorBucket ≤ b → b < ht.size → ht'.chain b = ht.chain b) :
    ht'.unvisited = ht.unvisited := by
  rw [unvisited, unvisited, hsize, hcb]
  refine List.flatMap_congr fun b hb => ?_
  rw [List.mem_range'_1] at hb
  exact hchain b hb.1 (by omega)

theorem unvisited_start : (resetCursor ht).unvisited = ht.linked := by
  rw [unvisited, resetCursor, Nat.sub_zero, ← List.range_eq_range']
  rfl

theorem unvisited_end : { ht with cursorBucket := ht.size }.unvisited = [] := by
  simp [unvisited]

theorem unvisited_enter (hlt : ht.cursorBucket < ht.size) (cn : Option Addr) :
    ht.unvisited = ht.chain ht.cursorBucket ++
      { ht with cursorBucket := ht.cursorBucket + 1, cursorNode := cn }.unvisited := by
  have hn : ht.size - ht.cursorBucket = ht.size - (ht.cursorBucket + 1) + 1 := by omega
  rw [unvisited, hn, List.range'_succ, List.flatMap_cons]
  rfl

theorem resetCursor_ahead (ht : HashTable) : (resetCursor ht).Ahead ht.linked where
  bucket_le := Nat.zero_le _
  passed _ ha := by cases ha
  split := ⟨[], rfl, by simp, by rw [unvisited_start, List.nil_append]⟩

namespace Ahead

theorem nodup (h : ht.WF) (ha : ht.Ahead rest) : rest.Nodup := by
  obtain ⟨ys, hchain, hys, rfl⟩ := ha.split
  refine List.nodup_append.mpr ⟨hchain.nodup, unvisited_nodup h, ?_⟩
  rintro c hc d hd rfl
  have hle := ((mem_unvisited h).mp hd).2
  have hlt := (hys c hc).2
  omega

theorem mem_linked (h : ht.WF) (ha : ht.Ahead rest) (hm : a ∈ rest) : a ∈ ht.linked := by
  obtain ⟨ys, _, hys, rfl⟩ := ha.split
  rcases List.mem_append.mp hm with hm | hm
  · exact (hys a hm).1
  · exact ((mem_unvisited h).mp hm).1

/-- The loop of `next` enters the first chain that is not empty. -/
theorem nextBucket_ahead (h : ht.WF) {n : ℕ} (hn : ht.cursorBucket + n = ht.size) :
    (ht.unvisited = [] ∧ nextBucket n ht = (none, { ht with cursorBucket := ht.size })) ∨
      ∃ a cb rest, ht.unvisited = a :: rest ∧ cb ≤ ht.size ∧
        nextBucket n ht = (some a, { ht with cursorBucket := cb, cursorNode := some a }) ∧
        { ht with cursorBucket := cb, cursorNode := some a }.Ahead rest := by
  induction n generalizing ht with
  | zero =>
    have hend : ht.cursorBucket = ht.size := by omega
    refine .inl ⟨by simp [unvisited, hend], ?_⟩
    rw [moveCursor_self hend.symm]
    rfl
  | succ n ih =>
    have hlt : ht.cursorBucket < ht.size := by omega
    have hchain := h.chained _ hlt
    cases hb : ht.buckets ht.cursorBucket with
    | none =>
      have hempty : ht.chain ht.cursorBucket = [] := by
        rw [hb] at hchain
        exact hchain.unique rfl
      rw [nextBucket_skips hb, unvisited_enter hlt ht.cursorNode, hempty, List.nil_append]
      exact ih (h.moveCursor _ _) (by simp only; omega)
    | some a =>
      cases hc : ht.chain ht.cursorBucket with
      | nil =>
        rw [hc, hb] at hchain
        cases hchain
      | cons c ys =>
        rw [hc, hb] at hchain
        obtain ⟨hac, hys⟩ := hchain
        obtain rfl : a = c := by simpa using hac
        have hmem : ∀ c ∈ a :: ys, c ∈ ht.linked ∧
            hashFunc (ht.key c) ht.size < ht.cursorBucket + 1 := by
          intro c hm
          rw [← hc] at hm
          exact ⟨HashTable.mem_linked.mpr ⟨_, hlt, hm⟩, by rw [h.hashed _ hlt c hm]; omega⟩
        let entered := { ht with cursorBucket := ht.cursorBucket + 1, cursorNode := some a }
        refine .inr ⟨a, ht.cursorBucket + 1, ys ++ entered.unvisited, ?_, hlt,
          nextBucket_found hb n, ?_⟩
        · rw [unvisited_enter hlt (some a), hc]
          rfl
        · refine ⟨hlt, ?_, ys, hys, fun c hm => hmem c (by simp [hm]), rfl⟩
          rintro c ⟨rfl⟩
          exact (hmem a (by simp)).2

/-- With nothing ahead, `next` goes to the end of the table and says so. -/
theorem next_nil (h : ht.WF) (ha : ht.Ahead []) :
    next ht = (none, { ht with cursorBucket := ht.size }) ∧
      { ht with cursorBucket := ht.size }.Ahead [] := by
  obtain ⟨ys, hchain, hys, hrest⟩ := ha.split
  obtain ⟨rfl, hun⟩ := List.append_eq_nil_iff.mp hrest.symm
  have hle := ha.bucket_le
  constructor
  · rw [next, show ht.cursorNode.bind ht.link = none from hchain]
    rcases nextBucket_ahead h (Nat.add_sub_of_le hle) with ⟨_, he⟩ | ⟨a, cb, rest, hcons, _⟩
    · exact he
    · rw [hun] at hcons
      cases hcons
  · refine ⟨le_rfl, fun a hc => (ha.passed a hc).trans_le hle, [], hchain, by simp, ?_⟩
    rw [unvisited_end, List.append_nil]

/-- Else it goes to the first node ahead. -/
theorem next_cons (h : ht.WF) (ha : ht.Ahead (a :: rest)) :
    ∃ cb ≤ ht.size, next ht = (some a, { ht with cursorBucket := cb, cursorNode := some a }) ∧
      { ht with cursorBucket := cb, cursorNode := some a }.Ahead rest := by
  obtain ⟨ys, hchain, hys, hrest⟩ := ha.split
  cases ys with
  | nil =>
    rw [next, show ht.cursorNode.bind ht.link = none from hchain]
    rcases nextBucket_ahead h (Nat.add_sub_of_le ha.bucket_le) with
      ⟨hun, _⟩ | ⟨c, cb, rest', hcons, hcb, he, ha'⟩
    · rw [hun] at hrest
      cases hrest
    · rw [List.nil_append, hcons] at hrest
      obtain ⟨rfl, rfl⟩ := List.cons.inj hrest
      exact ⟨cb, hcb, he, ha'⟩
  | cons c ys =>
    obtain ⟨rfl, rfl⟩ := List.cons.inj hrest
    obtain ⟨hhead, hys'⟩ := hchain
    refine ⟨ht.cursorBucket, ha.bucket_le, by simp [next, hhead], ha.bucket_le, ?_, ys, hys',
      fun c hm => hys c (by simp [hm]), rfl⟩
    rintro c ⟨rfl⟩
    exact (hys a (by simp)).2

/-- Nodes ahead that keep their link and their key stay ahead. -/
theorem transfer (ha : ht.Ahead rest) (ht' : HashTable) (hsize : ht'.size = ht.size)
    (hcb : ht'.cursorBucket = ht.cursorBucket) (hcn : ht'.cursorNode = ht.cursorNode)
    (hcursor : ∀ c, ht.cursorNode = some c → ht'.link c = ht.link c ∧ ht'.key c = ht.key c)
    (hnodes : ∀ c ∈ rest, ht'.link c = ht.link c ∧ ht'.key c = ht.key c ∧ c ∈ ht'.linked) :
    ∃ ys, rest = ys ++ ht.unvisited ∧ ht'.Ahead (ys ++ ht'.unvisited) := by
  obtain ⟨ys, hchain, hys, rfl⟩ := ha.split
  have hkeep : ∀ c ∈ ys, ht'.link c = ht.link c ∧ ht'.key c = ht.key c ∧ c ∈ ht'.linked :=
    fun c hm => hnodes c (by simp [hm])
  refine ⟨ys, rfl, ?_, ?_, ys, ?_, ?_, rfl⟩
  · rw [hsize, hcb]
    exact ha.bucket_le
  · intro c hc
    rw [hcn] at hc
    rw [hsize, hcb, (hcursor c hc).2]
    exact ha.passed c hc
  · have hbind : ht'.cursorNode.bind ht'.link = ht.cursorNode.bind ht.link := by
      rw [hcn]
      cases hc : ht.cursorNode with
      | none => rfl
      | some c => exact (hcursor c hc).1
    rw [hbind]
    exact hchain.congr fun c hm => (hkeep c hm).1
  · intro c hm
    rw [hsize, hcb, (hkeep c hm).2.1]
    exact ⟨(hkeep c hm).2.2, (hys c hm).2⟩

theorem setValue (h : ht.WF) (ha : ht.Ahead rest) (a : Addr) (v : UInt64) :
    (ht.setValue a v).Ahead rest := by
  have hl : (ht.setValue a v).Linked ht.chain := Linked.setValue h a
  have hun : (ht.setValue a v).unvisited = ht.unvisited :=
    unvisited_congr rfl rfl fun b _ hlt => hl.chain_eq hlt
  have hnodes : ∀ c ∈ rest, (ht.setValue a v).link c = ht.link c ∧
      (ht.setValue a v).key c = ht.key c ∧ c ∈ (ht.setValue a v).linked := by
    intro c hm
    exact ⟨by simp, by simp, (h.mem_linked_setValue a c).mpr (ha.mem_linked h hm)⟩
  obtain ⟨ys, rfl, ha'⟩ := ha.transfer (ht.setValue a v) rfl rfl rfl (by simp) hnodes
  rwa [hun] at ha'

/-- A new node comes into the chains ahead, or into one that the cursor has entered and left its head
behind. -/
theorem pushNode (h : ht.WF) (ha : ht.Ahead rest) {k v : UInt64} (hfresh : a ∉ ht.nodes.live)
    (hk : ∀ b ∈ ht.linked, ht.key b ≠ k) (hcur : ∀ c, ht.cursorNode = some c → c ∈ ht.linked) :
    ∃ rest', (ht.pushNode k v a).Ahead rest' ∧ (rest' = rest ∨ rest'.Perm (a :: rest)) := by
  have hi := ht.hashFunc_lt k
  have hne : ∀ c ∈ ht.linked, c ≠ a := by
    rintro c hc rfl
    exact hfresh (h.linked_live hc)
  have hl := h.pushNode_linked (v := v) hfresh hk
  have hkeep : ∀ c ∈ ht.linked, (ht.pushNode k v a).link c = ht.link c ∧
      (ht.pushNode k v a).key c = ht.key c ∧ c ∈ (ht.pushNode k v a).linked := by
    intro c hc
    rw [pushNode_link, pushNode_key, Function.update_of_ne (hne c hc),
      Function.update_of_ne (hne c hc)]
    exact ⟨rfl, rfl, (h.mem_linked_pushNode hfresh hk c).mpr (.inr hc)⟩
  have hcursor : ∀ c, ht.cursorNode = some c →
      (ht.pushNode k v a).link c = ht.link c ∧ (ht.pushNode k v a).key c = ht.key c :=
    fun c hc => ⟨(hkeep c (hcur c hc)).1, (hkeep c (hcur c hc)).2.1⟩
  obtain ⟨ys, rfl, ha'⟩ := ha.transfer (ht.pushNode k v a) rfl rfl rfl hcursor
    (fun c hm => hkeep c (ha.mem_linked h hm))
  refine ⟨_, ha', ?_⟩
  rcases Nat.lt_or_ge (hashFunc k ht.size) ht.cursorBucket with hlt | hge
  · have hun : (ht.pushNode k v a).unvisited = ht.unvisited := by
      refine unvisited_congr rfl rfl fun b hle hb => ?_
      rw [hl.chain_eq hb, Function.update_of_ne (by omega)]
    exact .inl (by rw [hun])
  · have hmem : hashFunc k ht.size ∈
        List.range' ht.cursorBucket (ht.size - ht.cursorBucket) :=
      List.mem_range'_1.mpr ⟨hge, by omega⟩
    have hun : (ht.pushNode k v a).unvisited =
        (List.range' ht.cursorBucket (ht.size - ht.cursorBucket)).flatMap
          (Function.update ht.chain (hashFunc k ht.size) (a :: ht.chain (hashFunc k ht.size))) := by
      refine List.flatMap_congr fun b hb => ?_
      rw [List.mem_range'_1] at hb
      exact hl.chain_eq (by omega)
    rw [hun]
    exact .inr (((flatMap_update_cons (List.nodup_range' 1) hmem a).append_left ys).trans
      List.perm_middle)

/-- The node that the cursor has moved to can be deleted: what lies ahead of it is not touched. -/
theorem unlinkNode (h : ht.WF) (ha : ht.Ahead rest) (hcur : ht.cursorNode = some a) {index : ℕ}
    (hi : index < ht.size) {xs ys : List Addr} (hx : ht.chain index = xs ++ a :: ys) :
    (ht.unlinkNode index xs.getLast? a).Ahead rest := by
  have hl := Linked.unlinkNode h hi hx
  have hch := h.chained index hi
  rw [hx] at hch
  have hnd := hch.nodup
  have hlt : index < ht.cursorBucket := by
    rw [← h.hashed index hi a (by rw [hx]; simp)]
    exact ha.passed a hcur
  -- of this chain only what follows `a` is ahead
  have hahead : ∀ c ∈ rest, c ∈ xs ++ a :: ys → c ∈ ys := by
    obtain ⟨zs, hzs, _, rfl⟩ := ha.split
    rw [hcur] at hzs
    rw [← hch.suffix.unique hzs]
    intro c hc hm
    rcases List.mem_append.mp hc with hc | hc
    · exact hc
    · have hle := ((mem_unvisited h).mp hc).2
      rw [← hx] at hm
      rw [h.hashed index hi c hm] at hle
      omega
  have hnodes : ∀ c ∈ rest, (ht.unlinkNode index xs.getLast? a).link c = ht.link c ∧
      (ht.unlinkNode index xs.getLast? a).key c = ht.key c ∧
      c ∈ (ht.unlinkNode index xs.getLast? a).linked := by
    intro c hc
    have hca : c ≠ a := by
      rintro rfl
      rw [List.nodup_middle, List.nodup_cons] at hnd
      exact hnd.1 (by simp [hahead c hc (by simp)])
    have hprev : xs.getLast? ≠ some c := by
      intro hp
      have hx := hahead c hc (List.mem_append_left _ (List.mem_of_getLast? hp))
      exact hch.prev_ne (List.mem_cons_of_mem a hx) hp
    exact ⟨unlinkNode_link_of_ne hprev, by simp,
      (h.mem_linked_unlinkNode hi hx c).mpr ⟨ha.mem_linked h hc, hca⟩⟩
  have hun : (ht.unlinkNode index xs.getLast? a).unvisited = ht.unvisited := by
    apply unvisited_congr (unlinkNode_size a) (unlinkNode_cursorBucket a)
    intro b hle hb
    rw [hl.chain_eq (by simpa using hb), Function.update_of_ne (by omega)]
  have hcursor : ∀ c, ht.cursorNode = some c →
      (ht.unlinkNode index xs.getLast? a).link c = ht.link c ∧
        (ht.unlinkNode index xs.getLast? a).key c = ht.key c := by
    intro c hc
    obtain rfl : a = c := by simpa [hcur] using hc
    exact ⟨unlinkNode_link_of_ne (hch.prev_ne List.mem_cons_self), by simp⟩
  obtain ⟨zs, rfl, ha'⟩ := ha.transfer _ (unlinkNode_size a) (unlinkNode_cursorBucket a)
    (unlinkNode_cursorNode a) hcursor hnodes
  rwa [hun] at ha'

end Ahead

end HashTable
end NvmBlkCache
