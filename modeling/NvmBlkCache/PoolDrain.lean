import NvmBlkCache.BlkPoolRefinement
import NvmBlkCache.UsedTableAhead

/-!
# Draining a pool

A pool is built with `build_nvm_block`, and then `get_empty_block` is called again and again. The builds
leave the cursor alone, so that all entries lie ahead of it; an eviction takes the first of them, and
the freed node's link still leads to the second.
-/
namespace NvmBlkCache
open FaultProgram LinkedChain LabelledRun HashTable NvmCacheBlkPool FifoMap

/-- A call of `build_nvm_block`; `malloc` is what the allocation in it answers. -/
structure BlockBuild where
  nvmBlkId : NvmCacheBlkId
  lba : LbaType
  malloc : Option Addr

namespace BlockBuild

def op (b : BlockBuild) : PoolOp := .build .buildNvmBlock b.nvmBlkId b.lba b.malloc

/-- The same call on a FIFO list and a map. Only a block for a mapped LBA comes in without a node. -/
def onStore (s : Store LbaType UInt64) (b : BlockBuild) : Store LbaType UInt64 :=
  if (b.lba ≠ uint64Max ∧ s.map b.lba ≠ none) ∨ b.malloc ≠ none then
    s.add EmptyLba b.lba b.nvmBlkId
  else s

end BlockBuild

/-- What a call of `get_empty_block` answers, and what it leaves in the variable for the id. -/
def handOut (p : NvmCacheBlkPool) (out : Addr) (init : UInt64) : Option (Int32 × UInt64) :=
  (returned (getEmptyBlock (.cell out init) p)).bind fun answer =>
    answer.2.val?.map (Prod.mk answer.1)

/-- Address and contents of the variable that a call of `get_empty_block` is given. -/
abbrev OutVar := Addr × UInt64

/-- The answers of call after call. -/
def handOuts (p : NvmCacheBlkPool) : List OutVar → List (Option (Int32 × UInt64))
  | [] => []
  | v :: vs => handOut p v.1 v.2 :: handOuts (PoolOp.exec p (.getEmptyBlock v.1 v.2)) vs

namespace NvmCacheBlkPool

/-- `rest` are the nodes of all entries, and the cursor has all of them ahead. -/
structure Draining (p : NvmCacheBlkPool) (rest : List Addr) : Prop where
  wf : p.WF
  ahead : p.usedBlocksTable.Ahead rest
  mem_iff : ∀ a, a ∈ p.usedBlocksTable.linked ↔ a ∈ rest

/-- The first `n` answers when there are `blocks` to hand out. -/
def drainAnswers (blocks : List (Int32 × UInt64)) (n : ℕ) : List (Option (Int32 × UInt64)) :=
  ((blocks ++ List.replicate n (1, uint64Max)).take n).map some

def blocksLeft (p : NvmCacheBlkPool) (rest : List Addr) : List (Int32 × UInt64) :=
  p.emptyIds.map (fun id => (0, id)) ++ rest.map (fun a => (1, p.usedBlocksTable.value a))

theorem drainAnswers_cons (block : Int32 × UInt64) (blocks : List (Int32 × UInt64)) (n : ℕ) :
    drainAnswers (block :: blocks) (n + 1) = some block :: drainAnswers blocks n := by
  simp only [drainAnswers, List.cons_append, List.take_succ_cons, List.map_cons, List.take_append,
    List.take_replicate]
  congr 4
  omega

theorem drainAnswers_nil (n : ℕ) :
    drainAnswers [] (n + 1) = some (1, uint64Max) :: drainAnswers [] n := by
  simp [drainAnswers, List.replicate_succ]

variable {p : NvmCacheBlkPool} {rest : List Addr}

namespace Draining

theorem take_empty (h : p.Draining rest) {id : UInt64} {ids : List UInt64}
    (hi : p.emptyIds = id :: ids) (out : Addr) (init : UInt64) :
    handOut p out init = some (0, id) ∧
      ∃ p', PoolOp.exec p (.getEmptyBlock out init) = p' ∧ p'.Draining rest ∧
        p'.emptyIds = ids ∧ p'.usedBlocksTable.value = p.usedBlocksTable.value := by
  obtain ⟨q, hq, hids, hg, _⟩ := h.wf.getEmptyBlock_queue hi
  refine ⟨by simp [handOut, hg, U64Ptr.val?], { p with emptyBlocksQueue := q }, ?_, ?_, hids, rfl⟩
  · simp [PoolOp.exec, hg]
  · exact ⟨h.wf.withQueue hq, h.ahead, h.mem_iff⟩

theorem take_used {a : Addr} (h : p.Draining (a :: rest)) (hi : p.emptyIds = [])
    (out : Addr) (init : UInt64) :
    handOut p out init = some (1, p.usedBlocksTable.value a) ∧
      ∃ p', PoolOp.exec p (.getEmptyBlock out init) = p' ∧ p'.Draining rest ∧
        p'.emptyIds = [] ∧ p'.usedBlocksTable.value = p.usedBlocksTable.value := by
  obtain ⟨cb, hcb, hn, hahead⟩ := h.ahead.next_cons h.wf.table
  obtain ⟨ht, hd, hev⟩ := evict_spec h.wf.table ((h.mem_iff a).mpr (by simp)) hcb
  obtain ⟨hg, _⟩ := h.wf.getEmptyBlock_next hi hn hd
  have hmoved := h.wf.table.moveCursor cb (some a)
  have hahead' : ht.Ahead rest := by
    have hf : { p.usedBlocksTable with cursorBucket := cb, cursorNode := some a }.findNode
        (p.usedBlocksTable.key a) = some a := hmoved.findNode_key ((h.mem_iff a).mpr (by simp))
    obtain ⟨xs, ys, hx, hd'⟩ := hmoved.deleteKey_present hf
    rw [hd] at hd'
    cases hd'
    exact hahead.unlinkNode hmoved rfl (hashFunc_lt _ _) hx
  refine ⟨by simp [handOut, hg, U64Ptr.val?], { p with usedBlocksTable := ht }, ?_, ?_, hi,
    hev.value_eq⟩
  · simp [PoolOp.exec, hg]
  · refine ⟨h.wf.withTable hev.wf hev.cursor, hahead', fun c => ?_⟩
    have hnot := (List.nodup_cons.mp (h.ahead.nodup h.wf.table)).1
    rw [hev.mem_linked, h.mem_iff, List.mem_cons]
    constructor
    · rintro ⟨rfl | hc, hne⟩
      · exact absurd rfl hne
      · exact hc
    · intro hc
      refine ⟨.inr hc, ?_⟩
      rintro rfl
      exact hnot hc

theorem take_none (h : p.Draining []) (hi : p.emptyIds = []) (out : Addr) (init : UInt64) :
    handOut p out init = some (1, uint64Max) ∧
      (PoolOp.exec p (.getEmptyBlock out init)).Draining [] ∧
      (PoolOp.exec p (.getEmptyBlock out init)).emptyIds = [] := by
  obtain ⟨hn, hahead⟩ := h.ahead.next_nil h.wf.table
  have hr : ¬ p.usedBlocksTable.CursorReaches := by
    intro hr
    obtain ⟨a, _, cb, _, he⟩ := next_some h.wf.table h.wf.cursor hr
    rw [hn] at he
    cases he
  obtain ⟨hg, _⟩ := h.wf.getEmptyBlock_giveUp hi hr
  refine ⟨by simp [handOut, hg, U64Ptr.val?], ?_⟩
  rw [PoolOp.exec, hg, stateAfter_ok]
  exact ⟨⟨h.wf.withTable (h.wf.table.moveCursor _ _) h.wf.cursor.moveToEnd, hahead, h.mem_iff⟩, hi⟩

/-- A call hands out the first block that is left, or says that none is. -/
theorem step (h : p.Draining rest) (out : Addr) (init : UInt64) :
    ∃ p' rest', PoolOp.exec p (.getEmptyBlock out init) = p' ∧ p'.Draining rest' ∧
      ((∃ block, handOut p out init = some block ∧
          p.blocksLeft rest = block :: p'.blocksLeft rest') ∨
        (handOut p out init = some (1, uint64Max) ∧ p.blocksLeft rest = [] ∧
          p'.blocksLeft rest' = [])) := by
  cases hi : p.emptyIds with
  | cons id ids =>
    obtain ⟨ha, p', he, h', hids, hv⟩ := h.take_empty hi out init
    exact ⟨p', rest, he, h', .inl ⟨_, ha, by simp [blocksLeft, hi, hids, hv]⟩⟩
  | nil =>
    cases rest with
    | cons a rest =>
      obtain ⟨ha, p', he, h', hids, hv⟩ := h.take_used hi out init
      exact ⟨p', rest, he, h', .inl ⟨_, ha, by simp [blocksLeft, hi, hids, hv]⟩⟩
    | nil =>
      obtain ⟨ha, h', hids⟩ := h.take_none hi out init
      exact ⟨_, [], rfl, h', .inr ⟨ha, by simp [blocksLeft, hi], by simp [blocksLeft, hids]⟩⟩

theorem run_answers (h : p.Draining rest) (vars : List OutVar) :
    handOuts p vars = drainAnswers (p.blocksLeft rest) vars.length := by
  induction vars generalizing p rest with
  | nil => rfl
  | cons v vars ih =>
    obtain ⟨p', rest', he, h', hcase⟩ := h.step v.1 v.2
    rw [handOuts, List.length_cons, he, ih h']
    rcases hcase with ⟨block, ha, hleft⟩ | ⟨ha, hnone, hleft⟩
    · rw [ha, hleft, drainAnswers_cons]
    · rw [ha, hnone, hleft, drainAnswers_nil]

theorem run_empties (h : p.Draining rest) {vars : List OutVar}
    (hn : (p.blocksLeft rest).length ≤ vars.length) :
    (run PoolOp.exec p (vars.map fun v => .getEmptyBlock v.1 v.2)).Draining [] := by
  induction vars generalizing p rest with
  | nil =>
    have hleft := List.length_eq_zero_iff.mp (Nat.le_zero.mp hn)
    have hrest : rest = [] := by
      rw [blocksLeft, List.append_eq_nil_iff, List.map_eq_nil_iff, List.map_eq_nil_iff] at hleft
      exact hleft.2
    exact hrest ▸ h
  | cons v vars ih =>
    obtain ⟨p', rest', he, h', hcase⟩ := h.step v.1 v.2
    rw [List.map_cons, run_cons, he]
    apply ih h'
    rcases hcase with ⟨block, _, hleft⟩ | ⟨_, _, hleft⟩
    · rw [hleft, List.length_cons, List.length_cons] at hn
      omega
    · rw [hleft]
      exact Nat.zero_le _

theorem linked_eq_nil (h : p.Draining []) : p.usedBlocksTable.linked = [] :=
  List.eq_nil_iff_forall_not_mem.mpr fun a ha => List.not_mem_nil ((h.mem_iff a).mp ha)

theorem search_null (h : p.Draining []) (lba : LbaType) :
    searchNvmBlkByLba lba p = .ok .null p := by
  obtain ⟨ptr, hs, hv⟩ := h.wf.search_spec lba
  have hnone : p.blockOf lba = none := by
    apply h.wf.table.lookup_eq_none.mpr
    simp [h.linked_eq_nil]
  rw [hnone] at hv
  cases ptr with
  | null => exact hs
  | cell addr v => cases hv

theorem count_zero (h : p.Draining []) : p.usedBlocksTable.count = 0 := by
  rw [h.wf.table.count_eq, h.linked_eq_nil]
  rfl

end Draining

/-- The cursor is where `create_hashtable` has put it. -/
def CursorAtStart (p : NvmCacheBlkPool) : Prop :=
  p.usedBlocksTable.cursorNode = none ∧ p.usedBlocksTable.cursorBucket = 0

theorem CursorAtStart.draining (hc : p.CursorAtStart) (h : p.WF) :
    p.Draining p.usedBlocksTable.linked := by
  have hreset : resetCursor p.usedBlocksTable = p.usedBlocksTable := by
    rw [resetCursor, ← hc.1, ← hc.2]
  refine ⟨h, ?_, fun _ => Iff.rfl⟩
  have hahead := resetCursor_ahead p.usedBlocksTable
  rwa [hreset] at hahead

theorem WF.run_builds (h : p.WF) (hc : p.CursorAtStart) {builds : List BlockBuild}
    (hm : Along PoolOp.exec PoolOp.MallocSound p (builds.map BlockBuild.op)) :
    (run PoolOp.exec p (builds.map BlockBuild.op)).WF ∧
      (run PoolOp.exec p (builds.map BlockBuild.op)).CursorAtStart ∧
      (run PoolOp.exec p (builds.map BlockBuild.op)).view =
        builds.foldl BlockBuild.onStore p.view := by
  induction builds generalizing p with
  | nil => exact ⟨h, hc, rfl⟩
  | cons b builds ih =>
    have hview : (PoolOp.exec p b.op).view = BlockBuild.onStore p.view b := by
      rw [BlockBuild.op, PoolOp.view_build h hm.1]
      simp only [BuildFunc.Handles, true_and]
      rfl
    have hcur : (PoolOp.exec p b.op).CursorAtStart := by
      have hb : Built p b.nvmBlkId b.lba (PoolOp.exec p b.op) := PoolOp.exec_build h hm.1
      generalize PoolOp.exec p b.op = p' at hb ⊢
      cases hb with
      | refused => exact hc
      | queued q _ _ _ => exact hc
      | mapped ht _ hi => exact ⟨hi.cursorNode_eq.trans hc.1, hi.cursorBucket_eq.trans hc.2⟩
    have hnext := ih (PoolOp.exec_wf h hm.1) hcur hm.2
    rwa [hview] at hnext

end NvmCacheBlkPool

/-- Whatever has been built into a new pool: its queue and its map are what the builds say, and calls of
`get_empty_block` hand out the empty blocks in order, then the block of each mapped LBA, each once,
and then `UINT64_MAX` for good. When there have been enough calls nothing is mapped and the counter is
0. -/
theorem pool_drains (size : ℕ) (hs : 0 < size) (builds : List BlockBuild)
    (hm : Along PoolOp.exec PoolOp.MallocSound (initNvmBlkPool size hs)
      (builds.map BlockBuild.op)) :
    let p := run PoolOp.exec (initNvmBlkPool size hs) (builds.map BlockBuild.op)
    p.view = builds.foldl BlockBuild.onStore ⟨[], fun _ => none⟩ ∧
      ∃ entries : List (LbaType × UInt64), (entries.map Prod.fst).Nodup ∧
        (∀ lba id, (lba, id) ∈ entries ↔ p.blockOf lba = some id) ∧
        ∀ vars : List OutVar,
          handOuts p vars = drainAnswers (p.emptyIds.map (fun id => (0, id)) ++
            entries.map (fun entry => (1, entry.2))) vars.length ∧
          (p.emptyIds.length + entries.length ≤ vars.length →
            let p' := run PoolOp.exec p (vars.map fun v => .getEmptyBlock v.1 v.2)
            (∀ lba, searchNvmBlkByLba lba p' = .ok .null p') ∧ p'.usedBlocksTable.count = 0) := by
  intro p
  obtain ⟨hwf, hcur, hview⟩ := (initNvmBlkPool_wf size hs).run_builds ⟨rfl, rfl⟩ hm
  have hd := hcur.draining hwf
  rw [view_initNvmBlkPool] at hview
  have ht : p.usedBlocksTable.WF := hwf.table
  refine ⟨hview, p.usedBlocksTable.linked.map
    (fun a => (p.usedBlocksTable.key a, p.usedBlocksTable.value a)), ?_, ?_, ?_⟩
  · rw [List.map_map]
    exact (List.nodup_map_iff_inj_on ht.linked_nodup).mpr
      (fun a ha b hb he => ht.key_injective ha hb he)
  · intro lba id
    simp only [blockOf, ht.lookup_iff, List.mem_map, Prod.mk.injEq]
  · intro vars
    refine ⟨?_, fun hn => ?_⟩
    · rw [hd.run_answers, blocksLeft, List.map_map]
      rfl
    · have hlen : (p.blocksLeft p.usedBlocksTable.linked).length ≤ vars.length := by
        simpa [blocksLeft] using hn
      have hempty := hd.run_empties hlen
      exact ⟨hempty.search_null, hempty.count_zero⟩

/-- An empty block, a used one, and another for the same LBA. -/
def threeBuilds : List BlockBuild :=
  [⟨5, uint64Max, some 1⟩, ⟨300, 7, some 2⟩, ⟨400, 7, none⟩]

theorem threeBuilds_mallocSound :
    Along PoolOp.exec PoolOp.MallocSound (initNvmBlkPool 10 (by decide))
      (threeBuilds.map BlockBuild.op) := by
  refine ⟨?_, ?_, ?_, trivial⟩
  · rintro a ⟨rfl⟩
    exact ⟨by decide, by decide⟩
  · rintro a ⟨rfl⟩
    exact ⟨by decide, by decide⟩
  · intro a ha
    cases ha

theorem pool_drains_threeBuilds :
    let p := run PoolOp.exec (initNvmBlkPool 10 (by decide)) (threeBuilds.map BlockBuild.op)
    p.view = threeBuilds.foldl BlockBuild.onStore ⟨[], fun _ => none⟩ ∧
      handOuts p [(0, 0), (0, 0), (0, 0)] =
        [some (0, 5), some (1, 400), some (1, uint64Max)] := by
  intro p
  exact ⟨(pool_drains 10 (by decide) threeBuilds threeBuilds_mallocSound).1, by decide⟩

end NvmBlkCache
