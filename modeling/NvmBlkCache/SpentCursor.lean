import NvmBlkCache.BlkPoolEviction

/-!
# After the cursor has come to the end

Once `get_empty_block` has given up, the cursor is past the last bucket and its node has no node behind it.
Nothing moves it back. There is one way on: a new node gets the very address at which the cursor stands,
in front of a chain.
-/
namespace NvmBlkCache
open FaultProgram LinkedChain LabelledRun HashTable NvmCacheBlkPool

/-- The build is one that maps LBAs to blocks, and `lba` is one of these. -/
def BuildFunc.Maps (func : BuildFunc) (lba : LbaType) : Prop :=
  func ≠ .buildNvmEmptyBlock ∧ lba ≠ uint64Max

instance (func : BuildFunc) (lba : LbaType) : Decidable (func.Maps lba) :=
  inferInstanceAs (Decidable (_ ∧ _))

namespace NvmCacheBlkPool

/-- The call puts a node at the cursor's address, in front of a chain. -/
def Revives (p : NvmCacheBlkPool) : PoolOp → Prop
  | .build func _ lba (some a) => func.Maps lba ∧ p.blockOf lba = none ∧
    p.usedBlocksTable.cursorNode = some a ∧
    p.usedBlocksTable.buckets (hashFunc lba p.usedBlocksTable.size) ≠ none
  | _ => False

end NvmCacheBlkPool

namespace HashTable
variable {ht : HashTable} {k v : UInt64} {a : Addr}

/-- The cursor is past the last bucket. -/
def PastEnd (ht : HashTable) : Prop := ht.cursorBucket = ht.size

theorem preserves_insert (k v : UInt64) (m : Option Addr) : Preserves PastEnd (insert k v m) := by
  intro ht h
  unfold insert
  split
  · exact h
  · exact h
  · cases m with
    | none => exact h
    | some a => exact h

theorem preserves_deleteKey (k : UInt64) : Preserves PastEnd (deleteKey k) := by
  intro ht h
  unfold deleteKey
  split
  · exact h
  · rename_i prev node _
    cases prev with
    | none => exact h
    | some prev => exact h
  · exact h

theorem preserves_next : Preserves PastEnd (modifyGet next : EStateM Fault HashTable (Option Addr)) := by
  intro ht h
  change (next ht).2.PastEnd
  unfold next
  split
  · exact h
  · rw [h, Nat.sub_self]
    exact h

theorem cursorReaches_end (hend : ht.PastEnd) :
    ht.CursorReaches ↔ ∃ a, ht.cursorNode.bind ht.link = some a := by
  constructor
  · rintro (h | ⟨b, hle, hlt, -⟩)
    · exact h
    · exact absurd (hend ▸ hle) (Nat.not_le.mpr hlt)
  · exact Or.inl

theorem setValue_reaches (h : ht.PastEnd) :
    (ht.setValue a v).CursorReaches ↔ ht.CursorReaches := by
  have hend : (ht.setValue a v).PastEnd := h
  rw [cursorReaches_end h, cursorReaches_end hend, setValue_link]
  rfl

/-- A new node is behind the cursor only if it is the cursor's node itself that is new. -/
theorem pushNode_reaches (hend : ht.PastEnd) (hr : ¬ ht.CursorReaches) :
    (ht.pushNode k v a).CursorReaches ↔
      ht.cursorNode = some a ∧ ht.buckets (hashFunc k ht.size) ≠ none := by
  have hend' : (ht.pushNode k v a).PastEnd := hend
  rw [cursorReaches_end hend] at hr
  rw [cursorReaches_end hend', pushNode_link]
  change (∃ c, ht.cursorNode.bind (Function.update ht.link a _) = some c) ↔ _
  cases hc : ht.cursorNode with
  | none => simp
  | some c =>
    rw [Option.bind_some, ← Option.ne_none_iff_exists']
    by_cases hca : c = a
    · subst hca
      simp
    · rw [hc, Option.bind_some, ← Option.ne_none_iff_exists', not_not] at hr
      simp [hca, hr]

end HashTable

namespace PoolOp
variable {p : NvmCacheBlkPool} {func : BuildFunc} {id lba : UInt64} {m : Option Addr}

theorem onQueue_table {α : Type} (x : EStateM Fault Queue α) :
    (stateAfter (onQueue x p)).usedBlocksTable = p.usedBlocksTable := by
  have hkeeps : Keeps NvmCacheBlkPool.usedBlocksTable (onQueue x) := by
    apply keeps_zoom
    intros
    rfl
  exact hkeeps p

theorem insert_table : (stateAfter ((do
    let _ ← onTable (insert lba id m)
    pure PUnit.unit : PoolM Unit) p)).usedBlocksTable =
      stateAfter (insert lba id m p.usedBlocksTable) := by
  rw [stateAfter_bind_pure, onTable]
  cases h : insert lba id m p.usedBlocksTable with
  | ok r ht => rw [zoom_ok h]; rfl
  | error e ht => rw [zoom_error h]; rfl

/-- What a build does to the table: an insert, or nothing. -/
theorem exec_build_table : (exec p (.build func id lba m)).usedBlocksTable =
    if func.Maps lba then stateAfter (insert lba id m p.usedBlocksTable) else p.usedBlocksTable := by
  have hqueue := onQueue_table (p := p) (modify (enqueue id m))
  have hinsert : _ = stateAfter (insert lba id m p.usedBlocksTable) := insert_table
  unfold BuildFunc.Maps
  cases func with
  | buildNvmBlock =>
    change (stateAfter (buildNvmBlock id lba m p)).usedBlocksTable = _
    unfold buildNvmBlock
    by_cases hl : lba = uint64Max
    · simpa [hl] using hqueue
    · simpa [hl] using hinsert
  | buildNvmEmptyBlock =>
    change (stateAfter (buildNvmEmptyBlock id lba m p)).usedBlocksTable = _
    unfold buildNvmEmptyBlock
    by_cases hl : lba = uint64Max
    · simpa [hl] using hqueue
    · simp [hl]
  | buildNvmValidBlock =>
    change (stateAfter (buildNvmValidBlock id lba m p)).usedBlocksTable = _
    unfold buildNvmValidBlock
    by_cases hl : lba = uint64Max
    · simp [hl]
    · simpa [hl] using hinsert

theorem insert_reaches_iff (h : p.WF) (hend : p.usedBlocksTable.PastEnd)
    (hr : ¬ p.usedBlocksTable.CursorReaches) :
    (stateAfter (insert lba id m p.usedBlocksTable)).CursorReaches ↔
      p.blockOf lba = none ∧ ∃ a, m = some a ∧ p.usedBlocksTable.cursorNode = some a ∧
        p.usedBlocksTable.buckets (hashFunc lba p.usedBlocksTable.size) ≠ none := by
  unfold blockOf lookup
  cases hf : p.usedBlocksTable.findNode lba with
  | some c =>
    rw [h.table.insert_present hf, stateAfter_ok, setValue_reaches hend]
    simp [hr]
  | none =>
    cases m with
    | none =>
      rw [h.table.insert_refused hf, stateAfter_ok]
      simp [hr]
    | some a =>
      rw [h.table.insert_absent hf, stateAfter_ok, pushNode_reaches hend hr]
      simp

theorem exec_reaches_iff (h : p.WF) (hend : p.usedBlocksTable.PastEnd)
    (hr : ¬ p.usedBlocksTable.CursorReaches) (op : PoolOp) :
    (op.exec p).usedBlocksTable.CursorReaches ↔ p.Revives op := by
  cases op with
  | build func id lba m =>
    rw [exec_build_table]
    by_cases hmaps : func.Maps lba
    · rw [if_pos hmaps, insert_reaches_iff h hend hr]
      cases m with
      | none => simp [Revives]
      | some a => simp [Revives, hmaps]
    · rw [if_neg hmaps]
      cases m with
      | none => simp [Revives, hr]
      | some a => simp [Revives, hr, hmaps]
  | searchNvmBlkByLba key =>
    rw [exec_search h]
    exact iff_of_false hr id
  | getEmptyBlock out init =>
    refine iff_of_false ?_ id
    rcases exec_getEmptyBlock h out init with ⟨q, _, _, _, he⟩ | ⟨_, _, _, hr', _⟩ | ⟨_, _, he⟩
    · rw [he]
      exact hr
    · exact absurd hr' hr
    · rw [he, moveCursor_self hend.symm]
      exact hr

theorem preserves_onTable {α : Type} {x : EStateM Fault HashTable α} (hx : Preserves PastEnd x) :
    Preserves (fun p : NvmCacheBlkPool => p.usedBlocksTable.PastEnd) (onTable x) := by
  unfold onTable
  refine preserves_zoom ?_ ?_ hx
  · exact fun _ h => h
  · exact fun _ _ _ h => h

theorem preserves_store (v : UInt64) (ptr : U64Ptr) :
    Preserves (fun p : NvmCacheBlkPool => p.usedBlocksTable.PastEnd) (ptr.store v) := by
  cases ptr with
  | null => exact preserves_throw _
  | cell a x => exact preserves_pure _

theorem getEmptyBlock_pastEnd (ptr : U64Ptr) :
    Preserves (fun p : NvmCacheBlkPool => p.usedBlocksTable.PastEnd) (NvmBlkCache.getEmptyBlock ptr) := by
  refine preserves_get fun p => preserves_ite ?_ ?_
  · refine preserves_bind (preserves_onTable preserves_next) fun a => ?_
    cases a with
    | none => exact preserves_bind (preserves_store _ _) fun _ => preserves_pure _
    | some a =>
      refine preserves_get fun p => preserves_bind (preserves_store _ _) fun _ => ?_
      exact preserves_bind (preserves_onTable (preserves_deleteKey _)) fun _ => preserves_pure _
  · have hqueue : Preserves (fun p : NvmCacheBlkPool => p.usedBlocksTable.PastEnd)
        (onQueue dequeue) := by
      intro p h
      rwa [onQueue_table]
    exact preserves_bind hqueue fun _ => preserves_bind (preserves_store _ _) fun _ =>
      preserves_pure _

theorem exec_pastEnd (hend : p.usedBlocksTable.PastEnd) (op : PoolOp) :
    (op.exec p).usedBlocksTable.PastEnd := by
  cases op with
  | build func id lba m =>
    rw [exec_build_table]
    split_ifs
    · exact preserves_insert lba id m _ hend
    · exact hend
  | searchNvmBlkByLba key =>
    have hsearch : Preserves PastEnd (search key) := by
      intro ht h
      unfold search
      split <;> exact h
    exact preserves_onTable hsearch p hend
  | getEmptyBlock out init => exact getEmptyBlock_pastEnd _ p hend

end PoolOp
namespace NvmCacheBlkPool
variable {p : NvmCacheBlkPool}

/-- Well-formed, with the cursor past the last bucket. -/
structure Spent (p : NvmCacheBlkPool) : Prop where
  wf : p.WF
  pastEnd : p.usedBlocksTable.PastEnd

theorem Spent.exec (h : p.Spent) {op : PoolOp} (hm : op.MallocSound p) : (op.exec p).Spent :=
  ⟨PoolOp.exec_wf h.wf hm, PoolOp.exec_pastEnd h.pastEnd op⟩

/-- A call that gives up moves the cursor past the last bucket, where it still reaches nothing. -/
theorem WF.gaveUp (h : p.WF) (hi : p.emptyIds = []) (hr : ¬ p.usedBlocksTable.CursorReaches)
    (out : Addr) (init : UInt64) :
    (PoolOp.exec p (.getEmptyBlock out init)).Spent ∧
      ¬ (PoolOp.exec p (.getEmptyBlock out init)).usedBlocksTable.CursorReaches ∧
      (PoolOp.exec p (.getEmptyBlock out init)).blockOf = p.blockOf ∧
      (PoolOp.exec p (.getEmptyBlock out init)).usedBlocksTable.linked = p.usedBlocksTable.linked ∧
      (PoolOp.exec p (.getEmptyBlock out init)).usedBlocksTable.cursorNode =
        p.usedBlocksTable.cursorNode := by
  obtain ⟨hg, -⟩ := h.getEmptyBlock_giveUp hi hr
  have hwf : (PoolOp.exec p (.getEmptyBlock out init)).WF := PoolOp.exec_wf h trivial
  rw [PoolOp.exec, hg, stateAfter_ok] at hwf ⊢
  refine ⟨⟨hwf, rfl⟩, ?_, rfl, rfl, rfl⟩
  have hend : { p.usedBlocksTable with cursorBucket := p.usedBlocksTable.size }.PastEnd := rfl
  exact fun hreaches => hr (Or.inl ((cursorReaches_end hend).mp hreaches))

theorem WF.noEviction_maps (h : p.WF) {op : PoolOp} (hm : op.MallocSound p) (hno : p.NoEviction op)
    {lba : LbaType} (hb : p.blockOf lba ≠ none) : (op.exec p).blockOf lba ≠ none := by
  cases op with
  | build func id l m =>
    have hbuilt : Built p id l (PoolOp.exec p (.build func id l m)) := PoolOp.exec_build h hm
    generalize PoolOp.exec p (.build func id l m) = p' at hbuilt ⊢
    cases hbuilt with
    | refused => exact hb
    | queued q _ _ _ => exact hb
    | mapped ht _ hi =>
      change ht.lookup lba ≠ none
      rw [hi.lookup_eq]
      by_cases hl : lba = l
      · simp [hl]
      · rwa [Function.update_of_ne hl]
  | searchNvmBlkByLba key => rwa [PoolOp.exec_search h]
  | getEmptyBlock out init =>
    rcases PoolOp.exec_getEmptyBlock h out init with
      ⟨q, _, _, _, he⟩ | ⟨_, _, hi, hr, _⟩ | ⟨_, _, he⟩
    · rw [he]
      exact hb
    · rcases hno with hne | hnr
      · exact absurd hi hne
      · exact absurd hr hnr
    · rw [he]
      exact hb

theorem noEviction_of_not_reaches (hr : ¬ p.usedBlocksTable.CursorReaches) (op : PoolOp) :
    p.NoEviction op := by
  cases op with
  | build func id lba m => trivial
  | searchNvmBlkByLba key => trivial
  | getEmptyBlock out init => exact Or.inr hr

/-- A node that is in use is not handed out again. -/
theorem CursorLinked.not_revives (h : p.CursorLinked) {op : PoolOp} (hm : op.MallocSound p) :
    ¬ p.Revives op := by
  cases op with
  | build func id lba m =>
    cases m with
    | none => exact not_false
    | some a =>
      rintro ⟨-, -, hcur, -⟩
      exact (hm a rfl).table (h.live a hcur)
  | searchNvmBlkByLba key => exact not_false
  | getEmptyBlock out init => exact not_false

end NvmCacheBlkPool

/-- After `get_empty_block` has given up, the cursor reaches no entry again, exactly as long as no new node
gets the cursor's own address in front of a chain. As long as it is so, no call evicts, and what is mapped
stays mapped; a cursor that is on no freed node stays where it is for good. -/
theorem gave_up_for_good_iff {p : NvmCacheBlkPool} (h : p.WF) (hi : p.emptyIds = [])
    (hr : ¬ p.usedBlocksTable.CursorReaches) {out : Addr} {init : UInt64} {ops : List PoolOp}
    (hm : Along PoolOp.exec PoolOp.MallocSound (PoolOp.exec p (.getEmptyBlock out init)) ops) :
    let p' := PoolOp.exec p (.getEmptyBlock out init)
    ((∀ t ∈ trajectory PoolOp.exec p' ops, ¬ t.usedBlocksTable.CursorReaches) ↔
      Along PoolOp.exec (fun t op => ¬ t.Revives op) p' ops) ∧
    (Along PoolOp.exec (fun t op => ¬ t.Revives op) p' ops →
      Along PoolOp.exec NoEviction p' ops ∧
      ∀ lba, p.blockOf lba ≠ none → (run PoolOp.exec p' ops).blockOf lba ≠ none) ∧
    (p.CursorLinked → Along PoolOp.exec (fun t op => ¬ t.Revives op) p' ops) := by
  intro p'
  obtain ⟨hspent, hreach, hmap, hlinked, hcur⟩ := h.gaveUp hi hr out init
  have hstep : ∀ (t : NvmCacheBlkPool) (op : PoolOp), t.Spent ∧ ¬ t.usedBlocksTable.CursorReaches →
      op.MallocSound t ∧ ¬ t.Revives op →
      (op.exec t).Spent ∧ ¬ (op.exec t).usedBlocksTable.CursorReaches := by
    rintro t op ⟨ht, htr⟩ ⟨hop, hno⟩
    exact ⟨ht.exec hop, fun hr' => hno ((PoolOp.exec_reaches_iff ht.wf ht.pastEnd htr op).mp hr')⟩
  refine ⟨?_, fun hno => ⟨?_, fun lba hb => ?_⟩, fun hlink => ?_⟩
  · apply trajectory_good_iff Spent _ PoolOp.MallocSound (fun _ _ ht hop => ht.exec hop) ?_ hspent hreach hm
    intro t op ht _ htr
    exact not_congr (PoolOp.exec_reaches_iff ht.wf ht.pastEnd htr op)
  · exact along_of_invariant _ hstep (fun t op ht _ => noEviction_of_not_reaches ht.2 op)
      ⟨hspent, hreach⟩ (hm.and hno)
  · have hkeep := run_invariant
      (fun t => (t.Spent ∧ ¬ t.usedBlocksTable.CursorReaches) ∧ t.blockOf lba ≠ none)
      (fun t op ht hop => ⟨hstep t op ht.1 hop, ht.1.1.wf.noEviction_maps hop.1
        (noEviction_of_not_reaches ht.1.2 op) ht.2⟩)
      (s := p') ⟨⟨hspent, hreach⟩, hmap ▸ hb⟩ (hm.and hno)
    exact hkeep.2
  · have hlink' : p'.CursorLinked := by
      refine hspent.wf.cursorLinked fun a ha => ?_
      rw [hlinked]
      exact hlink.linked a (hcur ▸ ha)
    refine along_of_invariant
      (fun t => (t.Spent ∧ ¬ t.usedBlocksTable.CursorReaches) ∧ t.CursorLinked) ?_
      (fun t op ht hop => ht.2.not_revives hop) ⟨⟨hspent, hreach⟩, hlink'⟩ hm
    rintro t op ⟨ht, htl⟩ hop
    refine ⟨hstep t op ht ⟨hop, htl.not_revives hop⟩, ?_⟩
    exact (PoolOp.exec_cursorLinked_iff ht.1.wf hop htl).mpr (noEviction_of_not_reaches ht.2 op)

/-- The cursor of a new pool has come to the end before the first block is built. -/
theorem gave_up_for_good_iff_lateEntry :
    let p := PoolOp.exec (initNvmBlkPool 1 Nat.one_pos) (.getEmptyBlock 0 0)
    let t := run PoolOp.exec p [.build .buildNvmBlock 7 5 (some 1), .getEmptyBlock 0 0]
    t.blockOf 5 = some 7 ∧ ¬ t.usedBlocksTable.CursorReaches := by
  intro p t
  have hwf := initNvmBlkPool_wf 1 Nat.one_pos
  have hr : ¬ (initNvmBlkPool 1 Nat.one_pos).usedBlocksTable.CursorReaches := by
    rintro (⟨a, ha⟩ | ⟨b, -, -, hb⟩)
    · cases ha
    · exact hb rfl
  have hm : Along PoolOp.exec PoolOp.MallocSound p
      [.build .buildNvmBlock 7 5 (some 1), .getEmptyBlock 0 0] := by
    refine ⟨?_, trivial, trivial⟩
    rintro _ ⟨⟩
    exact ⟨by decide, by decide⟩
  have hiff := gave_up_for_good_iff hwf (by decide) hr hm
  have hnever := hiff.1.mpr (hiff.2.2 (hwf.cursorLinked nofun))
  have hlast : t ∈ trajectory PoolOp.exec p
      [.build .buildNvmBlock 7 5 (some 1), .getEmptyBlock 0 0] := .tail _ (.tail _ (.head _))
  exact ⟨by decide, hnever t hlast⟩

end NvmBlkCache
