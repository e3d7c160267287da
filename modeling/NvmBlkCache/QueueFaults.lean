import NvmBlkCache.HwQueues
import NvmBlkCache.RunFootprint

/-!
# What one queue does to the others

The rounds of several hardware queues in any order, now with whatever fails in them. A write that meets
an unknown sector oopses and takes its queue along, with one block. The other queues do not notice: how
a request ends does not depend on them.
-/
namespace NvmBlkCache
open FaultProgram ByteMemory LabelledRun NvmCacheBlkPool HwQueues

/-- What a round that does not oops leaves of the machine. -/
structure RoundKept (m : Machine) (req : NvmCacheIoReq) (k : ℕ) (t : Machine) : Prop where
  cache_eq : t.cache = m.cache
  lowerBdev_eq : t.lowerBdev = m.lowerBdev
  untouched : ∀ a, (req.dir = .cacheWrite → ∀ id, m.blockOf (req.sector k) = some id →
    m.blockVaddr id ≠ 0 → ¬ InWindow (m.blockVaddr id) 512 a) → t.nvm a = m.nvm a

/-- A round of a queue that has `req` in work, `k` sectors of it done: what it leaves of the machine, and
what the queue is at afterwards. -/
inductive Round (m : Machine) (req : NvmCacheIoReq) (k : ℕ) : Machine → QueueWork → Prop
  | done (ends : req.lbaNum.toNat ≤ k) : Round m req k m .idle
  | served (t : Machine) (more : k < req.lbaNum.toNat) (kept : RoundKept m req k t)
      (known : req.dir = .cacheWrite → m.blockOf (req.sector k) ≠ none) :
      Round m req k t (.serving req (k + 1))
  | noMemory (t : Machine) (more : k < req.lbaNum.toNat) (kept : RoundKept m req k t)
      (read : req.dir = .cacheRead) : Round m req k t .idle
  | oops (p : NvmCacheBlkPool) (more : k < req.lbaNum.toNat) (left : LeftByNull m.cache.blkPool p)
      (write : req.dir = .cacheWrite) (unknown : m.blockOf (req.sector k) = none) :
      Round m req k { m with cache := { m.cache with blkPool := p } } .oopsed

/-- The table maps what it mapped, and the lower device is as it was. -/
structure TableKept (m t : Machine) : Prop where
  ready : t.Ready
  accessor_eq : t.cache.accessor = m.cache.accessor
  mapper_eq : t.cache.mapper = m.cache.mapper
  lowerBdev_eq : t.lowerBdev = m.lowerBdev
  usedIds_eq : t.cache.blkPool.usedIds = m.cache.blkPool.usedIds
  blockOf_eq : t.blockOf = m.blockOf

section Round
variable {m t : Machine} {req : NvmCacheIoReq} {k : ℕ} {id : NvmCacheBlkId}

namespace RoundKept

theorem of_dram (ht : t = { m with dram := t.dram, outcomes := t.outcomes }) : RoundKept m req k t :=
  ⟨by rw [ht], by rw [ht], fun _ _ => by rw [ht]⟩

theorem readBlock (buffer : Addr) (id : NvmCacheBlkId) : RoundKept m req k (m.readBlock buffer id) := by
  apply of_dram
  unfold Machine.readBlock
  split_ifs <;> rfl

theorem afterBio (l : LbaType) (buffer : Addr) :
    RoundKept m req k (m.afterKmalloc.afterBio ⟨l, 1, buffer, .cacheRead⟩) := by
  apply of_dram
  unfold Machine.afterBio
  split_ifs
  · rw [bioTransfer_read]
    rfl
  · rfl

theorem writeBlock (hdir : req.dir = .cacheWrite) (hb : m.blockOf (req.sector k) = some id)
    (buffer : Addr) : RoundKept m req k (m.writeBlock buffer id) := by
  unfold Machine.writeBlock
  split_ifs with hc
  · exact ⟨rfl, rfl, fun a ha => Mem.write_outside (ha hdir id hb hc.2)⟩
  · exact ⟨rfl, rfl, fun _ _ => rfl⟩

end RoundKept

namespace Machine.Ready

/-- A round of a read: it moves the sector or has no memory for it. -/
theorem read_round (h : m.Ready) (hdir : req.dir = .cacheRead) :
    ∃ a t, serveSector req (UInt64.ofNat k) m = .ok a t ∧ RoundKept m req k t := by
  rw [serveSector, hdir]
  cases hb : m.blockOf (req.sector k) with
  | some id => exact ⟨_, _, readSector_hit req h.wf h.mapper hb, .readBlock _ id⟩
  | none =>
    by_cases hk : m.outcomes.kmalloc.head = 0
    · exact ⟨_, _, readSector_noMemory req h.wf hb hk, .of_dram rfl⟩
    · have hround := readSector_miss req h.wf hb hk
      rw [hdir] at hround
      exact ⟨_, _, hround, .afterBio _ _⟩

theorem write_round_hit (h : m.Ready) (hdir : req.dir = .cacheWrite)
    (hb : m.blockOf (req.sector k) ≠ none) :
    ∃ t, serveSector req (UInt64.ofNat k) m = .ok none t ∧ RoundKept m req k t := by
  obtain ⟨id, hb⟩ := Option.ne_none_iff_exists'.mp hb
  rw [serveSector, hdir]
  exact ⟨_, writeSector_hit req h.wf h.mapper hb, .writeBlock hdir hb _⟩

theorem write_round_miss (h : m.Ready) (hdir : req.dir = .cacheWrite)
    (hb : m.blockOf (req.sector k) = none) :
    ∃ p, LeftByNull m.cache.blkPool p ∧ serveSector req (UInt64.ofNat k) m =
      .error .nullDeref { m with cache := { m.cache with blkPool := p } } := by
  rw [serveSector, hdir]
  exact writeSector_miss req h.wf hb

end Machine.Ready

namespace TableKept

theorem refl (h : m.Ready) : TableKept m m := ⟨h, rfl, rfl, rfl, rfl, rfl⟩

theorem of_cache (h : m.Ready) (hcache : t.cache = m.cache) (hlower : t.lowerBdev = m.lowerBdev) :
    TableKept m t where
  ready := h.of_eq hcache
  accessor_eq := by rw [hcache]
  mapper_eq := by rw [hcache]
  lowerBdev_eq := hlower
  usedIds_eq := by rw [hcache]
  blockOf_eq := by simp only [funext_iff, Machine.blockOf, hcache, implies_true]

theorem trans {u : Machine} (h : TableKept m t) (h' : TableKept t u) : TableKept m u where
  ready := h'.ready
  accessor_eq := h'.accessor_eq.trans h.accessor_eq
  mapper_eq := h'.mapper_eq.trans h.mapper_eq
  lowerBdev_eq := h'.lowerBdev_eq.trans h.lowerBdev_eq
  usedIds_eq := h'.usedIds_eq.trans h.usedIds_eq
  blockOf_eq := h'.blockOf_eq.trans h.blockOf_eq

theorem blockVaddr_eq (h : TableKept m t) : t.blockVaddr = m.blockVaddr :=
  Machine.blockVaddr_congr h.accessor_eq h.mapper_eq

end TableKept

namespace Round
variable {w : QueueWork}

theorem tableKept (hr : Round m req k t w) (h : m.Ready) : TableKept m t := by
  cases hr with
  | done _ => exact .refl h
  | served _ _ hkept _ => exact .of_cache h hkept.cache_eq hkept.lowerBdev_eq
  | noMemory _ _ hkept _ => exact .of_cache h hkept.cache_eq hkept.lowerBdev_eq
  | oops p _ hleft _ _ =>
    exact ⟨⟨hleft.wf, h.mapper⟩, rfl, rfl, rfl, hleft.usedIds_eq, hleft.blockOf_eq⟩

theorem untouched (hr : Round m req k t w) {a : Addr} (ha : req.dir = .cacheWrite →
    k < req.lbaNum.toNat → ∀ id, m.blockOf (req.sector k) = some id → m.blockVaddr id ≠ 0 →
      ¬ InWindow (m.blockVaddr id) 512 a) : t.nvm a = m.nvm a := by
  cases hr with
  | done _ => rfl
  | served _ hmore hkept _ => exact hkept.untouched a fun hdir => ha hdir hmore
  | noMemory _ hmore hkept _ => exact hkept.untouched a fun hdir => ha hdir hmore
  | oops _ _ _ _ _ => rfl

theorem emptyIds_kept (hr : Round m req k t w) (hw : w ≠ .oopsed) :
    t.cache.blkPool.emptyIds = m.cache.blkPool.emptyIds := by
  cases hr with
  | done _ => rfl
  | served _ _ hkept _ => rw [hkept.cache_eq]
  | noMemory _ _ hkept _ => rw [hkept.cache_eq]
  | oops _ _ _ _ _ => exact absurd rfl hw

theorem emptyIds_lost (hr : Round m req k t .oopsed) :
    t.cache.blkPool.emptyIds = m.cache.blkPool.emptyIds.tail := by
  cases hr with
  | oops _ _ hleft _ _ => exact hleft.emptyIds_eq

/-- The queue goes on with the next sector, of which the table knows all if they are to be written. -/
theorem serving {req' : NvmCacheIoReq} {k' : ℕ} (hr : Round m req k t (.serving req' k')) :
    req' = req ∧ k' = k + 1 ∧ (req.dir = .cacheWrite → m.blockOf (req.sector k) ≠ none) := by
  cases hr with
  | served _ _ _ hknown => exact ⟨rfl, rfl, hknown⟩

end Round

end Round

namespace HwQueues
variable {s : HwQueues} {m t : Machine} {req : NvmCacheIoReq} {queue k : ℕ} {w : QueueWork}

theorem exec_round (h : s.machine.Ready) (hq : s.work queue = .serving req k) :
    ∃ t w, s.exec (.round queue) = s.setWork t queue w ∧ Round s.machine req k t w := by
  rw [exec, hq]
  by_cases hk : k < req.lbaNum.toNat
  · simp only [if_pos hk]
    cases hdir : req.dir with
    | cacheRead =>
      obtain ⟨a, t, hrun, hkept⟩ := h.read_round hdir
      rw [hrun]
      cases a with
      | none => exact ⟨_, _, rfl, .served t hk hkept fun hw => by rw [hdir] at hw; cases hw⟩
      | some ret => exact ⟨_, _, rfl, .noMemory t hk hkept hdir⟩
    | cacheWrite =>
      by_cases hb : s.machine.blockOf (req.sector k) = none
      · obtain ⟨p, hleft, hrun⟩ := h.write_round_miss hdir hb
        rw [hrun]
        exact ⟨_, _, rfl, .oops p hk hleft hdir hb⟩
      · obtain ⟨t, hrun, hkept⟩ := h.write_round_hit hdir hb
        rw [hrun]
        exact ⟨_, _, rfl, .served t hk hkept fun _ => hb⟩
  · simp only [if_neg hk]
    exact ⟨_, _, rfl, .done (Nat.le_of_not_lt hk)⟩

theorem exec_round_off (hq : ∀ req k, s.work queue ≠ .serving req k) :
    s.exec (.round queue) = s := by
  rw [exec]
  cases hw : s.work queue with
  | serving req k => exact absurd hw (hq req k)
  | _ => rfl

theorem ready_exec (h : s.machine.Ready) (turn : Turn) : (s.exec turn).machine.Ready := by
  cases turn with
  | submit queue req dram => exact h.of_eq rfl
  | round queue =>
    cases hq : s.work queue with
    | serving req k =>
      obtain ⟨t, w, he, hr⟩ := exec_round h hq
      rw [he]
      exact (hr.tableKept h).ready
    | idle => rwa [exec_round_off (by simp [hq])]
    | oopsed => rwa [exec_round_off (by simp [hq])]

/-- A round changes no queue but its own. -/
theorem exec_round_others (s : HwQueues) {queue queue' : ℕ} (hne : queue' ≠ queue) :
    (s.exec (.round queue)).work queue' = s.work queue' := by
  rw [exec]
  cases hw : s.work queue with
  | serving req k =>
    by_cases hk : k < req.lbaNum.toNat
    · simp only [if_pos hk]
      rcases serveSector req (UInt64.ofNat k) s.machine with ⟨_ | _, _⟩ | _ <;>
        exact setWork_of_ne hne _
    · simp only [if_neg hk]
      exact setWork_of_ne hne _
  | _ => rfl

theorem exec_others {turn : Turn} (hs : turn.submitsTo queue = false) (hr : turn.goesOn queue = false) :
    (s.exec turn).work queue = s.work queue := by
  cases turn with
  | submit queue' req dram => exact setWork_of_ne (Ne.symm (beq_eq_false_iff_ne.mp hs)) _
  | round queue' => exact exec_round_others s (Ne.symm (beq_eq_false_iff_ne.mp hr))

/-- A queue that has nothing in work stays so until it is handed a request. -/
theorem run_off {turns : List Turn} (hq : ∀ req k, s.work queue ≠ .serving req k)
    (hs : ∀ turn ∈ turns, turn.submitsTo queue = false) :
    (run exec s turns).work queue = s.work queue := by
  induction turns generalizing s with
  | nil => rfl
  | cons turn turns ih =>
    rw [List.forall_mem_cons] at hs
    have hnext : (s.exec turn).work queue = s.work queue := by
      by_cases hr : turn.goesOn queue = true
      · cases turn with
        | submit queue' req dram => cases hr
        | round queue' => rw [← beq_iff_eq.mp hr, exec_round_off (by rwa [beq_iff_eq.mp hr])]
      · exact exec_others hs.1 (Bool.not_eq_true _ ▸ hr)
    rw [run_cons, ih (by rwa [hnext]) hs.2, hnext]

/-- What the turns leave of `m`, on which they began. -/
structure Contained (m : Machine) (turns : List Turn) (s : HwQueues) : Prop where
  table : TableKept m s.machine
  handed : ∀ queue req k, s.work queue = .serving req k → ∃ dram, .submit queue req dram ∈ turns
  known : ∀ queue req k, s.work queue = .serving req k → req.dir = .cacheWrite →
    ∀ j < k, m.blockOf (req.sector j) ≠ none
  untouched : ∀ a, (∀ queue req dram, .submit queue req dram ∈ turns →
    ¬ m.MayWrite ⟨req, dram, m.outcomes⟩ a) → s.machine.nvm a = m.nvm a

namespace Contained
variable {turns : List Turn}

theorem start (h : s.machine.Ready) (hidle : ∀ queue, s.work queue = .idle) :
    Contained s.machine [] s where
  table := .refl h
  handed := fun queue req k hq => by simp [hidle queue] at hq
  known := fun queue req k hq => by simp [hidle queue] at hq
  untouched := fun _ _ => rfl

/-- A queue whose work is replaced, by a turn that leaves the table alone. -/
theorem setWork (h : Contained m turns s) (turn : Turn) (ht : TableKept s.machine t)
    (hw : ∀ req k, w = .serving req k → (∃ dram, .submit queue req dram ∈ turns ++ [turn]) ∧
      (req.dir = .cacheWrite → ∀ j < k, m.blockOf (req.sector j) ≠ none))
    (hnvm : ∀ a, (∀ queue req dram, .submit queue req dram ∈ turns ++ [turn] →
      ¬ m.MayWrite ⟨req, dram, m.outcomes⟩ a) → t.nvm a = s.machine.nvm a) :
    Contained m (turns ++ [turn]) (s.setWork t queue w) where
  table := h.table.trans ht
  handed := by
    intro queue' req k hq
    by_cases hqq : queue' = queue
    · subst hqq
      rw [setWork_self] at hq
      exact (hw req k hq).1
    · rw [setWork_of_ne hqq] at hq
      obtain ⟨dram, hmem⟩ := h.handed queue' req k hq
      exact ⟨dram, List.mem_append_left _ hmem⟩
  known := by
    intro queue' req k hq
    by_cases hqq : queue' = queue
    · subst hqq
      rw [setWork_self] at hq
      exact (hw req k hq).2
    · rw [setWork_of_ne hqq] at hq
      exact h.known queue' req k hq
  untouched := fun a ha => (hnvm a ha).trans
    (h.untouched a fun queue req dram hmem => ha queue req dram (List.mem_append_left _ hmem))

theorem submit (h : Contained m turns s) (queue : ℕ) (req : NvmCacheIoReq) (dram : Mem) :
    Contained m (turns ++ [.submit queue req dram]) (s.exec (.submit queue req dram)) := by
  refine h.setWork _ (.of_cache h.table.ready rfl rfl) ?_ fun _ _ => rfl
  rintro req' k ⟨⟩
  exact ⟨⟨dram, by simp⟩, fun _ j hj => absurd hj (Nat.not_lt_zero j)⟩

theorem more (h : Contained m turns s) (turn : Turn) : Contained m (turns ++ [turn]) s where
  table := h.table
  handed := fun queue req k hq =>
    (h.handed queue req k hq).imp fun _ hmem => List.mem_append_left _ hmem
  known := h.known
  untouched := fun a ha =>
    h.untouched a fun queue req dram hmem => ha queue req dram (List.mem_append_left _ hmem)

theorem round (h : Contained m turns s) (queue : ℕ) :
    Contained m (turns ++ [.round queue]) (s.exec (.round queue)) := by
  cases hq : s.work queue with
  | serving req k =>
    obtain ⟨t, w, he, hr⟩ := exec_round h.table.ready hq
    obtain ⟨dram, hmem⟩ := h.handed queue req k hq
    have hmem' := List.mem_append_left [Turn.round queue] hmem
    rw [he]
    refine h.setWork _ (hr.tableKept h.table.ready) ?_ fun a ha => ?_
    · rintro req' k' rfl
      obtain ⟨rfl, rfl, hknown⟩ := hr.serving
      refine ⟨⟨dram, hmem'⟩, fun hdir j hj => ?_⟩
      rcases Nat.lt_succ_iff_lt_or_eq.mp hj with hj | rfl
      · exact h.known queue req' k hq hdir j hj
      · rw [← h.table.blockOf_eq]
        exact hknown hdir
    · apply hr.untouched
      intro hdir hk id hb hv hin
      rw [h.table.blockOf_eq] at hb
      rw [h.table.blockVaddr_eq] at hv hin
      exact ha queue req dram hmem' ⟨hdir, k, hk, id, hb, hv, hin⟩
  | idle =>
    rw [exec_round_off (by simp [hq])]
    exact h.more _
  | oopsed =>
    rw [exec_round_off (by simp [hq])]
    exact h.more _

theorem exec (h : Contained m turns s) (turn : Turn) :
    Contained m (turns ++ [turn]) (s.exec turn) := by
  cases turn with
  | submit queue req dram => exact h.submit queue req dram
  | round queue => exact h.round queue

theorem run (h : s.machine.Ready) (hidle : ∀ queue, s.work queue = .idle) (turns : List Turn) :
    Contained s.machine turns (LabelledRun.run HwQueues.exec s turns) := by
  induction turns using List.reverseRecOn with
  | nil => exact start h hidle
  | append_singleton turns turn ih =>
    rw [run_append]
    exact ih.exec turn

/-- A request has ended after as many rounds as it has sectors left, and one. -/
theorem ended (h : Contained m turns s) (hq : s.work queue = .serving req k) {later : List Turn}
    (hs : ∀ turn ∈ later, turn.submitsTo queue = false)
    (hrounds : req.lbaNum.toNat - k < later.countP (Turn.goesOn queue)) :
    (LabelledRun.run HwQueues.exec s later).work queue =
      if req.dir = .cacheWrite ∧ m.HasMiss req then .oopsed else .idle := by
  induction later generalizing s turns k with
  | nil => simp at hrounds
  | cons turn later ih =>
    rw [List.forall_mem_cons] at hs
    rw [run_cons]
    cases hgo : turn.goesOn queue with
    | false =>
      rw [List.countP_cons_of_neg (by simp [hgo])] at hrounds
      exact ih (h.exec turn) ((exec_others hs.1 hgo).trans hq) hs.2 hrounds
    | true =>
      rw [List.countP_cons_of_pos hgo] at hrounds
      cases turn with
      | submit queue' req' dram => cases hgo
      | round queue' =>
        obtain rfl : queue' = queue := beq_iff_eq.mp hgo
        obtain ⟨t, w, he, hr⟩ := exec_round h.table.ready hq
        have hwork : (s.exec (.round queue')).work queue' = w := by rw [he, setWork_self]
        cases hr with
        | done hends =>
          have hno : ¬ (req.dir = .cacheWrite ∧ m.HasMiss req) := by
            rintro ⟨hdir, j, hj, hb⟩
            exact h.known queue' req k hq hdir j (hj.trans_le hends) hb
          rw [run_off (by simp [hwork]) hs.2, hwork, if_neg hno]
        | served _ _ _ _ => exact ih (h.exec _) hwork hs.2 (by omega)
        | noMemory _ _ _ hread =>
          rw [run_off (by simp [hwork]) hs.2, hwork, if_neg (by simp [hread])]
        | oops _ hk _ hwrite hb =>
          rw [h.table.blockOf_eq] at hb
          rw [run_off (by simp [hwork]) hs.2, hwork, if_pos ⟨hwrite, k, hk, hb⟩]

end Contained

/-- A queue is handed a request only when it has none. -/
def OneAtATime (s : HwQueues) : Turn → Prop
  | .submit queue _ _ => s.work queue = .idle
  | .round _ => True

def oopsed (s : HwQueues) : Set ℕ := {queue | s.work queue = .oopsed}

theorem oopsed_setWork_of_ne (hq : s.work queue ≠ .oopsed) (hw : w ≠ .oopsed) :
    (s.setWork t queue w).oopsed = s.oopsed := by
  ext queue'
  by_cases hqq : queue' = queue
  · subst hqq
    simp [oopsed, hq, hw]
  · simp [oopsed, setWork_of_ne hqq]

theorem oopsed_setWork : (s.setWork t queue .oopsed).oopsed = Insert.insert queue s.oopsed := by
  ext queue'
  by_cases hqq : queue' = queue
  · subst hqq
    simp [oopsed]
  · simp [oopsed, setWork_of_ne hqq, hqq]

/-- Each queue that has oopsed has taken a block, as long as there was one. -/
structure Counted (m : Machine) (s : HwQueues) : Prop where
  finite : s.oopsed.Finite
  emptyIds_eq :
    s.machine.cache.blkPool.emptyIds = m.cache.blkPool.emptyIds.drop s.oopsed.ncard

namespace Counted

theorem start (s : HwQueues) (hidle : ∀ queue, s.work queue = .idle) : Counted s.machine s := by
  have hnone : s.oopsed = ∅ := by simp [oopsed, hidle]
  constructor <;> simp [hnone]

theorem kept (h : Counted m s) (hq : s.work queue ≠ .oopsed) (hw : w ≠ .oopsed)
    (he : t.cache.blkPool.emptyIds = s.machine.cache.blkPool.emptyIds) :
    Counted m (s.setWork t queue w) := by
  constructor
  · rw [oopsed_setWork_of_ne hq hw]
    exact h.finite
  · rw [oopsed_setWork_of_ne hq hw, ← h.emptyIds_eq]
    exact he

theorem lost (h : Counted m s) (hq : s.work queue ≠ .oopsed)
    (he : t.cache.blkPool.emptyIds = s.machine.cache.blkPool.emptyIds.tail) :
    Counted m (s.setWork t queue .oopsed) := by
  have hcard : (Insert.insert queue s.oopsed).ncard = s.oopsed.ncard + 1 :=
    Set.ncard_insert_of_notMem hq h.finite
  constructor
  · rw [oopsed_setWork]
    exact h.finite.insert queue
  · rw [oopsed_setWork, hcard, ← List.tail_drop, ← h.emptyIds_eq]
    exact he

theorem exec (h : Counted m s) (hready : s.machine.Ready) {turn : Turn} (hone : s.OneAtATime turn) :
    Counted m (s.exec turn) := by
  cases turn with
  | submit queue req dram =>
    have hidle : s.work queue = .idle := hone
    exact h.kept (by simp [hidle]) nofun rfl
  | round queue =>
    cases hq : s.work queue with
    | serving req k =>
      obtain ⟨t, w, he, hr⟩ := exec_round hready hq
      rw [he]
      by_cases hw : w = .oopsed
      · subst hw
        exact h.lost (by simp [hq]) hr.emptyIds_lost
      · exact h.kept (by simp [hq]) hw (hr.emptyIds_kept hw)
    | idle => rwa [exec_round_off (by simp [hq])]
    | oopsed => rwa [exec_round_off (by simp [hq])]

end Counted

end HwQueues

/-- Whatever fails in the rounds of the queues, in whatever order they come: sectors neither enter the
cache nor leave it, and a block of NVM changes only if a request that was handed over writes its sector.
Each queue that has oopsed has cost one empty block. A request ends within as many rounds of its queue as
it has sectors, and one, whatever the other queues do: with an oops if it writes a sector that was not in
the cache to begin with, and otherwise without. -/
theorem queues_contained {s : HwQueues} (h : s.machine.Ready) (hidle : ∀ queue, s.work queue = .idle)
    {turns : List Turn} (hone : Along HwQueues.exec HwQueues.OneAtATime s turns) :
    let t := run HwQueues.exec s turns
    HwQueues.Contained s.machine turns t ∧
    t.machine.cache.blkPool.emptyIds = s.machine.cache.blkPool.emptyIds.drop t.oopsed.ncard ∧
    ∀ queue req k, t.work queue = .serving req k → ∀ later : List Turn,
      (∀ turn ∈ later, turn.submitsTo queue = false) →
      req.lbaNum.toNat - k < later.countP (Turn.goesOn queue) →
      (run HwQueues.exec t later).work queue =
        if req.dir = .cacheWrite ∧ s.machine.HasMiss req then .oopsed else .idle := by
  have hcontained := HwQueues.Contained.run h hidle turns
  have hcounted := run_invariant
    (fun t => t.machine.Ready ∧ HwQueues.Counted s.machine t)
    (fun t turn ht hturn => ⟨HwQueues.ready_exec ht.1 turn, ht.2.exec ht.1 hturn⟩)
    ⟨h, HwQueues.Counted.start s hidle⟩ hone
  exact ⟨hcontained, hcounted.2.emptyIds_eq, fun queue req k hq later hs hrounds =>
    hcontained.ended hq hs hrounds⟩

/-- A write that oopses beside a read that goes on. -/
theorem queues_contained_writeBesideRead :
    let s : HwQueues := ⟨oneBlock, fun _ => .idle⟩
    let t := run HwQueues.exec s [.submit 0 ⟨5, 2, 0x9000, .cacheWrite⟩ oneBlock.dram,
      .submit 1 ⟨5, 2, 0x8000, .cacheRead⟩ oneBlock.dram]
    let t' := run HwQueues.exec t [.round 1, .round 0, .round 1, .round 0, .round 0, .round 1]
    t'.work 0 = .oopsed ∧ t'.work 1 = .idle := by
  intro s t t'
  have hone : Along HwQueues.exec HwQueues.OneAtATime s
      [.submit 0 ⟨5, 2, 0x9000, .cacheWrite⟩ oneBlock.dram,
        .submit 1 ⟨5, 2, 0x8000, .cacheRead⟩ oneBlock.dram] := ⟨rfl, rfl, trivial⟩
  have hmiss : oneBlock.HasMiss ⟨5, 2, 0x9000, .cacheWrite⟩ := ⟨0, by decide, oneBlock_unmapped _⟩
  have hwrite : t.work 0 = .serving ⟨5, 2, 0x9000, .cacheWrite⟩ 0 := rfl
  have hread : t.work 1 = .serving ⟨5, 2, 0x8000, .cacheRead⟩ 0 := rfl
  obtain ⟨-, -, hends⟩ := queues_contained (s := s) oneBlock_ready (fun _ => rfl) hone
  constructor
  · rw [hends 0 _ 0 hwrite _ (by decide) (by decide), if_pos ⟨rfl, hmiss⟩]
  · rw [hends 1 _ 0 hread _ (by decide) (by decide), if_neg (by simp)]

end NvmBlkCache
