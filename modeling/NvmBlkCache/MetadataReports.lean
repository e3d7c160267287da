import NvmBlkCache.FormatRun

/-!
# What the metadata functions report

`get_lba`, `set_lba` and `nvm_cache_format` over an accessor that may do anything: each call moves some
bytes and returns how many, or moves none and returns `EINVAL`. The callers compare what they get with
the size of an element, and `EINVAL`, which is 22, passes for a whole one.
-/
namespace NvmBlkCache
open FaultProgram ByteMemory

/-- What one call of the accessor comes to. -/
inductive AccessOutcome
  | moved (count : UInt64)
  | refused
  deriving DecidableEq, Repr

namespace AccessOutcome

def count : AccessOutcome → UInt64
  | moved count => count
  | refused => einval

/-- The check that follows every call. -/
def short (o : AccessOutcome) : Bool := shortOfU64 (toInt o.count)

/-- The element of eight bytes has been moved. -/
def Whole : AccessOutcome → Prop
  | moved count => 8 ≤ count.toNat
  | refused => False

def load (o : AccessOutcome) (buffer virtAddr : Addr) (m : Machine) : Machine :=
  match o with
  | moved count => m.loadNvm buffer virtAddr count.toNat
  | refused => m

def store (o : AccessOutcome) (virtAddr buffer : Addr) (m : Machine) : Machine :=
  match o with
  | moved count => m.storeNvm virtAddr buffer count.toNat
  | refused => m

/-- The `int` keeps the low half of a byte count. -/
theorem short_moved (count : UInt64) :
    (moved count).short = true ↔ count.toNat % 2 ^ 32 < 8 := by
  have hlow : count.toUInt32.toBitVec.toNat = count.toNat % 2 ^ 32 := UInt64.toNat_toUInt32 count
  have hsign : (toInt count).toInt64.toUInt64.toNat =
      (count.toUInt32.toBitVec.signExtend 64).toNat := rfl
  rw [short, AccessOutcome.count, shortOfU64, decide_eq_true_eq, UInt64.lt_iff_toNat_lt, hsign,
    BitVec.toNat_signExtend, BitVec.toNat_setWidth, BitVec.msb_eq_decide, hlow]
  simp only [UInt64.reduceToNat, decide_eq_true_eq]
  split_ifs <;> omega

theorem not_short_refused : refused.short = false := by decide

theorem whole_of_passes {o : AccessOutcome} (hshort : o.short = false) (hne : o ≠ refused) :
    o.Whole := by
  cases o with
  | refused => exact absurd rfl hne
  | moved count =>
    have hlow : ¬ count.toNat % 2 ^ 32 < 8 := by
      rw [← short_moved, hshort]
      exact Bool.false_ne_true
    unfold Whole
    omega

/-- The calls that are made out of those a function is ready to make: it stops at the first short
one. -/
def issued : List AccessOutcome → List AccessOutcome
  | [] => []
  | o :: os => if o.short then [o] else o :: issued os

/-- When the checks come to the right answer: the call they stop at was really short, and behind a
refusal, which they let pass, there is a call they stop at. -/
def Reportable : List AccessOutcome → Prop
  | [] => True
  | o :: os =>
    if o.short then ¬ o.Whole
    else if o = refused then ∃ p ∈ os, p.short = true
    else Reportable os

theorem reportable_iff (os : List AccessOutcome) :
    (os.any short = false ↔ ∀ o ∈ issued os, o.Whole) ↔ Reportable os := by
  induction os with
  | nil => simp [issued, Reportable]
  | cons o os ih =>
    by_cases hshort : o.short = true
    · simp [issued, Reportable, hshort]
    · rw [Bool.not_eq_true] at hshort
      by_cases hne : o = refused
      · subst hne
        simp [issued, Reportable, hshort, Whole]
      · have hwhole := whole_of_passes hshort hne
        simpa [issued, Reportable, hshort, hne, hwhole] using ih

/-- With byte counts as an `int` holds them, no refusal may pass unless a short call stops the
function. -/
theorem reportable_of_int {os : List AccessOutcome}
    (h : ∀ count, .moved count ∈ os → count.toNat < 2 ^ 31) :
    Reportable os ↔ (∃ o ∈ os, o.short = true) ∨ refused ∉ os := by
  induction os with
  | nil => simp [Reportable]
  | cons o os ih =>
    have ih' := ih fun count hc => h count (List.mem_cons_of_mem o hc)
    cases o with
    | refused => simp [Reportable, not_short_refused]
    | moved count =>
      have hsmall := h count List.mem_cons_self
      by_cases hshort : (moved count).short = true
      · have hlow := (short_moved count).mp hshort
        have hnot : ¬ (moved count).Whole := by
          unfold Whole
          omega
        simp [Reportable, hshort, hnot]
      · simp [Reportable, hshort, ih']

end AccessOutcome

section Functions
variable {M : Type → Type} [Monad M] [MonadLiftT Prog M]

/-- `get_lba` over any pair of functions that move the bytes of a slot. -/
def getLbaWith (io : ByteIo M) (_lba : Addr) (id : NvmCacheBlkId) : M Int32 := do
  let m ← (get : Prog Machine)
  let count := toInt (← io.readByte m.bufferVar (slotOffset id))
  if shortOfU64 count then return -1
  return 0

def setLbaWith (io : ByteIo M) (lba : Addr) (id : NvmCacheBlkId) : M Int32 := do
  let count := toInt (← io.writeByte lba (setLbaOffset id))
  if shortOfU64 count then return -1
  return 0

end Functions

theorem getLba_eq (accessor : Option NvmAccessor) (lba : Addr) (id : NvmCacheBlkId) :
    getLba accessor lba id = getLbaWith (accessorByteIo accessor) lba id := rfl

theorem setLba_eq (accessor : Option NvmAccessor) (lba : Addr) (id : NvmCacheBlkId) :
    setLba accessor lba id = setLbaWith (accessorByteIo accessor) lba id := rfl

/-- The machine, what the calls of the accessor will come to, and what those made so far came to. -/
structure ReportState where
  machine : Machine
  outcomes : Stream' AccessOutcome
  issued : List AccessOutcome

abbrev ReportM := EStateM Fault ReportState

instance : MonadLift Prog ReportM where
  monadLift := zoom (fun s => s.machine) (fun m s => { s with machine := m })

/-- The next call, and what it does to the machine. -/
def nextCall (effect : AccessOutcome → Machine → Machine) : ReportM UInt64 := fun s =>
  .ok s.outcomes.head.count
    ⟨effect s.outcomes.head s.machine, s.outcomes.tail, s.issued ++ [s.outcomes.head]⟩

/-- The accessor over NVM at `base`. -/
def outcomeIo (base : Addr) : ByteIo ReportM where
  readByte buffer offset := nextCall fun o => o.load buffer (base + offset)
  writeByte buffer offset := nextCall fun o => o.store (base + offset) buffer

/-- The function returns, with 0 exactly if every call it made moved a whole element, and not with 0
if one was refused. -/
def ReportsExactly (x : ReportM Int32) (m : Machine) (outcomes : Stream' AccessOutcome) : Prop :=
  ∃ ret t, x ⟨m, outcomes, []⟩ = .ok ret t ∧ (ret = 0 ↔ ∀ o ∈ t.issued, o.Whole) ∧
    (.refused ∈ t.issued → ret ≠ 0)

section Run
variable {base : Addr} {s : ReportState} {x : ReportM Int32} {calls : ℕ}

/-- From `s` on, `x` makes up to `calls` calls with a check behind each, and answers -1 at a short
one. -/
def AnswersFor (calls : ℕ) (x : ReportM Int32) (s : ReportState) : Prop :=
  ∃ t, x s = .ok (if (s.outcomes.take calls).any AccessOutcome.short then -1 else 0) t ∧
    t.issued = s.issued ++ AccessOutcome.issued (s.outcomes.take calls)

/-- The state behind the next call. -/
def ReportState.called (s : ReportState) (effect : AccessOutcome → Machine → Machine) :
    ReportState :=
  ⟨effect s.outcomes.head s.machine, s.outcomes.tail, s.issued ++ [s.outcomes.head]⟩

theorem getMachine_report (s : ReportState) :
    (liftM (get : Prog Machine) : ReportM Machine) s = .ok s.machine s := rfl

theorem nextCall_apply (effect : AccessOutcome → Machine → Machine) (s : ReportState) :
    nextCall effect s = .ok s.outcomes.head.count (s.called effect) := rfl

theorem answersFor_zero (h : x s = .ok 0 s) : AnswersFor 0 x s :=
  ⟨s, h, (List.append_nil _).symm⟩

theorem answersFor_short {effect : AccessOutcome → Machine → Machine} (calls : ℕ)
    (hshort : s.outcomes.head.short = true) (h : x s = .ok (-1) (s.called effect)) :
    AnswersFor (calls + 1) x s := by
  refine ⟨s.called effect, ?_, ?_⟩
  · simpa [Stream'.take_succ, hshort] using h
  · simp [Stream'.take_succ, AccessOutcome.issued, hshort, ReportState.called]

theorem answersFor_next {y : ReportM Int32} {effect : AccessOutcome → Machine → Machine}
    (hshort : s.outcomes.head.short = false) (h : x s = y (s.called effect))
    (hy : AnswersFor calls y (s.called effect)) : AnswersFor (calls + 1) x s := by
  obtain ⟨t, hrun, hissued⟩ := hy
  refine ⟨t, ?_, ?_⟩
  · rw [h, hrun]
    simp [Stream'.take_succ, hshort, ReportState.called]
  · rw [hissued]
    simp [Stream'.take_succ, AccessOutcome.issued, hshort, ReportState.called]

theorem reportsExactly_iff {m : Machine} {outcomes : Stream' AccessOutcome}
    (h : AnswersFor calls x ⟨m, outcomes, []⟩) :
    ReportsExactly x m outcomes ↔ AccessOutcome.Reportable (outcomes.take calls) := by
  obtain ⟨t, hrun, hissued⟩ := h
  rw [List.nil_append] at hissued
  rw [← AccessOutcome.reportable_iff, ← hissued]
  have hzero : (if (outcomes.take calls).any AccessOutcome.short then (-1 : Int32) else 0) = 0 ↔
      (outcomes.take calls).any AccessOutcome.short = false := by
    split_ifs <;> simp_all
  constructor
  · rintro ⟨ret, t', hrun', hexact, -⟩
    rw [hrun] at hrun'
    cases hrun'
    exact hzero.symm.trans hexact
  · intro h
    exact ⟨_, t, hrun, hzero.trans h, fun hr hret => (h.mp (hzero.mp hret) _ hr).elim⟩

/-- One call and its check are all there is. -/
theorem answersFor_one {effect : AccessOutcome → Machine → Machine}
    (h : x s = (if s.outcomes.head.short then pure (-1) else pure 0 : ReportM Int32)
      (s.called effect)) : AnswersFor 1 x s := by
  cases hshort : s.outcomes.head.short with
  | true =>
    rw [hshort] at h
    exact answersFor_short 0 hshort h
  | false =>
    rw [hshort] at h
    exact answersFor_next hshort h (answersFor_zero rfl)

theorem getLbaWith_answers (base lba : Addr) (id : NvmCacheBlkId) (s : ReportState) :
    AnswersFor 1 (getLbaWith (outcomeIo base) lba id) s := by
  apply answersFor_one
  rw [getLbaWith, bind_ok (getMachine_report s)]
  exact bind_ok (nextCall_apply (fun o => o.load s.machine.bufferVar (base + slotOffset id)) s)

theorem setLbaWith_answers (base lba : Addr) (id : NvmCacheBlkId) (s : ReportState) :
    AnswersFor 1 (setLbaWith (outcomeIo base) lba id) s :=
  answersFor_one (bind_ok (nextCall_apply (fun o => o.store (base + setLbaOffset id) lba) s))

section Format

/-- One round of the loops of `nvm_cache_format`. -/
theorem formatSlot_called (base : Addr) (i : Int32) (s : ReportState) :
    formatSlot (outcomeIo base) i s =
      .ok (if s.outcomes.head.short then some (-1) else none)
        (s.called fun o => o.store (base + (i * 8).toInt64.toUInt64) s.machine.bufferVar) := by
  have hwrite : (outcomeIo base).writeByte s.machine.bufferVar (i * 8).toInt64.toUInt64 s = _ :=
    nextCall_apply (fun o => o.store (base + (i * 8).toInt64.toUInt64) s.machine.bufferVar) s
  rw [formatSlot, bind_ok (getMachine_report s)]
  refine (bind_ok hwrite).trans ?_
  change (if s.outcomes.head.short then _ else _ : ReportM (Option Int32)) _ = _
  split_ifs <;> rfl

/-- A loop of `r` rounds, with what comes behind it. -/
theorem answersFor_loop (base : Addr) {rest : ReportM Int32} (cond : Int32 → Bool) {r fuel i : ℕ}
    (hfuel : r < fuel) (hgo : ∀ k < r, cond (Int32.ofNat (i + k)) = true)
    (hstop : cond (Int32.ofNat (i + r)) = false) (hrest : ∀ s, AnswersFor calls rest s)
    (s : ReportState) :
    AnswersFor (calls + r) (do
      match ← forInt cond (formatSlot (outcomeIo base)) fuel (Int32.ofNat i) with
      | some ret => return ret
      | none => rest) s := by
  obtain ⟨fuel, rfl⟩ : ∃ f, fuel = f + 1 := ⟨fuel - 1, by omega⟩
  induction r generalizing i fuel s with
  | zero =>
    obtain ⟨t, hrun, hissued⟩ := hrest s
    exact ⟨t, (bind_ok (forInt_done hstop)).trans hrun, hissued⟩
  | succ r ih =>
    have hcond : cond (Int32.ofNat i) = true := hgo 0 (by omega)
    have hslot := formatSlot_called base (Int32.ofNat i) s
    cases hshort : s.outcomes.head.short with
    | true =>
      rw [hshort] at hslot
      exact answersFor_short _ hshort (bind_ok (forInt_return hcond hslot))
    | false =>
      rw [hshort] at hslot
      obtain ⟨fuel, rfl⟩ : ∃ f, fuel = f + 1 := ⟨fuel - 1, by omega⟩
      have hloop : forInt cond (formatSlot (outcomeIo base)) (fuel + 1 + 1) (Int32.ofNat i) s =
          forInt cond (formatSlot (outcomeIo base)) (fuel + 1) (Int32.ofNat (i + 1))
            (s.called fun o => o.store (base + (Int32.ofNat i * 8).toInt64.toUInt64)
              s.machine.bufferVar) := by
        rw [forInt_next hcond hslot, Int32.ofNat_add i 1]
        rfl
      refine answersFor_next hshort (bind_congr_run hloop) ?_
      apply ih
      · intro k hk
        rw [Nat.add_assoc, Nat.add_comm 1]
        exact hgo (k + 1) (by omega)
      · rw [Nat.add_assoc, Nat.add_comm 1]
        exact hstop
      · omega

theorem storeU64_report {p : Addr} (hp : p ≠ 0) (v : UInt64) (s : ReportState) :
    (liftM (storeU64 p v) : ReportM Unit) s =
      .ok () { s with machine.dram := s.machine.dram.store64 p v } :=
  zoom_ok (storeU64_apply (m := s.machine) hp v)

theorem loadU64_report {p : Addr} (hp : p ≠ 0) (s : ReportState) :
    (liftM (loadU64 p) : ReportM UInt64) s = .ok (s.machine.dram.load64 p) s :=
  zoom_ok (loadU64_apply (m := s.machine) hp)

/-- At the index -1, the largest `u64`, the second loop is over whatever the element number. -/
theorem secondLoop_stops (n : UInt64) :
    ¬ (Int32.ofNat (1 + (2 ^ 32 - 2))).toInt64.toUInt64 < n + cacheBlockStartIndex := by
  have hlast : (Int32.ofNat (1 + (2 ^ 32 - 2))).toInt64.toUInt64 = uint64Max := by decide
  have hle := (n + cacheBlockStartIndex).toNat_lt
  rw [hlast, UInt64.lt_iff_toNat_lt, uint64Max]
  simp only [UInt64.reduceToNat]
  omega

theorem secondLoop_ends (n : UInt64) :
    ∃ k, ¬ (Int32.ofNat (1 + k)).toInt64.toUInt64 < n + cacheBlockStartIndex :=
  ⟨2 ^ 32 - 2, secondLoop_stops n⟩

/-- How often the second loop goes round. -/
def secondRounds (n : UInt64) : ℕ := Nat.find (secondLoop_ends n)

theorem secondRounds_lt (n : UInt64) : secondRounds n < 2 ^ 32 := by
  have hle := Nat.find_min' (secondLoop_ends n) (secondLoop_stops n)
  unfold secondRounds
  omega

theorem secondRounds_go {n : UInt64} {k : ℕ} (hk : k < secondRounds n) :
    (Int32.ofNat (1 + k)).toInt64.toUInt64 < n + cacheBlockStartIndex :=
  not_not.mp (Nat.find_min (secondLoop_ends n) hk)

theorem secondRounds_stop (n : UInt64) :
    ¬ (Int32.ofNat (1 + secondRounds n)).toInt64.toUInt64 < n + cacheBlockStartIndex :=
  Nat.find_spec (secondLoop_ends n)

theorem secondRounds_eq {n : UInt64} (hn : n.toNat < 2 ^ 63) : secondRounds n = formatRounds n :=
  (Nat.find_eq_iff (secondLoop_ends n)).mpr
    ⟨formatRounds_stop hn, fun _ hk => not_not_intro (formatRounds_go hn hk)⟩

theorem answersFor_store {p : Addr} (hp : p ≠ 0) (v : UInt64)
    (hx : ∀ s, AnswersFor calls x s) (s : ReportState) :
    AnswersFor calls (do storeU64 p v; x) s := by
  obtain ⟨t, hrun, hissued⟩ := hx { s with machine.dram := s.machine.dram.store64 p v }
  exact ⟨t, (bind_ok (storeU64_report hp v s)).trans hrun, hissued⟩

/-- The two loops of `nvm_cache_format`, with `buffer` at `p`. -/
def formatLoops (base p : Addr) (n : UInt64) : ReportM Int32 := do
  storeU64 p nvmCacheMagicNumber
  match ← forInt (fun i => i < 1) (formatSlot (outcomeIo base)) (2 ^ 32) 0 with
  | some ret => return ret
  | none =>
    storeU64 p nvmCacheFormattedValue
    match ← forInt (fun i => i.toInt64.toUInt64 < n + cacheBlockStartIndex)
        (formatSlot (outcomeIo base)) (2 ^ 32) 1 with
    | some ret => return ret
    | none => return 0

theorem formatLoops_answers (base : Addr) {p : Addr} (hp : p ≠ 0) (n : UInt64) :
    ∀ s, AnswersFor (secondRounds n + 1) (formatLoops base p n) s := by
  have hone : (1 : ℕ) < 2 ^ 32 := by decide
  have hreturn : ∀ s, AnswersFor 0 (pure 0) s := fun s => answersFor_zero rfl
  apply answersFor_store hp
  apply answersFor_loop base (fun i => i < 1) hone (by decide) (by decide)
  apply answersFor_store hp
  intro s
  have hsecond := answersFor_loop base
    (fun i => i.toInt64.toUInt64 < n + cacheBlockStartIndex) (secondRounds_lt n)
    (fun k hk => decide_eq_true (secondRounds_go hk)) (decide_eq_false (secondRounds_stop n))
    hreturn s
  rw [Nat.zero_add] at hsecond
  exact hsecond

/-- The read of slot 0, its check, and the branch behind it. -/
theorem format_reads (base : Addr) (ha : s.machine.cache.accessor.isSome)
    (hb : s.machine.bufferVar ≠ 0) :
    nvmCacheFormatWith (outcomeIo base) s =
      (if s.outcomes.head.short then pure (-1)
      else if (s.outcomes.head.load s.machine.bufferVar base s.machine).dram.load64
          s.machine.bufferVar = nvmCacheMagicNumber then pure 0
      else match s.machine.cache.mapper with
        | none => pure (-1)
        | some mapper => formatLoops base s.machine.bufferVar mapper.elementNum : ReportM Int32)
        (s.called fun o => o.load s.machine.bufferVar base) := by
  have hnone : s.machine.cache.accessor.isNone = false := by
    rw [← Option.not_isSome, ha]
    rfl
  have hread : (outcomeIo base).readByte s.machine.bufferVar 0 s =
      .ok s.outcomes.head.count (s.called fun o => o.load s.machine.bufferVar base) := by
    change nextCall (fun o => o.load s.machine.bufferVar (base + 0)) s = _
    rw [UInt64.add_zero, nextCall_apply]
  have hload := loadU64_report hb (s.called fun o => o.load s.machine.bufferVar base)
  rw [nvmCacheFormatWith, bind_ok (getMachine_report s)]
  simp only [hnone, Bool.false_eq_true, if_false]
  rw [bind_ok hread]
  cases hshort : s.outcomes.head.short with
  | true =>
    have hcheck : shortOfU64 (toInt s.outcomes.head.count) = true := hshort
    simp only [hcheck, if_true]
  | false =>
    have hcheck : shortOfU64 (toInt s.outcomes.head.count) = false := hshort
    simp only [hcheck, Bool.false_eq_true, if_false]
    rw [bind_ok hload]
    by_cases hmagic : (s.outcomes.head.load s.machine.bufferVar base s.machine).dram.load64
      s.machine.bufferVar = nvmCacheMagicNumber
    · simp [ReportState.called, hmagic]
    · have hword : (s.called fun o => o.load s.machine.bufferVar base).machine.dram.load64
          s.machine.bufferVar ≠ nvmCacheMagicNumber := hmagic
      rw [if_pos hword, if_neg hmagic]
      cases s.machine.cache.mapper with
      | none => dsimp only
      | some mapper =>
        dsimp only
        rfl

/-- When `nvm_cache_format` reports what happened. -/
def FormatReportable (base : Addr) (m : Machine) (outcomes : Stream' AccessOutcome) : Prop :=
  m.cache.accessor.isSome ∧
    if (outcomes.head.load m.bufferVar base m).dram.load64 m.bufferVar = nvmCacheMagicNumber then
      AccessOutcome.Reportable (outcomes.take 1)
    else
      match m.cache.mapper with
      | none => ¬ outcomes.head.Whole
      | some mapper =>
        AccessOutcome.Reportable (outcomes.take (secondRounds mapper.elementNum + 2))

variable {outcomes : Stream' AccessOutcome}

theorem format_reportsExactly_iff (base : Addr) {m : Machine} (hb : m.bufferVar ≠ 0) :
    ReportsExactly (nvmCacheFormatWith (outcomeIo base)) m outcomes ↔
      FormatReportable base m outcomes := by
  cases ha : m.cache.accessor with
  | none =>
    -- no call is made, and the answer is -1
    have hrun : nvmCacheFormatWith (outcomeIo base) ⟨m, outcomes, []⟩ =
        .ok (-1) ⟨m, outcomes, []⟩ := by
      rw [nvmCacheFormatWith, bind_ok (getMachine_report _)]
      simp only [ha, Option.isNone_none, if_true]
      rfl
    simp [ReportsExactly, FormatReportable, hrun, ha]
  | some accessor =>
    have hsome : m.cache.accessor.isSome := by
      rw [ha]
      rfl
    have hrun := format_reads (s := ⟨m, outcomes, []⟩) base hsome hb
    dsimp only at hrun
    rw [FormatReportable, and_iff_right hsome]
    split_ifs with hmagic
    · rw [if_pos hmagic] at hrun
      exact reportsExactly_iff (answersFor_one hrun)
    · rw [if_neg hmagic] at hrun
      cases hmapper : m.cache.mapper with
      | none =>
        have hfails : nvmCacheFormatWith (outcomeIo base) ⟨m, outcomes, []⟩ = .ok (-1)
            (ReportState.called ⟨m, outcomes, []⟩ fun o => o.load m.bufferVar base) := by
          rw [hrun, hmapper]
          split_ifs <;> rfl
        simp [ReportsExactly, hfails, ReportState.called]
      | some mapper =>
        apply reportsExactly_iff
        cases hshort : outcomes.head.short with
        | true =>
          rw [hshort] at hrun
          exact answersFor_short _ hshort hrun
        | false =>
          rw [hshort, hmapper] at hrun
          exact answersFor_next hshort hrun (formatLoops_answers base hb mapper.elementNum _)

/-- A cache as it is after its initialization, and byte counts as an `int` holds them: formatting
reports what happened exactly if a short call stops it or the accessor refuses none. -/
theorem format_reportsExactly_of_int {m : Machine} {mapper : NvmCacheMapper}
    (h : Formattable m mapper) (hn : mapper.elementNum.toNat < 2 ^ 63)
    (hmagic : (outcomes.head.load m.bufferVar base m).dram.load64 m.bufferVar ≠
      nvmCacheMagicNumber)
    (hint : ∀ count, .moved count ∈ outcomes.take (formatRounds mapper.elementNum + 2) →
      count.toNat < 2 ^ 31) :
    ReportsExactly (nvmCacheFormatWith (outcomeIo base)) m outcomes ↔
      (∃ o ∈ outcomes.take (formatRounds mapper.elementNum + 2), o.short = true) ∨
        .refused ∉ outcomes.take (formatRounds mapper.elementNum + 2) := by
  rw [format_reportsExactly_iff base h.bufferVar, FormatReportable, and_iff_right h.accessor,
    if_neg hmagic, h.mapper]
  dsimp only
  rw [secondRounds_eq hn, AccessOutcome.reportable_of_int hint]

end Format

/-- The three functions report what happened exactly if the checks come to the right answer: `EINVAL`
gets through every one of them. -/
theorem reportsExactly_iff_reportable {m : Machine} (hb : m.bufferVar ≠ 0) (base lba : Addr)
    (id : NvmCacheBlkId) (outcomes : Stream' AccessOutcome) :
    (ReportsExactly (getLbaWith (outcomeIo base) lba id) m outcomes ↔
        AccessOutcome.Reportable (outcomes.take 1)) ∧
      (ReportsExactly (setLbaWith (outcomeIo base) lba id) m outcomes ↔
        AccessOutcome.Reportable (outcomes.take 1)) ∧
      (ReportsExactly (nvmCacheFormatWith (outcomeIo base)) m outcomes ↔
        FormatReportable base m outcomes) :=
  ⟨reportsExactly_iff (getLbaWith_answers base lba id _),
    reportsExactly_iff (setLbaWith_answers base lba id _),
    format_reportsExactly_iff base hb⟩

section Repository

/-- What a call comes to in the repository, where it moves one byte. -/
def byteOutcome (buffer virtAddr : Addr) : AccessOutcome :=
  if Copies buffer virtAddr then .moved 1 else .refused

variable {acc : NvmAccessor} {m : Machine}
  (ht : acc.nvmAddrMapManager.phyAddrMapVirtAddrFunc = phyAddrMapVirtAddr) (buffer : Addr)
  (offset : UInt64)
include ht

theorem nvmAccessorReadByte_outcome :
    let virtAddr := acc.nvmAddrMapManager.nvmVirtStartAddr + offset
    nvmAccessorReadByte (some acc) buffer offset m = .ok (byteOutcome buffer virtAddr).count
      ((byteOutcome buffer virtAddr).load buffer virtAddr m) := by
  intro virtAddr
  rw [nvmAccessorReadByte, bind_ok (vaddrByOffset_apply ht offset), byteOutcome]
  split_ifs with h
  · exact nvmAccessorRead_copies h 1
  · exact nvmAccessorRead_refused h 1

theorem nvmAccessorWriteByte_outcome :
    let virtAddr := acc.nvmAddrMapManager.nvmVirtStartAddr + offset
    nvmAccessorWriteByte (some acc) buffer offset m = .ok (byteOutcome buffer virtAddr).count
      ((byteOutcome buffer virtAddr).store virtAddr buffer m) := by
  intro virtAddr
  rw [nvmAccessorWriteByte, bind_ok (vaddrByOffset_apply ht offset), byteOutcome]
  split_ifs with h
  · exact nvmAccessorWrite_copies h 1
  · exact nvmAccessorWrite_refused h 1

end Repository

section Witnesses

/-- A cache of one block. -/
def oneElement : Machine :=
  Machine.zeroed ⟨some smallNvm, some ⟨1, none⟩, initNvmBlkPool 1 Nat.one_pos⟩

theorem reportsExactly_whole_elements :
    ReportsExactly (getLbaWith (outcomeIo 8192) 0x8000 0) oneElement (Stream'.const (.moved 8)) ∧
      ReportsExactly (setLbaWith (outcomeIo 8192) 0x8000 0) oneElement
        (Stream'.const (.moved 8)) ∧
      ReportsExactly (nvmCacheFormatWith (outcomeIo 8192)) oneElement
        (Stream'.const (.moved 8)) := by
  obtain ⟨hget, hset, hformat⟩ := reportsExactly_iff_reportable (m := oneElement) (by decide) 8192
    0x8000 0 (Stream'.const (.moved 8))
  have hwhole : ∀ n, AccessOutcome.Reportable ((Stream'.const (.moved 8)).take n) := by
    intro n
    induction n with
    | zero => trivial
    | succ n ih =>
      have hpasses : (AccessOutcome.moved 8).short = false := by decide
      simpa [Stream'.take_succ, AccessOutcome.Reportable, hpasses] using ih
  refine ⟨hget.mpr (hwhole 1), hset.mpr (hwhole 1), hformat.mpr ⟨rfl, ?_⟩⟩
  split_ifs
  · exact hwhole 1
  · exact hwhole _

/-- `set_lba` with a NULL buffer: the accessor refuses, and the answer is 0. -/
theorem refusal_reported_as_success :
    setLba (some smallNvm) 0 0 oneElement = .ok 0 oneElement ∧
      ¬ ReportsExactly (setLbaWith (outcomeIo 8192) 0 0) oneElement (Stream'.const .refused) := by
  constructor
  · rw [setLba, bind_ok (nvmAccessorWriteByte_outcome rfl 0 (setLbaOffset 0))]
    rfl
  · rintro ⟨ret, t, hrun, -, hrefused⟩
    cases hrun
    exact hrefused (by decide) rfl

end Witnesses
end Run
end NvmBlkCache
