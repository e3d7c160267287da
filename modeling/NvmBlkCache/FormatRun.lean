import NvmBlkCache.Format
import NvmBlkCache.Layout

/-!
# Formatting with an accessor that moves whole elements

`nvm_cache_format` over a byte accessor as its checks want it: eight bytes a call. The accessor keeps a
record of the offsets it is given, and may fail at any write.
-/
namespace NvmBlkCache
open FaultProgram ByteMemory

section Loop
variable {σ : Type} [MonadLiftT Prog (EStateM Fault σ)] {cond : Int32 → Bool}
  {body : Int32 → EStateM Fault σ (Option Int32)} {fuel : ℕ} {i : Int32} {s s' : σ}

theorem forInt_next (hc : cond i = true) (hb : body i s = .ok none s') :
    forInt cond body (fuel + 1) i s = forInt cond body fuel (i + 1) s' := by
  rw [forInt, if_pos hc, bind_ok hb]

theorem forInt_return {r : Int32} (hc : cond i = true) (hb : body i s = .ok (some r) s') :
    forInt cond body (fuel + 1) i s = .ok (some r) s' := by
  rw [forInt, if_pos hc, bind_ok hb]
  rfl

theorem forInt_done (hc : cond i = false) : forInt cond body (fuel + 1) i s = .ok none s := by
  simp [forInt, hc]

/-- Rounds that fall through lead on to the next, with whatever property of the state one hands to
the next. -/
theorem forInt_rounds (P : ℕ → σ → Prop) {i n : ℕ} (hn : n ≤ fuel) (hs : P 0 s)
    (hc : ∀ j < n, cond (Int32.ofNat (i + j)) = true)
    (hround : ∀ j < n, ∀ t, P j t →
      ∃ t', body (Int32.ofNat (i + j)) t = .ok none t' ∧ P (j + 1) t') :
    ∃ t, forInt cond body fuel (Int32.ofNat i) s =
      forInt cond body (fuel - n) (Int32.ofNat (i + n)) t ∧ P n t := by
  induction n with
  | zero => exact ⟨s, rfl, hs⟩
  | succ n ih =>
    obtain ⟨t, hloop, hP⟩ := ih (by omega) (fun j hj => hc j (by omega))
      (fun j hj => hround j (by omega))
    obtain ⟨t', hbody, hP'⟩ := hround n (by omega) t hP
    refine ⟨t', ?_, hP'⟩
    have hfuel : fuel - n = fuel - (n + 1) + 1 := by omega
    have hindex : Int32.ofNat (i + n) + 1 = Int32.ofNat (i + (n + 1)) := by
      rw [← Nat.add_assoc, Int32.ofNat_add (i + n) 1]
      rfl
    rw [hloop, hfuel, forInt_next (hc n (by omega)) hbody, hindex]

end Loop

section Index

/-- The offset that the loop passes for index `i`: the product is an `int`. -/
def formatOffset (i : ℕ) : UInt64 := (Int32.ofNat i * 8).toInt64.toUInt64

theorem index_toUInt64 {i : ℕ} (hi : i < 2 ^ 31) :
    (Int32.ofNat i).toInt64.toUInt64 = UInt64.ofNat i := by
  have hmax : (i : ℤ) ≤ Int32.maxValue.toInt := by
    rw [show Int32.maxValue.toInt = 2 ^ 31 - 1 from rfl]
    omega
  rw [Int32.toInt64_ofNat' (by exact_mod_cast hmax), Int64.toUInt64_ofNat']

theorem formatOffset_eq {i : ℕ} (hi : i < 2 ^ 28) : formatOffset i = slotStart i := by
  have hmul : Int32.ofNat i * 8 = Int32.ofNat (i * 8) := (Int32.ofNat_mul i 8).symm
  rw [formatOffset, hmul, index_toUInt64 (by omega), slotStart]

/-- The first product that does not fit. -/
theorem formatOffset_wraps : formatOffset (2 ^ 28) = 0xFFFFFFFF80000000 := by decide

end Index

/-- The machine, and what the byte accessor keeps: whether each write will go ahead, and the offsets of
the writes so far. -/
structure ElementState where
  machine : Machine
  answers : Stream' Bool
  written : List UInt64

abbrev ElementM := EStateM Fault ElementState

instance : MonadLift Prog ElementM where
  monadLift := zoom (fun s => s.machine) (fun m s => { s with machine := m })

/-- A byte accessor that moves the eight bytes at `base + offset`, or answers `refusal` and moves
nothing. -/
def elementIo (base : Addr) (refusal : UInt64) : ByteIo ElementM where
  readByte buffer offset := do
    modify fun s => { s with
      machine.dram := s.machine.dram.write buffer 8 (s.machine.nvm.bytes (base + offset)) }
    return 8
  writeByte buffer offset := do
    let s ← get
    set { s with answers := s.answers.tail, written := s.written ++ [offset] }
    if s.answers.head then
      modify fun s => { s with
        machine.nvm := s.machine.nvm.write (base + offset) 8 (s.machine.dram.bytes buffer) }
      return 8
    else return refusal

/-- The element in slot `i` of an image. -/
def elementAt (base : Addr) (nvm : Mem) (i : ℕ) : UInt64 := nvm.load64 (base + slotStart i)

theorem elementAt_write {base p : Addr} {nvm dram : Mem} {i x : ℕ} (hi : i < 2 ^ 28)
    (hx : x < 2 ^ 28) : elementAt base (nvm.write (base + slotStart i) 8 (dram.bytes p)) x =
      if x = i then dram.load64 p else elementAt base nvm x := by
  unfold elementAt
  split_ifs with he
  · subst he
    exact Mem.load64_congr fun b hb => Mem.bytes_write hb (by decide)
  · have hfit : OffsetsFit (UInt64.ofNat (2 ^ 28)) := by
      rw [OffsetsFit, UInt64.toNat_ofNat']
      decide
    have hle : ∀ y < 2 ^ 28, y ≤ (UInt64.ofNat (2 ^ 28)).toNat := by
      intro y hy
      rw [UInt64.toNat_ofNat']
      omega
    have hapart := slots_apart hfit (hle i hi) (hle x hx) (fun h => he h.symm) base
    exact Mem.load64_congr fun b hb => Mem.bytes_write_apart hapart hb

section Run
variable {base : Addr} {refusal : UInt64} {s t : ElementState} {i j : ℕ} {v : UInt64}

theorem liftM_ok {α : Type} {x : Prog α} {a : α} {m : Machine} (h : x s.machine = .ok a m) :
    (liftM x : ElementM α) s = .ok a { s with machine := m } := zoom_ok h

theorem getMachine_ok (s : ElementState) :
    (liftM (get : Prog Machine) : ElementM Machine) s = .ok s.machine s := rfl

def ElementState.withDram (s : ElementState) (dram : Mem) : ElementState :=
  { s with machine.dram := dram }

/-- After a write of what the buffer holds. -/
def ElementState.wrote (s : ElementState) (base : Addr) (offset : UInt64) : ElementState where
  machine := { s.machine with
    nvm := s.machine.nvm.write (base + offset) 8 (s.machine.dram.bytes s.machine.bufferVar) }
  answers := s.answers.tail
  written := s.written ++ [offset]

/-- After a write that did not go ahead. -/
def ElementState.refused (s : ElementState) (offset : UInt64) : ElementState :=
  { s with answers := s.answers.tail, written := s.written ++ [offset] }

theorem formatSlot_writes (h : s.answers.head = true) (i : ℕ) :
    formatSlot (elementIo base refusal) (Int32.ofNat i) s =
      .ok none (s.wrote base (formatOffset i)) := by
  have hwrite : (elementIo base refusal).writeByte s.machine.bufferVar (formatOffset i) s =
      .ok 8 (s.wrote base (formatOffset i)) := by
    simp only [elementIo, bind, EStateM.bind, get_apply, h, if_true]
    rfl
  rw [formatSlot, bind_ok (getMachine_ok s)]
  exact bind_ok hwrite

theorem formatSlot_refused (base : Addr) (h : s.answers.head = false)
    (hr : shortOfU64 (toInt refusal) = true) (i : ℕ) :
    formatSlot (elementIo base refusal) (Int32.ofNat i) s =
      .ok (some (-1)) (s.refused (formatOffset i)) := by
  have hwrite : (elementIo base refusal).writeByte s.machine.bufferVar (formatOffset i) s =
      .ok refusal (s.refused (formatOffset i)) := by
    simp only [elementIo, bind, EStateM.bind, get_apply, h]
    rfl
  rw [formatSlot, bind_ok (getMachine_ok s)]
  refine (bind_ok hwrite).trans ?_
  simp only [hr, if_true]
  rfl

/-- `t` is `s` after the slots from `i` on have been written with what the buffer holds, `j` of them. -/
structure Wrote (base : Addr) (s : ElementState) (i j : ℕ) (t : ElementState) : Prop where
  frame : t.machine = { s.machine with nvm := t.machine.nvm }
  answers : t.answers = s.answers.drop j
  written : t.written = s.written ++ (List.range j).map fun k => formatOffset (i + k)
  slots : i + j ≤ 2 ^ 28 → ∀ x < 2 ^ 28, elementAt base t.machine.nvm x =
    if i ≤ x ∧ x < i + j then s.machine.dram.load64 s.machine.bufferVar
    else elementAt base s.machine.nvm x

namespace Wrote

theorem start : Wrote base s i 0 s where
  frame := rfl
  answers := rfl
  written := by simp
  slots := by
    intro _ x _
    rw [if_neg (by omega)]

theorem next (h : Wrote base s i j t) :
    Wrote base s i (j + 1) (t.wrote base (formatOffset (i + j))) where
  frame := by
    rw [ElementState.wrote, h.frame]
  answers := by
    rw [ElementState.wrote, h.answers, Stream'.tail_drop']
  written := by
    rw [ElementState.wrote, h.written, List.range_succ, List.map_append, List.append_assoc]
    rfl
  slots := by
    intro hfit x hx
    have hword : t.machine.dram.load64 t.machine.bufferVar =
        s.machine.dram.load64 s.machine.bufferVar := by rw [h.frame]
    have hold := h.slots (by omega) x hx
    rw [ElementState.wrote, formatOffset_eq (by omega), elementAt_write (by omega) hx, hword, hold]
    by_cases hxj : x = i + j
    · rw [if_pos hxj, if_pos (by omega)]
    · rw [if_neg hxj]
      by_cases hin : i ≤ x ∧ x < i + j
      · rw [if_pos hin, if_pos (by omega)]
      · rw [if_neg hin, if_neg (by omega)]

/-- The loop comes as far as the writes go ahead. -/
theorem rounds (base : Addr) (refusal : UInt64) (cond : Int32 → Bool) (i : ℕ) {fuel : ℕ}
    (hj : j ≤ fuel) (hc : ∀ k < j, cond (Int32.ofNat (i + k)) = true)
    (ha : ∀ k < j, s.answers.get k = true) :
    ∃ t, forInt cond (formatSlot (elementIo base refusal)) fuel (Int32.ofNat i) s =
      forInt cond (formatSlot (elementIo base refusal)) (fuel - j) (Int32.ofNat (i + j)) t ∧
      Wrote base s i j t := by
  apply forInt_rounds (Wrote base s i) hj start hc
  intro k hk t ht
  have hhead : t.answers.head = true := by
    rw [ht.answers, Stream'.head_drop]
    exact ha k hk
  exact ⟨_, formatSlot_writes hhead (i + k), ht.next⟩

end Wrote

/-- What `nvm_cache_format` needs of the cache, and of its local variable `buffer`. -/
structure Formattable (m : Machine) (mapper : NvmCacheMapper) : Prop where
  accessor : m.cache.accessor.isSome
  mapper : m.cache.mapper = some mapper
  bufferVar : m.bufferVar ≠ 0

/-- What slot `x` holds when formatting is done. -/
def formattedElement (x : ℕ) : UInt64 :=
  if x = 0 then nvmCacheMagicNumber else nvmCacheFormattedValue

/-- From the second loop of `nvm_cache_format` on. -/
def formatRest (io : ByteIo ElementM) (mapper : NvmCacheMapper) (bufferVar : Addr) :
    ElementM Int32 := do
  storeU64 bufferVar nvmCacheFormattedValue
  match ← forInt (fun i => i.toInt64.toUInt64 < mapper.elementNum + cacheBlockStartIndex)
      (formatSlot io) (2 ^ 32) 1 with
  | some ret => return ret
  | none => return 0

variable {mapper : NvmCacheMapper}

theorem storeVar_ok {p : Addr} (hp : p ≠ 0) (v : UInt64) :
    (liftM (storeU64 p v) : ElementM Unit) s =
      .ok () (s.withDram (s.machine.dram.store64 p v)) :=
  liftM_ok (storeU64_apply hp v)

theorem loadVar_ok {p : Addr} (hp : p ≠ 0) :
    (liftM (loadU64 p) : ElementM UInt64) s = .ok (s.machine.dram.load64 p) s :=
  liftM_ok (loadU64_apply hp)

/-- The check of slot 0, and the branch that it takes. -/
theorem format_checks (base : Addr) (refusal : UInt64) (h : Formattable s.machine mapper) :
    ∃ dram, nvmCacheFormatWith (elementIo base refusal) s =
      if elementAt base s.machine.nvm 0 = nvmCacheMagicNumber then .ok 0 (s.withDram dram)
      else (do
        storeU64 s.machine.bufferVar nvmCacheMagicNumber
        match ← forInt (fun i => i < 1) (formatSlot (elementIo base refusal)) (2 ^ 32) 0 with
        | some ret => return ret
        | none => formatRest (elementIo base refusal) mapper s.machine.bufferVar : ElementM Int32)
          (s.withDram dram) := by
  let dram := s.machine.dram.write s.machine.bufferVar 8 (s.machine.nvm.bytes (base + 0))
  have hread : (elementIo base refusal).readByte s.machine.bufferVar 0 s =
      .ok 8 (s.withDram dram) := rfl
  have hword : dram.load64 s.machine.bufferVar = elementAt base s.machine.nvm 0 :=
    Mem.load64_congr fun b hb => Mem.bytes_write hb (by decide)
  have hload := loadVar_ok (s := s.withDram dram) h.bufferVar
  have hnone : s.machine.cache.accessor.isNone = false := by
    rw [← Option.not_isSome, h.accessor]
    rfl
  have hshort : shortOfU64 (toInt 8) = false := by decide
  refine ⟨dram, ?_⟩
  rw [nvmCacheFormatWith, bind_ok (getMachine_ok s)]
  simp only [hnone, Bool.false_eq_true, if_false]
  rw [bind_ok hread]
  simp only [hshort, Bool.false_eq_true, if_false]
  rw [bind_ok hload, show (s.withDram dram).machine.dram.load64 s.machine.bufferVar =
    elementAt base s.machine.nvm 0 from hword]
  by_cases hmagic : elementAt base s.machine.nvm 0 = nvmCacheMagicNumber
  · simp only [hmagic, ne_eq, not_true, if_true, if_false]
    rfl
  · simp only [hmagic, ne_eq, not_false_eq_true, if_true, if_false, h.mapper]
    rfl

theorem firstLoop_writes (base : Addr) (refusal : UInt64) (h : s.answers.head = true) :
    ∃ t, forInt (fun i => i < 1) (formatSlot (elementIo base refusal)) (2 ^ 32) 0 s =
      .ok none t ∧ Wrote base s 0 1 t := by
  have hone : (1 : ℕ) ≤ 2 ^ 32 := by decide
  obtain ⟨t, hloop, hw⟩ := Wrote.rounds base refusal (fun i => i < 1) 0 hone (by decide)
    (by simpa using h)
  exact ⟨t, hloop.trans (forInt_done (by decide)), hw⟩

theorem firstLoop_refused (base : Addr) (h : s.answers.head = false)
    (hr : shortOfU64 (toInt refusal) = true) :
    forInt (fun i => i < 1) (formatSlot (elementIo base refusal)) (2 ^ 32) 0 s =
      .ok (some (-1)) (s.refused (formatOffset 0)) :=
  forInt_return (by decide) (formatSlot_refused base h hr 0)

section SecondLoop
variable {n : UInt64}

/-- The rounds of the second loop: the index of the one after the last does not fit its `int`, or is
behind the last slot. -/
def formatRounds (n : UInt64) : ℕ := min n.toNat (2 ^ 31 - 1)

theorem index_lt_iff {x : ℕ} (hn : n.toNat < 2 ^ 63) (hx : x < 2 ^ 31) :
    (Int32.ofNat x).toInt64.toUInt64 < n + cacheBlockStartIndex ↔ x ≤ n.toNat := by
  rw [index_toUInt64 hx, UInt64.lt_iff_toNat_lt, UInt64.toNat_add, UInt64.toNat_ofNat',
    cacheBlockStartIndex]
  simp only [UInt64.reduceToNat]
  omega

theorem formatRounds_eq (hn : n.toNat < 2 ^ 28) : formatRounds n = n.toNat := by
  unfold formatRounds
  omega

theorem formatRounds_go {k : ℕ} (hn : n.toNat < 2 ^ 63) (hk : k < formatRounds n) :
    (Int32.ofNat (1 + k)).toInt64.toUInt64 < n + cacheBlockStartIndex := by
  unfold formatRounds at hk
  rw [index_lt_iff hn (by omega)]
  omega

theorem formatRounds_stop (hn : n.toNat < 2 ^ 63) :
    ¬ (Int32.ofNat (1 + formatRounds n)).toInt64.toUInt64 < n + cacheBlockStartIndex := by
  unfold formatRounds
  rcases Nat.lt_or_ge n.toNat (2 ^ 31 - 1) with hlt | hge
  · rw [Nat.min_eq_left hlt.le, index_lt_iff hn (by omega)]
    omega
  · -- the index is the least `int` now, a huge number as a `u64`
    have hwrapped : (Int32.ofNat (1 + (2 ^ 31 - 1))).toInt64.toUInt64 = 0xFFFFFFFF80000000 := by
      decide
    rw [Nat.min_eq_right hge, hwrapped, UInt64.lt_iff_toNat_lt, UInt64.toNat_add,
      cacheBlockStartIndex]
    simp only [UInt64.reduceToNat]
    omega

end SecondLoop

/-- `t` is `s` after `nvm_cache_format` has written its first `c` elements. -/
structure FormatProgress (base : Addr) (s : ElementState) (c : ℕ) (t : ElementState) : Prop where
  answers : t.answers = s.answers.drop c
  written : t.written = s.written ++ (List.range c).map formatOffset
  slots : c ≤ 2 ^ 28 → ∀ x < 2 ^ 28, elementAt base t.machine.nvm x =
    if x < c then formattedElement x else elementAt base s.machine.nvm x

/-- One round of the first loop and `j` of the second, each with its value in the buffer. -/
theorem FormatProgress.of_loops {dram : Mem} {t₁ : ElementState}
    (hw₁ : Wrote base
      (s.withDram (dram.store64 s.machine.bufferVar nvmCacheMagicNumber)) 0 1 t₁)
    (hw : Wrote base (t₁.withDram
      (t₁.machine.dram.store64 s.machine.bufferVar nvmCacheFormattedValue)) 1 j t) :
    FormatProgress base s (j + 1) t where
  answers := by
    have hdrop : t₁.answers = s.answers.drop 1 := hw₁.answers
    rw [hw.answers, ElementState.withDram, hdrop, Stream'.drop_drop, Nat.add_comm]
  written := by
    have hrange : List.range (j + 1) = 0 :: (List.range j).map (1 + ·) := by
      rw [List.range_succ_eq_map]
      simp [Nat.add_comm]
    have hfirst : t₁.written = s.written ++ [formatOffset 0] := hw₁.written
    rw [hw.written, ElementState.withDram, hfirst, hrange, List.append_assoc, List.map_cons,
      List.map_map]
    rfl
  slots := by
    intro hfit x hx
    have hvar : t₁.machine.bufferVar = s.machine.bufferVar := by
      rw [hw₁.frame]
      rfl
    have hzero := hw₁.slots (by decide) x hx
    have hrest := hw.slots (by omega) x hx
    simp only [ElementState.withDram, hvar, Mem.load64_store64] at hzero hrest
    rw [hrest, hzero, formattedElement]
    rcases Nat.eq_zero_or_pos x with h0 | hpos
    · simp [h0]
    · have hx0 : x ≠ 0 := by omega
      have hx1 : ¬ x < 0 + 1 := by omega
      have hcut : (1 ≤ x ∧ x < 1 + j) ↔ x < j + 1 := by omega
      simp only [hx0, hx1, hcut, and_false, if_false]

/-- The first loop is over, and the second has come through `j` rounds. -/
theorem format_rounds (base : Addr) (refusal : UInt64) (h : Formattable s.machine mapper)
    (hmagic : elementAt base s.machine.nvm 0 ≠ nvmCacheMagicNumber)
    (hn : mapper.elementNum.toNat < 2 ^ 63) (hj : j ≤ formatRounds mapper.elementNum)
    (ha : ∀ k < j + 1, s.answers.get k = true) :
    ∃ t, FormatProgress base s (j + 1) t ∧ nvmCacheFormatWith (elementIo base refusal) s =
      (do
        match ← forInt (fun i => i.toInt64.toUInt64 < mapper.elementNum + cacheBlockStartIndex)
          (formatSlot (elementIo base refusal)) (2 ^ 32 - j) (Int32.ofNat (1 + j)) with
        | some ret => return ret
        | none => return 0 : ElementM Int32) t := by
  have hb := h.bufferVar
  obtain ⟨dram, hchecks⟩ := format_checks base refusal h
  rw [if_neg hmagic, bind_ok (storeVar_ok hb _)] at hchecks
  let s₁ := s.withDram (dram.store64 s.machine.bufferVar nvmCacheMagicNumber)
  have hhead : s₁.answers.head = true := ha 0 (by omega)
  obtain ⟨t₁, hfirst, hw₁⟩ := firstLoop_writes base refusal hhead
  let s₂ := t₁.withDram (t₁.machine.dram.store64 s.machine.bufferVar nvmCacheFormattedValue)
  have hanswers : ∀ k < j, s₂.answers.get k = true := by
    intro k hk
    change t₁.answers.get k = true
    rw [hw₁.answers]
    exact ha (k + 1) (by omega)
  have hfuel : j ≤ 2 ^ 32 := by
    unfold formatRounds at hj
    omega
  obtain ⟨t, hsecond, hw⟩ := Wrote.rounds base refusal
    (fun i => i.toInt64.toUInt64 < mapper.elementNum + cacheBlockStartIndex) 1 hfuel
    (fun k hk => decide_eq_true (formatRounds_go hn (Nat.lt_of_lt_of_le hk hj))) hanswers
  refine ⟨t, FormatProgress.of_loops hw₁ hw, hchecks.trans ?_⟩
  refine (bind_ok hfirst).trans ?_
  change formatRest (elementIo base refusal) mapper s.machine.bufferVar t₁ = _
  rw [formatRest, bind_ok (storeVar_ok hb _)]
  exact bind_congr_run hsecond

end Run
end NvmBlkCache
