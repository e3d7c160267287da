import NvmBlkCache.FormatRun

/-!
# Formatting that is cut short, and formatting of large devices

The magic number is written first, so a format that stops behind it is never taken up again. And the
index of the loops is an `int`, whose product with eight is one too.
-/
namespace NvmBlkCache
open FaultProgram ByteMemory

variable {base : Addr} {refusal : UInt64} {s t : ElementState} {mapper : NvmCacheMapper} {k : ℕ}

theorem format_done (base : Addr) (refusal : UInt64) (h : Formattable s.machine mapper)
    (hmagic : elementAt base s.machine.nvm 0 ≠ nvmCacheMagicNumber)
    (hn : mapper.elementNum.toNat < 2 ^ 63)
    (ha : ∀ k < formatRounds mapper.elementNum + 1, s.answers.get k = true) :
    ∃ t, nvmCacheFormatWith (elementIo base refusal) s = .ok 0 t ∧
      FormatProgress base s (formatRounds mapper.elementNum + 1) t := by
  obtain ⟨t, hp, hrun⟩ := format_rounds base refusal h hmagic hn le_rfl ha
  refine ⟨t, hrun.trans ?_, hp⟩
  have hfuel : 2 ^ 32 - formatRounds mapper.elementNum =
      2 ^ 32 - formatRounds mapper.elementNum - 1 + 1 := by
    unfold formatRounds
    omega
  rw [hfuel]
  exact bind_ok (forInt_done (decide_eq_false (formatRounds_stop hn)))

/-- A format of which `k` elements are written, and the next is not. -/
theorem format_stops (base : Addr) (h : Formattable s.machine mapper)
    (hmagic : elementAt base s.machine.nvm 0 ≠ nvmCacheMagicNumber)
    (hn : mapper.elementNum.toNat < 2 ^ 28) (hk : k ≤ mapper.elementNum.toNat)
    (ha : ∀ j < k, s.answers.get j = true) (hstop : s.answers.get k = false)
    (hr : shortOfU64 (toInt refusal) = true) :
    ∃ t, nvmCacheFormatWith (elementIo base refusal) s = .ok (-1) t ∧
      ∀ x < 2 ^ 28, elementAt base t.machine.nvm x =
        if x < k then formattedElement x else elementAt base s.machine.nvm x := by
  cases k with
  | zero =>
    obtain ⟨dram, hchecks⟩ := format_checks base refusal h
    rw [if_neg hmagic, bind_ok (storeVar_ok h.bufferVar _)] at hchecks
    let s₁ := (s.withDram dram).withDram (dram.store64 s.machine.bufferVar nvmCacheMagicNumber)
    refine ⟨s₁.refused (formatOffset 0), hchecks.trans ?_, fun x _ => rfl⟩
    have hhead : s₁.answers.head = false := hstop
    exact bind_ok (firstLoop_refused base hhead hr)
  | succ j =>
    have hrounds := formatRounds_eq hn
    obtain ⟨t, hp, hrun⟩ := format_rounds base refusal h hmagic (by omega) (by omega) ha
    have hhead : t.answers.head = false := by
      rw [hp.answers, Stream'.head_drop]
      exact hstop
    have hgo := formatRounds_go (n := mapper.elementNum) (k := j) (by omega) (by omega)
    have hfuel : 2 ^ 32 - j = 2 ^ 32 - j - 1 + 1 := by omega
    rw [hfuel] at hrun
    refine ⟨t.refused (formatOffset (1 + j)), hrun.trans ?_, hp.slots (by omega)⟩
    exact bind_ok (forInt_return (decide_eq_true hgo) (formatSlot_refused base hhead hr (1 + j)))

/-- Over an image with the magic number, nothing is written. -/
theorem format_skips (base : Addr) (refusal : UInt64) (h : Formattable s.machine mapper)
    (hmagic : elementAt base s.machine.nvm 0 = nvmCacheMagicNumber) :
    ∃ dram, nvmCacheFormatWith (elementIo base refusal) s = .ok 0 (s.withDram dram) := by
  obtain ⟨dram, hchecks⟩ := format_checks base refusal h
  rw [if_pos hmagic] at hchecks
  exact ⟨dram, hchecks⟩

section Restart

/-- What a format leaves on NVM that stops after `k` element writes: the next write fails, or power is
lost before it. -/
def stoppedImage (base : Addr) (refusal : UInt64) (m : Machine) (k : ℕ) : Mem :=
  (stateAfter (nvmCacheFormatWith (elementIo base refusal)
    ⟨m, fun j => decide (j < k), []⟩)).machine.nvm

/-- An uninterrupted format of an image returns 0 and leaves the magic number and `n` empty slots. -/
def FormatsFrom (base : Addr) (refusal : UInt64) (m : Machine) (n : ℕ) (nvm dram : Mem) : Prop :=
  ∃ t, nvmCacheFormatWith (elementIo base refusal)
      ⟨{ m with nvm := nvm, dram := dram }, Stream'.const true, []⟩ = .ok 0 t ∧
    elementAt base t.machine.nvm 0 = nvmCacheMagicNumber ∧
    ∀ x, 1 ≤ x → x ≤ n → elementAt base t.machine.nvm x = nvmCacheFormattedValue

variable {m : Machine}

theorem stoppedImage_elements (base : Addr) (h : Formattable m mapper)
    (hmagic : elementAt base m.nvm 0 ≠ nvmCacheMagicNumber)
    (hn : mapper.elementNum.toNat < 2 ^ 28) (hr : shortOfU64 (toInt refusal) = true) (k : ℕ) :
    ∀ x ≤ mapper.elementNum.toNat, elementAt base (stoppedImage base refusal m k) x =
      if x < k then formattedElement x else elementAt base m.nvm x := by
  intro x hx
  let s : ElementState := ⟨m, fun j => decide (j < k), []⟩
  have hgo : ∀ j < k, s.answers.get j = true := fun j hj => decide_eq_true hj
  rcases Nat.lt_or_ge mapper.elementNum.toNat k with hlt | hle
  · have hrounds := formatRounds_eq hn
    obtain ⟨t, hrun, hp⟩ := format_done (s := s) base refusal h hmagic (by omega)
      (fun j hj => hgo j (by omega))
    have hslots := hp.slots (by omega) x (by omega)
    rw [stoppedImage, hrun, stateAfter_ok, hslots, if_pos (by omega), if_pos (by omega)]
  · obtain ⟨t, hrun, hslots⟩ := format_stops (s := s) base h hmagic hn hle hgo
      (decide_eq_false (lt_irrefl k)) hr
    rw [stoppedImage, hrun, stateAfter_ok]
    exact hslots x (by omega)

/-- A format writes every element of an image without the magic number. -/
theorem formatsFrom_unmarked (h : Formattable m mapper) (hn : mapper.elementNum.toNat < 2 ^ 28)
    {nvm : Mem} (hmagic : elementAt base nvm 0 ≠ nvmCacheMagicNumber) (dram : Mem) :
    FormatsFrom base refusal m mapper.elementNum.toNat nvm dram := by
  let s : ElementState := ⟨{ m with nvm := nvm, dram := dram }, Stream'.const true, []⟩
  have hs : Formattable s.machine mapper := ⟨h.accessor, h.mapper, h.bufferVar⟩
  have hrounds := formatRounds_eq hn
  obtain ⟨t, hrun, hp⟩ := format_done (s := s) base refusal hs hmagic (by omega) (fun _ _ => rfl)
  have hslots := hp.slots (by omega)
  refine ⟨t, hrun, ?_, fun x hx hxn => ?_⟩
  · rw [hslots 0 (by decide), if_pos (by omega)]
    rfl
  · rw [hslots x (by omega), if_pos (by omega), formattedElement, if_neg (by omega)]

/-- Behind the magic number it leaves the slots as they are. -/
theorem formatsFrom_marked_iff (h : Formattable m mapper) {nvm : Mem}
    (hmagic : elementAt base nvm 0 = nvmCacheMagicNumber) (n : ℕ) (dram : Mem) :
    FormatsFrom base refusal m n nvm dram ↔
      ∀ x, 1 ≤ x → x ≤ n → elementAt base nvm x = nvmCacheFormattedValue := by
  let s : ElementState := ⟨{ m with nvm := nvm, dram := dram }, Stream'.const true, []⟩
  have hs : Formattable s.machine mapper := ⟨h.accessor, h.mapper, h.bufferVar⟩
  obtain ⟨dram', hrun⟩ := format_skips (s := s) base refusal hs hmagic
  constructor
  · rintro ⟨t, hrun', -, hall⟩
    obtain rfl : s.withDram dram' = t := (EStateM.Result.ok.inj (hrun.symm.trans hrun')).2
    exact hall
  · exact fun hall => ⟨_, hrun, hmagic, hall⟩

/-- Formatting is taken up again exactly when it stopped before its first write, or all that was left
to write was there already. -/
theorem restartable_iff (h : Formattable m mapper)
    (hmagic : elementAt base m.nvm 0 ≠ nvmCacheMagicNumber)
    (hn : mapper.elementNum.toNat < 2 ^ 28) (hr : shortOfU64 (toInt refusal) = true) (k : ℕ)
    (dram : Mem) :
    FormatsFrom base refusal m mapper.elementNum.toNat (stoppedImage base refusal m k) dram ↔
      k = 0 ∨ ∀ x, k ≤ x → x ≤ mapper.elementNum.toNat →
        elementAt base m.nvm x = nvmCacheFormattedValue := by
  have himage := stoppedImage_elements base h hmagic hn hr k
  have hzero := himage 0 (Nat.zero_le _)
  rcases Nat.eq_zero_or_pos k with rfl | hk
  · -- nothing is written yet: the later format does it all
    rw [if_neg (lt_irrefl 0)] at hzero
    rw [← hzero] at hmagic
    exact iff_of_true (formatsFrom_unmarked h hn hmagic dram) (Or.inl rfl)
  · -- the magic number is there: the later format writes nothing
    rw [if_pos hk, formattedElement, if_pos rfl] at hzero
    rw [formatsFrom_marked_iff h hzero]
    constructor
    · intro hall
      refine Or.inr fun x hx hxn => ?_
      have hxv := hall x (by omega) hxn
      rwa [himage x hxn, if_neg (by omega)] at hxv
    · intro hrest x hx hxn
      have hleft := hrest.resolve_left (by omega)
      rw [himage x hxn]
      by_cases hxk : x < k
      · rw [if_pos hxk, formattedElement, if_neg (by omega)]
      · rw [if_neg hxk]
        exact hleft x (by omega) hxn

/-- Two blocks, and NVM full of zeros. -/
def unformatted : Machine :=
  Machine.zeroed ⟨some smallNvm, some ⟨2, some []⟩, initNvmBlkPool 1 Nat.one_pos⟩

/-- After a format that wrote the magic number only, slot 1 keeps its zero. -/
theorem magic_alone_passes :
    ¬ FormatsFrom 8192 0 unformatted 2 (stoppedImage 8192 0 unformatted 1) unformatted.dram := by
  rintro ⟨t, hrun, -, hall⟩
  have hslot : elementAt 8192 (stateAfter (nvmCacheFormatWith (elementIo 8192 0)
      ⟨{ unformatted with nvm := stoppedImage 8192 0 unformatted 1 },
        Stream'.const true, []⟩)).machine.nvm 1 = 0 := by
    decide +kernel
  have hone := hall 1 (by decide) (by decide)
  rw [hrun, stateAfter_ok, hone] at hslot
  exact absurd hslot (by decide)

theorem unformatted_formattable : Formattable unformatted ⟨2, some []⟩ := ⟨rfl, rfl, by decide⟩

theorem restartable_iff_unformatted :
    FormatsFrom 8192 0 unformatted 2 (stoppedImage 8192 0 unformatted 1) unformatted.dram ↔
      1 = 0 ∨ ∀ x, 1 ≤ x → x ≤ 2 → elementAt 8192 unformatted.nvm x = nvmCacheFormattedValue :=
  restartable_iff unformatted_formattable (by decide) (by decide) (by decide) 1 unformatted.dram

end Restart

section Offsets
variable {m : Machine}

/-- A format with no failing write ends, and passes the offsets of the slots, each once and in order. -/
def WritesInOrder (base : Addr) (refusal : UInt64) (m : Machine) (n : ℕ) : Prop :=
  ∃ t, nvmCacheFormatWith (elementIo base refusal) ⟨m, Stream'.const true, []⟩ = .ok 0 t ∧
    t.written.map UInt64.toNat = (List.range (n + 1)).map (8 * ·)

theorem formatOffset_toNat {i : ℕ} (hi : i < 2 ^ 28) : (formatOffset i).toNat = 8 * i := by
  rw [formatOffset_eq hi, slotStart, UInt64.toNat_ofNat']
  omega

/-- The offsets come out of a loop that stops at the end of its `int`. -/
theorem offsets_in_order_iff {n : UInt64} :
    ((List.range (formatRounds n + 1)).map formatOffset).map UInt64.toNat =
      (List.range (n.toNat + 1)).map (8 * ·) ↔ n.toNat < 2 ^ 28 := by
  rw [List.map_map]
  constructor
  · intro h
    by_contra hlarge
    have hwrap := congrArg (·[2 ^ 28]?) h
    have hin : 2 ^ 28 < formatRounds n + 1 := by
      unfold formatRounds
      omega
    have hin' : 2 ^ 28 < n.toNat + 1 := by omega
    simp only [List.getElem?_map, List.getElem?_range hin, List.getElem?_range hin',
      Option.map_some, Function.comp_apply, formatOffset_wraps, Option.some.injEq] at hwrap
    exact absurd hwrap (by decide)
  · intro hn
    rw [formatRounds_eq hn]
    apply List.map_congr_left
    intro i hi
    have hlt := List.mem_range.mp hi
    exact formatOffset_toNat (by omega)

theorem writesInOrder_iff (base : Addr) (refusal : UInt64) (h : Formattable m mapper)
    (hmagic : elementAt base m.nvm 0 ≠ nvmCacheMagicNumber)
    (hn : mapper.elementNum.toNat < 2 ^ 63) :
    WritesInOrder base refusal m mapper.elementNum.toNat ↔ mapper.elementNum.toNat < 2 ^ 28 := by
  obtain ⟨t, hrun, hp⟩ := format_done (s := ⟨m, Stream'.const true, []⟩) base refusal h hmagic hn
    (fun _ _ => rfl)
  have hwritten : t.written = (List.range (formatRounds mapper.elementNum + 1)).map formatOffset :=
    hp.written
  rw [← offsets_in_order_iff, ← hwritten]
  constructor
  · rintro ⟨t', hrun', horder⟩
    rw [hrun] at hrun'
    cases hrun'
    exact horder
  · exact fun horder => ⟨t, hrun, horder⟩

/-- Formatting passes the offsets of the slots exactly when the device has less than `2 ^ 28` blocks. -/
theorem format_offsets_iff {mapper₀ : NvmCacheMapper} {len : UInt64} {malloc : Option Addr}
    (base : Addr) (refusal : UInt64)
    (hinit : cacheMapperInit (some mapper₀) len malloc = (0, some mapper))
    (h : Formattable m mapper) (hmagic : elementAt base m.nvm 0 ≠ nvmCacheMagicNumber) :
    WritesInOrder base refusal m mapper.elementNum.toNat ↔ len.toNat / 520 < 2 ^ 28 := by
  have hnum : mapper.elementNum.toNat = len.toNat / 520 := by
    rw [cacheMapperInit_elementNum hinit, elementNum_toNat]
  have hlen := len.toNat_lt
  rw [writesInOrder_iff base refusal h hmagic (by omega), hnum]

/-- As many blocks as the `int` cannot count in bytes. -/
def largeDevice : Machine :=
  Machine.zeroed ⟨some smallNvm, some ⟨0x10000000, some []⟩, initNvmBlkPool 1 Nat.one_pos⟩

theorem largeDevice_formattable : Formattable largeDevice ⟨0x10000000, some []⟩ :=
  ⟨rfl, rfl, by decide⟩

theorem largeDevice_out_of_order : ¬ WritesInOrder 8192 0 largeDevice 0x10000000 := by
  have hiff := writesInOrder_iff 8192 0 largeDevice_formattable (by decide) (by decide)
  exact fun h => absurd (hiff.mp h) (by decide)

theorem format_offsets_iff_unformatted : WritesInOrder 8192 0 unformatted 2 := by
  have hinit : cacheMapperInit (some ⟨0, none⟩) 1040 (some 0x20000) = (0, some ⟨2, some []⟩) := rfl
  apply (format_offsets_iff 8192 0 hinit unformatted_formattable (by decide)).mpr
  decide

end Offsets

end NvmBlkCache
