import Mathlib

/-!
# Byte-addressed memory

A memory holds a byte at each 64-bit address. A window is the run of `n` bytes from an address on;
what is written through one window is read back through it and leaves every disjoint window alone.
-/
namespace NvmBlkCache.ByteMemory

abbrev Mem := UInt64 → UInt8

/-- `a` is one of the `n` bytes from `p` on. -/
def InWindow (p : UInt64) (n : ℕ) (a : UInt64) : Prop := (a - p).toNat < n

instance (p : UInt64) (n : ℕ) (a : UInt64) : Decidable (InWindow p n a) :=
  inferInstanceAs (Decidable (_ < _))

def Apart (p : UInt64) (n : ℕ) (q : UInt64) (k : ℕ) : Prop :=
  ∀ a, InWindow p n a → ¬ InWindow q k a

theorem Apart.symm {p q : UInt64} {n k : ℕ} (h : Apart p n q k) : Apart q k p n :=
  fun a hq hp => h a hp hq

theorem inWindow_add {p : UInt64} {n i : ℕ} (hi : i < n) : InWindow p n (p + UInt64.ofNat i) := by
  have hle : (UInt64.ofNat i).toNat ≤ i := by
    rw [UInt64.toNat_ofNat']
    exact Nat.mod_le _ _
  rw [InWindow, show p + UInt64.ofNat i - p = UInt64.ofNat i by grind]
  omega

/-- A window that starts `x` bytes after `p` and does not run round the end of the address space. -/
theorem inWindow_iff {p x : UInt64} {n : ℕ} (h : x.toNat + n ≤ 2 ^ 64) (a : UInt64) :
    InWindow (p + x) n a ↔ x.toNat ≤ (a - p).toNat ∧ (a - p).toNat < x.toNat + n := by
  rw [InWindow, show a - (p + x) = a - p - x by grind, UInt64.toNat_sub]
  have hx := x.toNat_lt
  have ha := (a - p).toNat_lt
  omega

/-- No offset inside a range that does not wrap leads to NULL. -/
theorem add_ne_zero {p x : UInt64} {n : ℕ} (hp : p ≠ 0) (hn : p.toNat + n ≤ 2 ^ 64)
    (hx : x.toNat < n) : p + x ≠ 0 := by
  intro h0
  have hsum := congrArg UInt64.toNat h0
  have hpos : p.toNat ≠ 0 := fun h => hp (UInt64.toNat_inj.mp h)
  rw [UInt64.toNat_add, UInt64.toNat_zero] at hsum
  omega

/-- Two windows at offsets from one base are apart when one ends before the other begins. -/
theorem apart_of_le {p x y : UInt64} {n k : ℕ} (hxy : x.toNat + n ≤ y.toNat)
    (hy : y.toNat + k ≤ 2 ^ 64) : Apart (p + x) n (p + y) k := by
  intro a hx hy'
  rw [inWindow_iff (by omega)] at hx
  rw [inWindow_iff hy] at hy'
  omega

theorem InWindow.of_part {p x a : UInt64} {n k : ℕ} (h : InWindow (p + x) n a)
    (hle : x.toNat + n ≤ k) (hk : k ≤ 2 ^ 64) : InWindow p k a := by
  rw [inWindow_iff (by omega)] at h
  rw [InWindow]
  omega

/-- A part of a window stays inside it when it ends no later than the whole does. -/
theorem window_subset_iff {p x : UInt64} {n k : ℕ} (hn : 0 < n) (hk : k < 2 ^ 64) :
    (∀ a, InWindow (p + x) n a → InWindow p k a) ↔ x.toNat + n ≤ k := by
  have hx := x.toNat_lt
  constructor
  · intro h
    rcases Nat.lt_or_ge (2 ^ 64) (x.toNat + n) with hwrap | hfit
    · -- the last byte of the address space, counted from `p`, is in the part but not in the whole
      have hpart : InWindow (p + x) n (p - 1) := by
        rw [InWindow, show p - 1 - (p + x) = 0xFFFFFFFFFFFFFFFF - x by grind, UInt64.toNat_sub]
        simp only [UInt64.reduceToNat]
        omega
      have hwhole := h _ hpart
      rw [InWindow, show p - 1 - p = 0xFFFFFFFFFFFFFFFF by grind] at hwhole
      simp only [UInt64.reduceToNat] at hwhole
      omega
    · have hoff : (UInt64.ofNat (x.toNat + n - 1)).toNat = x.toNat + n - 1 := by
        rw [UInt64.toNat_ofNat']
        exact Nat.mod_eq_of_lt (by omega)
      have hsub : p + UInt64.ofNat (x.toNat + n - 1) - p = UInt64.ofNat (x.toNat + n - 1) := by
        grind
      have hwhole := h (p + UInt64.ofNat (x.toNat + n - 1)) (by
        rw [inWindow_iff hfit, hsub, hoff]
        omega)
      rw [InWindow, hsub, hoff] at hwhole
      omega
  · exact fun h a ha => ha.of_part h hk.le

namespace Mem
variable (m : Mem)

def bytes (p : UInt64) : ℕ → UInt8 := fun i => m (p + UInt64.ofNat i)

/-- `f` written over the `n` bytes from `p` on. -/
def write (p : UInt64) (n : ℕ) (f : ℕ → UInt8) : Mem := fun a =>
  if InWindow p n a then f (a - p).toNat else m a

/-- The `u64` at `p`, in the byte order of the machine (little-endian). -/
def load64 (p : UInt64) : UInt64 :=
  UInt64.ofNat (Nat.ofDigits 256 ((List.range 8).map fun i => (m.bytes p i).toNat))

def store64 (p v : UInt64) : Mem := m.write p 8 fun i => UInt8.ofNat (v.toNat / 256 ^ i)

variable {m} {p q : UInt64} {n k i : ℕ} {f : ℕ → UInt8}

theorem write_outside {a : UInt64} (h : ¬ InWindow p n a) : m.write p n f a = m a := if_neg h

theorem write_congr {g : ℕ → UInt8} (h : ∀ i < n, f i = g i) : m.write p n f = m.write p n g := by
  funext a
  by_cases ha : InWindow p n a
  · simp [write, ha, h _ ha]
  · rw [write_outside ha, write_outside ha]

theorem bytes_write (hi : i < n) (hn : n ≤ 2 ^ 64) : (m.write p n f).bytes p i = f i := by
  have hlt : i < 2 ^ 64 := by omega
  have hsub : (p + UInt64.ofNat i - p).toNat = i := by
    rw [show p + UInt64.ofNat i - p = UInt64.ofNat i by grind, UInt64.toNat_ofNat',
      Nat.mod_eq_of_lt hlt]
  unfold bytes write
  rw [if_pos (inWindow_add hi), hsub]

theorem bytes_write_apart (h : Apart p n q k) (hi : i < k) :
    (m.write p n f).bytes q i = m.bytes q i :=
  write_outside fun hp => h _ hp (inWindow_add hi)

theorem load64_congr {m' : Mem} (h : ∀ i < 8, m'.bytes q i = m.bytes p i) :
    m'.load64 q = m.load64 p := by
  unfold load64
  congr 2
  apply List.map_congr_left
  intro i hi
  rw [h i (List.mem_range.mp hi)]

theorem load64_store64 (v : UInt64) : (m.store64 p v).load64 p = v := by
  have hbyte : ∀ i ∈ List.range 8,
      ((m.store64 p v).bytes p i).toNat = v.toNat / 256 ^ i % 256 := by
    intro i hi
    rw [store64, bytes_write (List.mem_range.mp hi) (by decide), UInt8.toNat_ofNat']
  have hv := v.toNat_lt
  apply UInt64.toNat_inj.mp
  rw [load64, List.map_congr_left hbyte]
  simp only [List.range, List.range.loop, List.map_cons, List.map_nil, Nat.ofDigits_cons,
    Nat.ofDigits_nil, UInt64.toNat_ofNat']
  omega

end Mem
end NvmBlkCache.ByteMemory
