import Mathlib

/-!
# Singly linked chains in a heap

Cells of a heap carry a link to another cell or to none. A chain is the list of the addresses met
on the way from a head to the end. The lemmas say how a chain answers to the pointer writes of C
code (a push at the head, an unlink anywhere) and what a loop that follows the links finds.
-/
namespace NvmBlkCache.LinkedChain

variable {A N : Type*}

/-- Memory of one kind of cell. A freed cell keeps its contents until it is handed out again. -/
structure Heap (A N : Type*) where
  cell : A → N
  live : Finset A

section Heap
variable [DecidableEq A]

def Heap.alloc (h : Heap A N) (a : A) (n : N) : Heap A N :=
  ⟨Function.update h.cell a n, insert a h.live⟩

def Heap.write (h : Heap A N) (a : A) (n : N) : Heap A N :=
  { h with cell := Function.update h.cell a n }

def Heap.free (h : Heap A N) (a : A) : Heap A N :=
  { h with live := h.live.erase a }

@[simp] theorem alloc_cell (h : Heap A N) (a : A) (n : N) :
    (h.alloc a n).cell = Function.update h.cell a n := rfl

@[simp] theorem alloc_live (h : Heap A N) (a : A) (n : N) :
    (h.alloc a n).live = insert a h.live := rfl

@[simp] theorem write_cell (h : Heap A N) (a : A) (n : N) :
    (h.write a n).cell = Function.update h.cell a n := rfl

@[simp] theorem write_live (h : Heap A N) (a : A) (n : N) : (h.write a n).live = h.live := rfl

@[simp] theorem free_cell (h : Heap A N) (a : A) : (h.free a).cell = h.cell := rfl

@[simp] theorem free_live (h : Heap A N) (a : A) : (h.free a).live = h.live.erase a := rfl

end Heap

/-- `xs` are the addresses met from `p` along `link` to the end, in order. -/
def IsChain (link : A → Option A) : Option A → List A → Prop
  | p, [] => p = none
  | p, a :: xs => p = some a ∧ IsChain link (link a) xs

@[simp] theorem isChain_nil (link : A → Option A) (p : Option A) :
    IsChain link p [] ↔ p = none := Iff.rfl

@[simp] theorem isChain_cons (link : A → Option A) (p : Option A) (a : A) (xs : List A) :
    IsChain link p (a :: xs) ↔ p = some a ∧ IsChain link (link a) xs := Iff.rfl

theorem IsChain.head_eq {link : A → Option A} {p : Option A} {xs : List A}
    (h : IsChain link p xs) : p = xs.head? := by
  cases xs with
  | nil => exact h
  | cons a xs => exact h.1

theorem IsChain.unique {link : A → Option A} {p : Option A} {xs ys : List A}
    (hx : IsChain link p xs) (hy : IsChain link p ys) : xs = ys := by
  induction xs generalizing p ys with
  | nil =>
    cases ys with
    | nil => rfl
    | cons b ys => rw [isChain_nil] at hx; rw [isChain_cons, hx] at hy; simp at hy
  | cons a xs ih =>
    obtain ⟨rfl, hx⟩ := hx
    cases ys with
    | nil => simp at hy
    | cons b ys =>
      obtain ⟨he, hy⟩ := hy
      obtain rfl : a = b := by simpa using he
      rw [ih hx hy]

theorem IsChain.congr {link link' : A → Option A} {p : Option A} {xs : List A}
    (h : IsChain link p xs) (he : ∀ a ∈ xs, link' a = link a) : IsChain link' p xs := by
  induction xs generalizing p with
  | nil => exact h
  | cons a xs ih =>
    refine ⟨h.1, ?_⟩
    rw [he a (by simp)]
    exact ih h.2 (fun b hb => he b (by simp [hb]))

theorem IsChain.suffix {link : A → Option A} {p : Option A} {xs ys : List A} {a : A}
    (h : IsChain link p (xs ++ a :: ys)) : IsChain link (link a) ys := by
  induction xs generalizing p with
  | nil => exact h.2
  | cons b xs ih => exact ih h.2

/-- A chain ends, so it meets no address twice. -/
theorem IsChain.nodup {link : A → Option A} {p : Option A} {xs : List A}
    (h : IsChain link p xs) : xs.Nodup := by
  induction xs generalizing p with
  | nil => exact List.nodup_nil
  | cons a xs ih =>
    refine List.nodup_cons.mpr ⟨fun ha => ?_, ih h.2⟩
    obtain ⟨pre, post, rfl⟩ := List.append_of_mem ha
    have he := h.2.unique h.2.suffix
    have := congrArg List.length he
    simp only [List.length_append, List.length_cons] at this
    omega

/-- The cell before `a` is neither `a` nor one behind it. -/
theorem IsChain.prev_ne {link : A → Option A} {p : Option A} {xs ys : List A} {a c : A}
    (h : IsChain link p (xs ++ a :: ys)) (hc : c ∈ a :: ys) : xs.getLast? ≠ some c := by
  intro hp
  exact List.disjoint_of_nodup_append h.nodup (List.mem_of_getLast? hp) hc

theorem IsChain.length_le_card [DecidableEq A] {link : A → Option A} {p : Option A}
    {xs : List A} {live : Finset A} (h : IsChain link p xs) (hl : ∀ a ∈ xs, a ∈ live) :
    xs.length ≤ live.card := by
  rw [← List.toFinset_card_of_nodup h.nodup]
  exact Finset.card_le_card (fun a ha => hl a (List.mem_toFinset.mp ha))

/-- As many live cells as there are addresses in a list of live ones: no other cell is live. -/
theorem live_eq_of_card [DecidableEq A] {xs : List A} {live : Finset A} (hn : xs.Nodup)
    (hl : ∀ a ∈ xs, a ∈ live) (hcard : live.card = xs.length) : live = xs.toFinset := by
  symm
  apply Finset.eq_of_subset_of_card_le
  · intro a ha
    exact hl a (List.mem_toFinset.mp ha)
  · rw [List.toFinset_card_of_nodup hn, hcard]

section Update
variable [DecidableEq A]

/-- A fresh cell that links to the old head is the new head. -/
theorem IsChain.push {link : A → Option A} {p : Option A} {xs : List A} {a : A}
    (h : IsChain link p xs) (ha : a ∉ xs) :
    IsChain (Function.update link a p) (some a) (a :: xs) := by
  refine ⟨rfl, ?_⟩
  rw [Function.update_self]
  refine h.congr (fun b hb => Function.update_of_ne ?_ _ _)
  rintro rfl
  exact ha hb

/-- The predecessor of a cell takes over its link: the cell leaves the chain. -/
theorem IsChain.unlink {link : A → Option A} {p : Option A} {xs ys : List A} {a b : A}
    (h : IsChain link p (xs ++ b :: a :: ys)) :
    IsChain (Function.update link b (link a)) p (xs ++ b :: ys) := by
  induction xs generalizing p with
  | nil =>
    have hn := h.nodup
    obtain ⟨rfl, hb, ht⟩ := h
    refine ⟨rfl, ?_⟩
    rw [Function.update_self]
    refine ht.congr (fun c hc => Function.update_of_ne ?_ _ _)
    rintro rfl
    simp [hc] at hn
  | cons c xs ih =>
    have hn := h.nodup
    obtain ⟨rfl, ht⟩ := h
    have hc : c ≠ b := by
      rintro rfl
      simp at hn
    exact ⟨rfl, by rw [Function.update_of_ne hc]; exact ih ht⟩

end Update

/-- Collect a chain from its head, over at most `fuel` links. -/
def follow (link : A → Option A) : ℕ → Option A → List A
  | _, none => []
  | 0, some _ => []
  | fuel + 1, some a => a :: follow link fuel (link a)

theorem IsChain.follow_eq {link : A → Option A} {p : Option A} {xs : List A} {fuel : ℕ}
    (h : IsChain link p xs) (hf : xs.length ≤ fuel) : follow link fuel p = xs := by
  induction xs generalizing p fuel with
  | nil => rw [isChain_nil] at h; subst h; cases fuel <;> rfl
  | cons a xs ih =>
    obtain ⟨rfl, ht⟩ := h
    cases fuel with
    | zero => simp at hf
    | succ fuel => rw [follow, ih ht (by simpa using hf)]

/-- Follow the links to the first cell that passes `stop`, remembering the cell before it.
The outer `none` says that `fuel` links were not enough. -/
def walk (link : A → Option A) (stop : A → Bool) :
    ℕ → Option A → Option A → Option (Option A × Option A)
  | _, prev, none => some (prev, none)
  | 0, _, some _ => none
  | fuel + 1, prev, some a =>
    if stop a then some (prev, some a) else walk link stop fuel (some a) (link a)

/-- A walk over a chain that no cell stops reaches its end. -/
theorem IsChain.walk_none {link : A → Option A} {stop : A → Bool} {p : Option A} {xs : List A}
    {fuel : ℕ} (h : IsChain link p xs) (hf : xs.length ≤ fuel) (hs : ∀ a ∈ xs, stop a = false)
    (prev : Option A) : ∃ last, walk link stop fuel prev p = some (last, none) := by
  induction xs generalizing p fuel prev with
  | nil => rw [isChain_nil] at h; subst h; exact ⟨prev, by cases fuel <;> rfl⟩
  | cons a xs ih =>
    obtain ⟨rfl, ht⟩ := h
    cases fuel with
    | zero => simp at hf
    | succ fuel =>
      obtain ⟨last, hl⟩ := ih ht (by simpa using hf) (fun b hb => hs b (by simp [hb])) (some a)
      exact ⟨last, by simp [walk, hs a (by simp), hl]⟩

/-- A walk stops at the first cell of the chain that passes, and knows its predecessor. -/
theorem IsChain.walk_some {link : A → Option A} {stop : A → Bool} {p : Option A}
    {xs ys : List A} {a : A} {fuel : ℕ} (h : IsChain link p (xs ++ a :: ys))
    (hf : (xs ++ a :: ys).length ≤ fuel) (hs : ∀ b ∈ xs, stop b = false) (ha : stop a = true)
    (prev : Option A) :
    walk link stop fuel prev p = some (xs.getLast?.or prev, some a) := by
  induction xs generalizing p fuel prev with
  | nil =>
    obtain ⟨rfl, _⟩ := h
    cases fuel with
    | zero => simp at hf
    | succ fuel => simp [walk, ha]
  | cons b xs ih =>
    obtain ⟨rfl, ht⟩ := h
    cases fuel with
    | zero => simp at hf
    | succ fuel =>
      rw [walk, if_neg (by simp [hs b (by simp)]),
        ih ht (by simpa using hf) (fun c hc => hs c (by simp [hc])) (some b)]
      cases xs with
      | nil => rfl
      | cons c xs => simp [List.getLast?_cons]

end NvmBlkCache.LinkedChain
