import Mathlib

/-!
# Programs whose state survives a fault

A call of a C function is an `EStateM` program: it returns a value, or it stops on a fault, and
either way the memory it has written so far stays written. This file has the few rules by which
such programs are run: one step of a sequence, a program on one part of the state, and a counting
loop with an early return.
-/
namespace NvmBlkCache.FaultProgram

universe u
variable {ε σ τ α β ρ : Type u}

/-- The state a call leaves behind, whether it returned or stopped on a fault. -/
def stateAfter : EStateM.Result ε σ α → σ
  | .ok _ s => s
  | .error _ s => s

@[simp] theorem stateAfter_ok (a : α) (s : σ) :
    stateAfter (.ok a s : EStateM.Result ε σ α) = s := rfl

@[simp] theorem stateAfter_error (e : ε) (s : σ) :
    stateAfter (.error e s : EStateM.Result ε σ α) = s := rfl

/-- What a call returned; `none` when it stopped on a fault. -/
def returned : EStateM.Result ε σ α → Option α
  | .ok a _ => some a
  | .error _ _ => none

@[simp] theorem returned_ok (a : α) (s : σ) :
    returned (.ok a s : EStateM.Result ε σ α) = some a := rfl

@[simp] theorem returned_error (e : ε) (s : σ) :
    returned (.error e s : EStateM.Result ε σ α) = none := rfl

theorem bind_ok {x : EStateM ε σ α} {f : α → EStateM ε σ β} {s s' : σ} {a : α}
    (h : x s = .ok a s') : (x >>= f) s = f a s' := by
  simp [bind, EStateM.bind, h]

theorem bind_error {x : EStateM ε σ α} {f : α → EStateM ε σ β} {s s' : σ} {e : ε}
    (h : x s = .error e s') : (x >>= f) s = .error e s' := by
  simp [bind, EStateM.bind, h]

theorem stateAfter_bind_pure (x : EStateM ε σ α) (b : β) (s : σ) :
    stateAfter ((do let _ ← x; pure b) s) = stateAfter (x s) := by
  cases h : x s with
  | ok a t => rw [bind_ok h]; rfl
  | error e t => rw [bind_error h]; rfl

theorem bind_congr_run {x y : EStateM ε σ α} {f : α → EStateM ε σ β} {s t : σ} (h : x s = y t) :
    (x >>= f) s = (y >>= f) t := by
  simp [bind, EStateM.bind, h]

@[simp] theorem pure_apply (a : α) (s : σ) : (pure a : EStateM ε σ α) s = .ok a s := rfl

@[simp] theorem get_apply (s : σ) : (get : EStateM ε σ σ) s = .ok s s := rfl

@[simp] theorem throw_apply (e : ε) (s : σ) : (throw e : EStateM ε σ α) s = .error e s := rfl

@[simp] theorem modify_apply (f : σ → σ) (s : σ) :
    (modify f : EStateM ε σ PUnit) s = .ok ⟨⟩ (f s) := rfl

/-- Every value that `x` returns, from whatever state, satisfies `P`. -/
def Returns (P : α → Prop) (x : EStateM ε σ α) : Prop := ∀ s a s', x s = .ok a s' → P a

section Returns
variable {P : α → Prop}

theorem returns_pure {a : α} (h : P a) : Returns P (pure a : EStateM ε σ α) := by
  intro s b s' hrun
  cases hrun
  exact h

theorem returns_bind {x : EStateM ε σ β} {f : β → EStateM ε σ α} (h : ∀ b, Returns P (f b)) :
    Returns P (x >>= f) := by
  intro s a s' hrun
  cases hx : x s with
  | ok b t =>
    rw [bind_ok hx] at hrun
    exact h b t a s' hrun
  | error e t =>
    rw [bind_error hx] at hrun
    cases hrun

theorem returns_ite {c : Prop} [Decidable c] {x y : EStateM ε σ α} (hx : Returns P x)
    (hy : Returns P y) : Returns P (if c then x else y) := by
  split_ifs
  · exact hx
  · exact hy

end Returns

/-- Run a program on the part of the state that `get` reads and `set` writes. -/
def zoom (get : σ → τ) (set : τ → σ → σ) (x : EStateM ε τ α) : EStateM ε σ α := fun s =>
  match x (get s) with
  | .ok a t => .ok a (set t s)
  | .error e t => .error e (set t s)

theorem zoom_ok {get : σ → τ} {set : τ → σ → σ} {x : EStateM ε τ α} {s : σ} {t : τ} {a : α}
    (h : x (get s) = .ok a t) : zoom get set x s = .ok a (set t s) := by
  simp [zoom, h]

theorem zoom_error {get : σ → τ} {set : τ → σ → σ} {x : EStateM ε τ α} {s : σ} {t : τ} {e : ε}
    (h : x (get s) = .error e t) : zoom get set x s = .error e (set t s) := by
  simp [zoom, h]

/-- However `x` ends, what `part` reads off the state is as before. -/
def Keeps (part : σ → τ) (x : EStateM ε σ α) : Prop := ∀ s, part (stateAfter (x s)) = part s

section Keeps
variable {part : σ → τ}

theorem keeps_pure (a : α) : Keeps part (pure a : EStateM ε σ α) := fun _ => rfl

theorem keeps_get : Keeps part (get : EStateM ε σ σ) := fun _ => rfl

theorem keeps_throw (e : ε) : Keeps part (throw e : EStateM ε σ α) := fun _ => rfl

theorem keeps_modify {f : σ → σ} (h : ∀ s, part (f s) = part s) :
    Keeps part (modify f : EStateM ε σ PUnit) := h

theorem keeps_bind {x : EStateM ε σ α} {f : α → EStateM ε σ β} (hx : Keeps part x)
    (hf : ∀ a, Keeps part (f a)) : Keeps part (x >>= f) := by
  intro s
  have hs := hx s
  cases he : x s with
  | ok a t =>
    rw [he] at hs
    rw [bind_ok he, hf a t]
    exact hs
  | error e t =>
    rw [he] at hs
    rw [bind_error he]
    exact hs

theorem keeps_ite {c : Prop} [Decidable c] {x y : EStateM ε σ α} (hx : Keeps part x)
    (hy : Keeps part y) : Keeps part (if c then x else y) := by
  split_ifs
  · exact hx
  · exact hy

theorem keeps_forM {f : β → EStateM ε σ PUnit} (h : ∀ b, Keeps part (f b)) (bs : List β) :
    Keeps part (bs.forM f) := by
  induction bs with
  | nil => exact keeps_pure _
  | cons b bs ih => exact keeps_bind (h b) fun _ => ih

/-- A program on one part of the state leaves what can be read without that part. -/
theorem keeps_zoom {ρ : Type u} {get : σ → ρ} {set : ρ → σ → σ}
    (h : ∀ t s, part (set t s) = part s) (x : EStateM ε ρ α) : Keeps part (zoom get set x) := by
  intro s
  cases hx : x (get s) with
  | ok a t => rw [zoom_ok hx, stateAfter_ok, h]
  | error e t => rw [zoom_error hx, stateAfter_error, h]

end Keeps

/-- However `x` ends, it leaves a state with the property that the state had before. -/
def Preserves (P : σ → Prop) (x : EStateM ε σ α) : Prop := ∀ s, P s → P (stateAfter (x s))

section Preserves
variable {P : σ → Prop}

theorem preserves_pure (a : α) : Preserves P (pure a : EStateM ε σ α) := fun _ hs => hs

theorem preserves_throw (e : ε) : Preserves P (throw e : EStateM ε σ α) := fun _ hs => hs

theorem preserves_ite {c : Prop} [Decidable c] {x y : EStateM ε σ α} (hx : Preserves P x)
    (hy : Preserves P y) : Preserves P (if c then x else y) := by
  split_ifs
  · exact hx
  · exact hy

theorem preserves_bind {x : EStateM ε σ α} {f : α → EStateM ε σ β} (hx : Preserves P x)
    (hf : ∀ a, Preserves P (f a)) : Preserves P (x >>= f) := by
  intro s hs
  have hmid := hx s hs
  cases he : x s with
  | ok a t =>
    rw [he] at hmid
    rw [bind_ok he]
    exact hf a t hmid
  | error e t =>
    rw [he] at hmid
    rw [bind_error he]
    exact hmid

theorem preserves_get {g : σ → EStateM ε σ β} (hg : ∀ s, Preserves P (g s)) :
    Preserves P (get >>= g) := fun s hs => hg s s hs

theorem preserves_zoom {ρ : Type u} {get : σ → ρ} {set : ρ → σ → σ} {Q : ρ → Prop}
    (hget : ∀ s, P s → Q (get s)) (hset : ∀ t s, P s → Q t → P (set t s)) {x : EStateM ε ρ α}
    (hx : Preserves Q x) : Preserves P (zoom get set x) := by
  intro s hs
  have hafter := hx (get s) (hget s hs)
  cases he : x (get s) with
  | ok a t =>
    rw [he] at hafter
    rw [zoom_ok he]
    exact hset t s hs hafter
  | error e t =>
    rw [he] at hafter
    rw [zoom_error he]
    exact hset t s hs hafter

end Preserves

def mapState {τ : Type u} (f : σ → τ) : EStateM.Result ε σ α → EStateM.Result ε τ α
  | .ok a s => .ok a (f s)
  | .error e s => .error e (f s)

@[simp] theorem stateAfter_mapState {τ : Type u} (f : σ → τ) (r : EStateM.Result ε σ α) :
    stateAfter (mapState f r) = f (stateAfter r) := by
  cases r <;> rfl

/-- On states of the form `f s` the program `x` does what `y` does on `s`. -/
def Mirrors {τ : Type u} (f : σ → τ) (x : EStateM ε τ α) (y : EStateM ε σ α) : Prop :=
  ∀ s, x (f s) = mapState f (y s)

section Mirrors
variable {τ : Type u} {f : σ → τ}

theorem mirrors_pure (a : α) : Mirrors f (pure a : EStateM ε τ α) (pure a) := fun _ => rfl

theorem mirrors_throw (e : ε) : Mirrors f (throw e : EStateM ε τ α) (throw e) := fun _ => rfl

theorem mirrors_bind {x : EStateM ε τ α} {y : EStateM ε σ α} {g : α → EStateM ε τ β}
    {h : α → EStateM ε σ β} (hx : Mirrors f x y) (hg : ∀ a, Mirrors f (g a) (h a)) :
    Mirrors f (x >>= g) (y >>= h) := by
  intro s
  have hs := hx s
  cases hy : y s with
  | ok a t =>
    rw [hy] at hs
    rw [bind_ok hy, bind_ok hs]
    exact hg a t
  | error e t =>
    rw [hy] at hs
    rw [bind_error hy, bind_error hs]
    rfl

theorem mirrors_get {g : τ → EStateM ε τ β} {h : σ → EStateM ε σ β}
    (hg : ∀ s, Mirrors f (g (f s)) (h s)) : Mirrors f (get >>= g) (get >>= h) := fun s => hg s s

theorem mirrors_ite {c : Prop} [Decidable c] {x x' : EStateM ε τ α} {y y' : EStateM ε σ α}
    (h : Mirrors f x y) (h' : Mirrors f x' y') :
    Mirrors f (if c then x else x') (if c then y else y') := by
  split_ifs
  · exact h
  · exact h'

end Mirrors

/-- `for (i = off; n more rounds; i++) body(i)`, where a round that answers `some r` makes the
enclosing function return `r`. -/
def countUp {ε σ ρ : Type} (body : UInt64 → EStateM ε σ (Option ρ)) :
    UInt64 → ℕ → EStateM ε σ (Option ρ)
  | _, 0 => pure none
  | off, n + 1 => do
    match ← body off with
    | some r => pure (some r)
    | none => countUp body (off + 1) n

section Loop
variable {ε σ ρ : Type} {body : UInt64 → EStateM ε σ (Option ρ)}

@[simp] theorem countUp_zero (off : UInt64) (s : σ) : countUp body off 0 s = .ok none s := rfl

theorem countUp_next {off : UInt64} {n : ℕ} {s s' : σ} (h : body off s = .ok none s') :
    countUp body off (n + 1) s = countUp body (off + 1) n s' := by
  rw [countUp, bind_ok h]

theorem countUp_return {off : UInt64} {n : ℕ} {s s' : σ} {r : ρ}
    (h : body off s = .ok (some r) s') : countUp body off (n + 1) s = .ok (some r) s' := by
  rw [countUp, bind_ok h]
  rfl

theorem countUp_error {off : UInt64} {n : ℕ} {s s' : σ} {e : ε}
    (h : body off s = .error e s') : countUp body off (n + 1) s = .error e s' := by
  rw [countUp, bind_error h]

theorem countUp_add {k : ℕ} (n : ℕ) {off : UInt64} {s s' : σ}
    (h : countUp body off k s = .ok none s') :
    countUp body off (k + n) s = countUp body (off + UInt64.ofNat k) n s' := by
  induction k generalizing off s with
  | zero =>
    obtain rfl : s = s' := by simpa using h
    simp
  | succ k ih =>
    cases hb : body off s with
    | error e t => rw [countUp_error hb] at h; cases h
    | ok a t =>
      cases a with
      | some r => rw [countUp_return hb] at h; cases h
      | none =>
        rw [countUp_next hb] at h
        rw [show k + 1 + n = k + n + 1 by omega, countUp_next hb, ih h, Nat.add_comm k 1,
          UInt64.ofNat_add, ← UInt64.add_assoc]
        rfl

/-- Rounds that come to an early return or a fault are not followed by others. -/
theorem countUp_stops {k : ℕ} (n : ℕ) {off : UInt64} {s : σ}
    (h : ∀ t, countUp body off k s ≠ .ok none t) :
    countUp body off (k + n) s = countUp body off k s := by
  induction k generalizing off s with
  | zero => exact absurd rfl (h s)
  | succ k ih =>
    rw [show k + 1 + n = k + n + 1 by omega]
    cases hb : body off s with
    | error e t => rw [countUp_error hb, countUp_error hb]
    | ok a t =>
      cases a with
      | some r => rw [countUp_return hb, countUp_return hb]
      | none =>
        rw [countUp_next hb] at h ⊢
        rw [countUp_next hb, ih h]

/-- A loop that starts at `x` is the loop of the shifted rounds. -/
theorem countUp_shift {body' : UInt64 → EStateM ε σ (Option ρ)} {x : UInt64}
    (h : ∀ i, body (x + i) = body' i) (off : UInt64) (n : ℕ) :
    countUp body (x + off) n = countUp body' off n := by
  induction n generalizing off with
  | zero => rfl
  | succ n ih => rw [countUp, countUp, h, UInt64.add_assoc, ih]

theorem countUp_returns {P : Option ρ → Prop} (hnone : P none) (h : ∀ i, Returns P (body i))
    (off : UInt64) (n : ℕ) : Returns P (countUp body off n) := by
  induction n generalizing off with
  | zero => exact returns_pure hnone
  | succ n ih =>
    intro s a s' hrun
    cases hb : body off s with
    | error e t =>
      rw [countUp_error hb] at hrun
      cases hrun
    | ok b t =>
      cases b with
      | some r =>
        rw [countUp_return hb] at hrun
        cases hrun
        exact h off s _ _ hb
      | none =>
        rw [countUp_next hb] at hrun
        exact ih (off + 1) t a s' hrun

theorem countUp_keeps {τ : Type} {part : σ → τ} (h : ∀ i, Keeps part (body i)) (off : UInt64)
    (n : ℕ) : Keeps part (countUp body off n) := by
  induction n generalizing off with
  | zero => exact keeps_pure _
  | succ n ih =>
    refine keeps_bind (h off) fun a => ?_
    cases a with
    | some r => exact keeps_pure _
    | none => exact ih (off + 1)

theorem countUp_preserves {P : σ → Prop} (h : ∀ i, Preserves P (body i)) (off : UInt64) (n : ℕ) :
    Preserves P (countUp body off n) := by
  induction n generalizing off with
  | zero => exact preserves_pure _
  | succ n ih =>
    refine preserves_bind (h off) fun a => ?_
    cases a with
    | some r => exact preserves_pure _
    | none => exact ih (off + 1)

/-- Rounds that all fall through reach the end of the loop, with whatever property of the state one
hands to the next. -/
theorem countUp_progress (P : ℕ → σ → Prop) {n : ℕ} {s : σ} (hs : P 0 s)
    (hround : ∀ j < n, ∀ t, P j t →
      ∃ t', body (UInt64.ofNat j) t = .ok none t' ∧ P (j + 1) t') :
    ∃ s', countUp body 0 n s = .ok none s' ∧ P n s' := by
  induction n with
  | zero => exact ⟨s, rfl, hs⟩
  | succ n ih =>
    obtain ⟨t, hloop, hP⟩ := ih (fun j hj => hround j (Nat.lt_succ_of_lt hj))
    obtain ⟨t', hbody, hP'⟩ := hround n (Nat.lt_succ_self n) t hP
    refine ⟨t', ?_, hP'⟩
    rw [countUp_add 1 hloop, UInt64.zero_add, countUp_next hbody, countUp_zero]

/-- With rounds that fall through until a bad one, the loop comes to the first bad one. -/
theorem countUp_reaches (P : ℕ → σ → Prop) (bad : ℕ → Prop) {n : ℕ} {s : σ} (hs : P 0 s)
    (hround : ∀ j, ¬ bad j → ∀ t, P j t →
      ∃ t', body (UInt64.ofNat j) t = .ok none t' ∧ P (j + 1) t')
    (hbad : ∃ j < n, bad j) :
    ∃ k < n, bad k ∧ ∃ t rest, P k t ∧
      countUp body 0 n s = countUp body (UInt64.ofNat k) (rest + 1) t := by
  classical
  obtain ⟨hlt, hfirst⟩ := Nat.find_spec hbad
  have hbefore : ∀ j < Nat.find hbad, ¬ bad j :=
    fun j hj hj' => Nat.find_min hbad hj ⟨hj.trans hlt, hj'⟩
  obtain ⟨t, hloop, hP⟩ := countUp_progress P hs (fun j hj => hround j (hbefore j hj))
  obtain ⟨rest, hrest⟩ := Nat.exists_eq_add_of_lt hlt
  have hrun := countUp_add (rest + 1) hloop
  rw [← Nat.add_assoc, ← hrest, UInt64.zero_add] at hrun
  exact ⟨_, hlt, hfirst, t, rest, hP, hrun⟩

end Loop
end NvmBlkCache.FaultProgram
