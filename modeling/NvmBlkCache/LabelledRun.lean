import Mathlib

/-!
# Runs of a machine that takes one label after another

`exec s e` is the state that the machine is in after it has taken the label `e` in state `s`. A side
condition on labels may depend on the state in which the label is taken.
-/
namespace NvmBlkCache.LabelledRun

variable {σ ε : Type*}

def run (exec : σ → ε → σ) (s : σ) (es : List ε) : σ := es.foldl exec s

/-- Every state of the run, the first and the last included. -/
def trajectory (exec : σ → ε → σ) (s : σ) : List ε → List σ
  | [] => [s]
  | e :: es => s :: trajectory exec (exec s e) es

/-- Every label of the run meets `cond` in the state in which it is taken. -/
def Along (exec : σ → ε → σ) (cond : σ → ε → Prop) (s : σ) : List ε → Prop
  | [] => True
  | e :: es => cond s e ∧ Along exec cond (exec s e) es

variable {exec : σ → ε → σ} {cond : σ → ε → Prop}

@[simp] theorem run_nil (s : σ) : run exec s [] = s := rfl

@[simp] theorem run_cons (s : σ) (e : ε) (es : List ε) :
    run exec s (e :: es) = run exec (exec s e) es := rfl

@[simp] theorem along_nil (s : σ) : Along exec cond s [] := trivial

@[simp] theorem along_cons (s : σ) (e : ε) (es : List ε) :
    Along exec cond s (e :: es) ↔ cond s e ∧ Along exec cond (exec s e) es := Iff.rfl

theorem run_append (s : σ) (es es' : List ε) :
    run exec s (es ++ es') = run exec (run exec s es) es' := List.foldl_append

theorem along_append (s : σ) (es es' : List ε) :
    Along exec cond s (es ++ es') ↔ Along exec cond s es ∧ Along exec cond (run exec s es) es' := by
  induction es generalizing s with
  | nil => simp
  | cons e es ih => rw [List.cons_append, along_cons, along_cons, run_cons, ih, and_assoc]

theorem along_of_forall {s : σ} {es : List ε} (h : ∀ s e, cond s e) : Along exec cond s es := by
  induction es generalizing s with
  | nil => trivial
  | cons e es ih => exact ⟨h s e, ih⟩

theorem Along.and {cond' : σ → ε → Prop} {s : σ} {es : List ε} (h : Along exec cond s es)
    (h' : Along exec cond' s es) : Along exec (fun s e => cond s e ∧ cond' s e) s es := by
  induction es generalizing s with
  | nil => trivial
  | cons e es ih => exact ⟨⟨h.1, h'.1⟩, ih h.2 h'.2⟩

/-- What holds of each step from a state with `inv` holds along a run that preserves `inv`. -/
theorem along_of_invariant (inv : σ → Prop) {ok : σ → ε → Prop}
    (hstep : ∀ s e, inv s → ok s e → inv (exec s e)) (hcond : ∀ s e, inv s → ok s e → cond s e)
    {s : σ} {es : List ε} (hs : inv s) (hok : Along exec ok s es) : Along exec cond s es := by
  induction es generalizing s with
  | nil => trivial
  | cons e es ih => exact ⟨hcond s e hs hok.1, ih (hstep s e hs hok.1) hok.2⟩

/-- What one step preserves, a run preserves. -/
theorem run_invariant (inv : σ → Prop) (hstep : ∀ s e, inv s → cond s e → inv (exec s e))
    {s : σ} {es : List ε} (hs : inv s) (h : Along exec cond s es) : inv (run exec s es) := by
  induction es generalizing s with
  | nil => exact hs
  | cons e es ih => exact ih (hstep s e hs h.1) h.2

/-- A step that simulates an abstract one makes a run simulate the abstract run. -/
theorem run_simulates {τ : Type*} (rel : σ → τ → Prop) {step : τ → ε → τ}
    (hstep : ∀ s t e, rel s t → cond s e → rel (exec s e) (step t e))
    {s : σ} {t : τ} {es : List ε} (hs : rel s t) (h : Along exec cond s es) :
    rel (run exec s es) (run step t es) := by
  induction es generalizing s t with
  | nil => exact hs
  | cons e es ih => exact ih (hstep s t e hs h.1) h.2

/-- Two conditions that agree wherever the run comes agree along it. -/
theorem along_iff (inv : σ → Prop) (ok : ε → Prop) {cond' : σ → ε → Prop}
    (hstep : ∀ s e, inv s → ok e → inv (exec s e))
    (hiff : ∀ s e, inv s → ok e → (cond s e ↔ cond' s e)) {s : σ} {es : List ε} (hs : inv s)
    (hok : ∀ e ∈ es, ok e) : Along exec cond s es ↔ Along exec cond' s es := by
  induction es generalizing s with
  | nil => exact Iff.rfl
  | cons e es ih =>
    rw [List.forall_mem_cons] at hok
    rw [along_cons, along_cons, hiff s e hs hok.1, ih (hstep s e hs hok.1) hok.2]

theorem mem_trajectory_self (s : σ) (es : List ε) : s ∈ trajectory exec s es := by
  cases es <;> simp [trajectory]

/-- When a step keeps `good` exactly under `cond`, a run is good in every state exactly when every
step of it meets `cond`. `inv` is what the steps need to be compared at all. -/
theorem trajectory_good_iff (inv good : σ → Prop) (ok : σ → ε → Prop)
    (hinv : ∀ s e, inv s → ok s e → inv (exec s e))
    (hstep : ∀ s e, inv s → ok s e → good s → (good (exec s e) ↔ cond s e))
    {s : σ} {es : List ε} (hi : inv s) (hg : good s) (hok : Along exec ok s es) :
    (∀ t ∈ trajectory exec s es, good t) ↔ Along exec cond s es := by
  induction es generalizing s with
  | nil => simp [trajectory, hg]
  | cons e es ih =>
    simp only [trajectory, List.forall_mem_cons, along_cons, hg, true_and]
    have hnext := hstep s e hi hok.1 hg
    constructor
    · intro h
      have hg' : good (exec s e) := h _ (mem_trajectory_self _ _)
      exact ⟨hnext.mp hg', (ih (hinv s e hi hok.1) hg' hok.2).mp h⟩
    · rintro ⟨hc, hrest⟩
      exact (ih (hinv s e hi hok.1) (hnext.mpr hc) hok.2).mpr hrest

/-- When a step is good exactly from a good state and under `cond`, a run ends well exactly when it begins
well and every step of it meets `cond`: what one step spoils stays spoilt. -/
theorem run_good_iff (inv good : σ → Prop) (ok : σ → ε → Prop)
    (hinv : ∀ s e, inv s → ok s e → inv (exec s e))
    (hstep : ∀ s e, inv s → ok s e → (good (exec s e) ↔ good s ∧ cond s e))
    {s : σ} {es : List ε} (hi : inv s) (hok : Along exec ok s es) :
    good (run exec s es) ↔ good s ∧ Along exec cond s es := by
  induction es generalizing s with
  | nil => simp
  | cons e es ih =>
    rw [run_cons, along_cons, ih (hinv s e hi hok.1) hok.2, hstep s e hi hok.1, and_assoc]

end NvmBlkCache.LabelledRun
