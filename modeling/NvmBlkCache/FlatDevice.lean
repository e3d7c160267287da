import NvmBlkCache.LabelledRun

/-!
# Flat devices

An array of cells under single accesses. What a cell holds after a run is what the last write to it
wrote, or what it held before if there was none.
-/
namespace NvmBlkCache.FlatDevice
open LabelledRun

inductive Access (L V : Type*)
  | read (l : L)
  | write (l : L) (v : V)

variable {L V : Type*} [DecidableEq L]

def step (dev : L → V) : Access L V → L → V
  | .read _ => dev
  | .write l v => Function.update dev l v

/-- What the last write to `l` wrote. -/
def lastWritten (l : L) : List (Access L V) → Option V
  | [] => none
  | .read _ :: rest => lastWritten l rest
  | .write l' v :: rest => (lastWritten l rest).or (if l = l' then some v else none)

@[simp] theorem step_read (dev : L → V) (l : L) : step dev (.read l) = dev := rfl

@[simp] theorem step_write (dev : L → V) (l : L) (v : V) :
    step dev (.write l v) = Function.update dev l v := rfl

theorem run_step (dev : L → V) (accesses : List (Access L V)) (l : L) :
    run step dev accesses l = (lastWritten l accesses).getD (dev l) := by
  induction accesses generalizing dev with
  | nil => rfl
  | cons access rest ih =>
    rw [run_cons, ih]
    cases access with
    | read l' => rfl
    | write l' v =>
      rw [step_write, lastWritten]
      cases lastWritten l rest with
      | some w => rfl
      | none =>
        by_cases hl : l = l'
        · simp [hl]
        · simp [hl]

end NvmBlkCache.FlatDevice
