import NvmBlkCache.Mapper
import NvmBlkCache.PoolMemory

/-!
# The memory of a mapper

`cache_mapper_init`, `register_mapper_scan_func` and `cache_mapper_destruct` in any order, with the array that
the first allocates and the last frees. A mapper that is initialised again forgets its array.
-/
namespace NvmBlkCache
open FaultProgram LabelledRun

/-- `funcArray` is the pointer to the array with what has been written there, or NULL; `allocated` is what
has been allocated for arrays and not been freed. -/
structure MapperMemory where
  elementNum : UInt64
  funcArray : Option (Addr × List BuildFunc)
  allocated : Finset Addr

/-- `malloc` is what the allocation of the array answers. -/
inductive MapperCall
  | init (nvmPhyLength : UInt64) (malloc : Option Addr)
  | register (func : BuildFunc)
  | destruct

namespace MapperMemory

abbrev MapperM := EStateM MemoryFault MapperMemory

def mapper (s : MapperMemory) : NvmCacheMapper := ⟨s.elementNum, s.funcArray.map Prod.snd⟩

def cacheMapperInit (nvmPhyLength : UInt64) (malloc : Option Addr) : MapperM Int32 := do
  modify fun s => ⟨nvmPhyLength / (cacheBlockSize + mapperElementSize), malloc.map fun a => (a, []),
    s.allocated ∪ malloc.toFinset⟩
  return 0

def registerMapperScanFunc (func : BuildFunc) : MapperM Unit := do
  let s ← get
  if s.mapper.funcCount < numMapperScanFuncs then
    match s.funcArray with
    | none => throw (.call .nullDeref)
    | some (a, funcs) =>
      if a ∈ s.allocated then set { s with funcArray := some (a, funcs ++ [func]) }
      else throw (.notAllocated a)

def cacheMapperDestruct : MapperM Unit := do
  match (← get).funcArray with
  | none => pure ⟨⟩
  | some (a, _) =>
    zoom MapperMemory.allocated (fun allocated s => { s with allocated := allocated }) (freeCell a)
    modify fun s => { s with funcArray := none }
  modify fun s => { s with elementNum := 0 }

def call : MapperCall → MapperM Unit
  | .init nvmPhyLength malloc => do let _ ← cacheMapperInit nvmPhyLength malloc
  | .register func => registerMapperScanFunc func
  | .destruct => cacheMapperDestruct

def exec (s : MapperMemory) (c : MapperCall) : MapperMemory := stateAfter (call c s)

/-- No array yet. A mapper that has not been initialised is taken as one with a NULL array, as it is in
zeroed memory. -/
def initial : MapperMemory := ⟨0, none, ∅⟩

def MallocSound (s : MapperMemory) : MapperCall → Prop
  | .init _ malloc => ∀ a ∈ malloc, a ∉ s.allocated
  | _ => True

/-- What is allocated is the array, and nothing else. -/
def Exact (s : MapperMemory) : Prop := s.allocated = (s.funcArray.map Prod.fst).toFinset

/-- The call does not initialise a mapper that has an array. -/
def KeepsArray (s : MapperMemory) : MapperCall → Prop
  | .init _ _ => s.funcArray = none
  | _ => True

/-- The functions in the array, as the calls tell them; `none` when there is no array. -/
def onFuncs (funcs : Option (List BuildFunc)) : MapperCall → Option (List BuildFunc)
  | .init _ malloc => malloc.map fun _ => []
  | .register func => funcs.map fun funcs => (funcs ++ [func]).take numMapperScanFuncs
  | .destruct => none

variable {s : MapperMemory} {funcs : Option (List BuildFunc)} {a : Addr} {fs : List BuildFunc}

theorem exec_init (s : MapperMemory) (nvmPhyLength : UInt64) (malloc : Option Addr) :
    exec s (.init nvmPhyLength malloc) = ⟨nvmPhyLength / (cacheBlockSize + mapperElementSize),
      malloc.map fun a => (a, []), s.allocated ∪ malloc.toFinset⟩ := rfl

theorem call_register_null (h : s.funcArray = none) (func : BuildFunc) :
    call (.register func) s = .error (.call .nullDeref) s := by
  have hroom : s.mapper.funcCount < numMapperScanFuncs := by
    simp [mapper, NvmCacheMapper.funcCount, numMapperScanFuncs, h]
  rw [call, registerMapperScanFunc, bind_ok (get_apply s), if_pos hroom, h]
  rfl

theorem call_register (h : s.funcArray = some (a, fs)) (ha : a ∈ s.allocated)
    (hfs : fs.length ≤ numMapperScanFuncs) (func : BuildFunc) :
    call (.register func) s = .ok ⟨⟩ { s with
      funcArray := some (a, (fs ++ [func]).take numMapperScanFuncs) } := by
  have hcount : s.mapper.funcCount = fs.length := by simp [mapper, NvmCacheMapper.funcCount, h]
  rw [call, registerMapperScanFunc, bind_ok (get_apply s), hcount]
  split_ifs with hroom
  · rw [h, List.take_of_length_le (by simpa using hroom)]
    simp only [ha, if_true]
    rfl
  · have hfull : fs.length = numMapperScanFuncs := by omega
    rw [← hfull, List.take_left, ← h]
    rfl

/-- The array is freed once, and a mapper without one is left as it is. -/
theorem call_destruct (h : ∀ a ∈ s.funcArray.map Prod.fst, a ∈ s.allocated) :
    call .destruct s =
      .ok ⟨⟩ ⟨0, none, s.allocated \ (s.funcArray.map Prod.fst).toFinset⟩ := by
  rw [call, cacheMapperDestruct, bind_ok (get_apply s)]
  cases harr : s.funcArray with
  | none => simp [harr]
  | some arr =>
    obtain ⟨a, fs⟩ := arr
    have ha : a ∈ s.allocated := h a (by simp [harr])
    have hfree : freeCell a s.allocated = .ok ⟨⟩ (s.allocated.erase a) := by simp [freeCell, ha]
    simp only []
    rw [bind_ok (zoom_ok hfree)]
    simp [Finset.sdiff_singleton_eq_erase]

/-- The array is allocated and has room for its functions, which are those that the calls tell. -/
structure Inv (s : MapperMemory) (funcs : Option (List BuildFunc)) : Prop where
  allocated : ∀ a ∈ s.funcArray.map Prod.fst, a ∈ s.allocated
  funcs_eq : s.mapper.funcArray = funcs
  room : ∀ fs ∈ funcs, fs.length ≤ numMapperScanFuncs

theorem inv_initial : Inv initial none := ⟨by simp [initial], rfl, by simp⟩

namespace Inv

theorem null (h : Inv s none) : s.funcArray = none := Option.map_eq_none_iff.mp h.funcs_eq

theorem array (h : Inv s (some fs)) : ∃ a ∈ s.allocated, s.funcArray = some (a, fs) := by
  obtain ⟨⟨a, _⟩, harr, rfl⟩ := Option.map_eq_some_iff.mp h.funcs_eq
  exact ⟨a, h.allocated a (by simp [harr]), harr⟩

theorem exec_register (h : Inv s (some fs)) (func : BuildFunc) : ∃ a ∈ s.allocated,
    s.funcArray = some (a, fs) ∧ call (.register func) s = .ok ⟨⟩ { s with
      funcArray := some (a, (fs ++ [func]).take numMapperScanFuncs) } := by
  obtain ⟨a, ha, harr⟩ := h.array
  exact ⟨a, ha, harr, call_register harr ha (h.room fs rfl) func⟩

theorem exec (h : Inv s funcs) (c : MapperCall) : Inv (exec s c) (onFuncs funcs c) := by
  cases c with
  | init nvmPhyLength malloc =>
    rw [exec_init]
    cases malloc <;> exact ⟨by simp, rfl, by simp [onFuncs]⟩
  | register func =>
    cases funcs with
    | none =>
      rw [MapperMemory.exec, call_register_null h.null]
      exact h
    | some fs =>
      obtain ⟨a, ha, -, hcall⟩ := h.exec_register func
      rw [MapperMemory.exec, hcall]
      exact ⟨by simpa using ha, rfl, by simp [onFuncs]⟩
  | destruct =>
    rw [MapperMemory.exec, call_destruct h.allocated]
    exact ⟨by simp, rfl, by simp [onFuncs]⟩

/-- Only a registration without an array faults. -/
theorem faults_iff (h : Inv s funcs) (c : MapperCall) :
    returned (call c s) = none ↔ funcs = none ∧ ∃ func, c = .register func := by
  cases c with
  | init nvmPhyLength malloc =>
    simp only [reduceCtorEq, exists_false, and_false, iff_false]
    exact Option.some_ne_none _
  | register func =>
    cases funcs with
    | none => simp [call_register_null h.null]
    | some fs =>
      obtain ⟨a, -, -, hcall⟩ := h.exec_register func
      simp [hcall]
  | destruct => simp [call_destruct h.allocated]

theorem exact_exec_iff (h : Inv s funcs) {c : MapperCall} (hm : MallocSound s c) :
    Exact (MapperMemory.exec s c) ↔ Exact s ∧ KeepsArray s c := by
  cases c with
  | init nvmPhyLength malloc =>
    have hnew : Disjoint s.allocated malloc.toFinset :=
      Finset.disjoint_right.mpr fun a ha => hm a (Option.mem_toFinset.mp ha)
    rw [exec_init, Exact, Option.map_map]
    constructor
    · intro he
      -- what was allocated before would be the new array
      have hnone : s.allocated = ∅ := by
        refine (Finset.disjoint_self_iff_empty s.allocated).mp (hnew.mono_right ?_)
        calc s.allocated ⊆ s.allocated ∪ malloc.toFinset := Finset.subset_union_left
          _ = malloc.toFinset := he.trans (by cases malloc <;> rfl)
      have harr : s.funcArray = none := by
        cases ha : s.funcArray with
        | none => rfl
        | some arr => simpa [hnone] using h.allocated arr.1 (by simp [ha])
      exact ⟨by rw [Exact, hnone, harr]; rfl, harr⟩
    · rintro ⟨he, harr⟩
      rw [he, show s.funcArray = none from harr]
      cases malloc <;> rfl
  | register func =>
    cases funcs with
    | none => simp [MapperMemory.exec, call_register_null h.null, KeepsArray]
    | some fs =>
      obtain ⟨a, -, harr, hcall⟩ := h.exec_register func
      simp [MapperMemory.exec, hcall, Exact, KeepsArray, harr]
  | destruct =>
    have hsub : (s.funcArray.map Prod.fst).toFinset ⊆ s.allocated := fun a ha =>
      h.allocated a (Option.mem_toFinset.mp ha)
    rw [MapperMemory.exec, call_destruct h.allocated]
    simp only [Exact, KeepsArray, and_true, stateAfter_ok, Option.map_none, Option.toFinset_none,
      Finset.sdiff_eq_empty_iff_subset]
    exact ⟨fun hle => hle.antisymm hsub, Eq.le⟩

end Inv

/-- The calls are those of `Mapper`, as far as these look at the array. -/
theorem init_mapper (s : MapperMemory) (nvmPhyLength : UInt64) (malloc : Option Addr) :
    (NvmBlkCache.cacheMapperInit (some s.mapper) nvmPhyLength malloc).2 =
      some (exec s (.init nvmPhyLength malloc)).mapper := by
  rw [exec_init]
  cases malloc <;> rfl

theorem Inv.register_mapper (h : Inv s funcs) {m : Machine} (hm : m.cache.mapper = some s.mapper)
    (func : BuildFunc) : (stateAfter (NvmBlkCache.registerMapperScanFunc func m)).cache.mapper =
      some (MapperMemory.exec s (.register func)).mapper := by
  have hcount : s.mapper.funcCount = (funcs.getD []).length := by
    rw [NvmCacheMapper.funcCount, h.funcs_eq]
  cases funcs with
  | none =>
    rw [MapperMemory.exec, call_register_null h.null]
    simp [NvmBlkCache.registerMapperScanFunc, bind_ok (get_apply m), hm, hcount, h.funcs_eq,
      numMapperScanFuncs]
  | some fs =>
    obtain ⟨a, -, -, hcall⟩ := h.exec_register func
    rw [MapperMemory.exec, hcall]
    by_cases hroom : fs.length < numMapperScanFuncs
    · rw [registerMapperScanFunc_append hm h.funcs_eq hroom]
      simp [Machine.setScanFuncs, mapper, List.take_of_length_le, hroom]
    · have hfull : fs.length = numMapperScanFuncs := by have := h.room fs rfl; omega
      rw [← hfull, List.take_left]
      simp only [NvmBlkCache.registerMapperScanFunc, bind_ok (get_apply m), hm, hcount,
        Option.getD_some, hfull, lt_irrefl, if_false, pure_apply, stateAfter_ok, Option.some.injEq]
      exact congrArg (NvmCacheMapper.mk s.elementNum) h.funcs_eq

/-- However a mapper whose array is NULL to begin with is initialised, destructed and registered with, its
array has the first functions that were registered since the last initialisation. A call faults exactly
when it registers while there is no array, and nothing but the array is allocated exactly when no mapper
that has an array has been initialised again. -/
theorem mapper_array_owned {calls : List MapperCall} (h : Along exec MallocSound initial calls) :
    (run exec initial calls).mapper.funcArray = run onFuncs none calls ∧
    (∀ c, returned (call c (run exec initial calls)) = none ↔
      run onFuncs none calls = none ∧ ∃ func, c = .register func) ∧
    (Exact (run exec initial calls) ↔ Along exec KeepsArray initial calls) := by
  have hinv : Inv (run exec initial calls) (run onFuncs none calls) :=
    run_simulates Inv (fun s funcs c hs _ => hs.exec c) inv_initial h
  have hexact := run_good_iff (fun s => ∃ funcs, Inv s funcs) Exact MallocSound
    (fun s c ⟨funcs, hs⟩ _ => ⟨_, hs.exec c⟩) (fun s c ⟨_, hs⟩ hm => hs.exact_exec_iff hm)
    ⟨none, inv_initial⟩ h
  exact ⟨hinv.funcs_eq, hinv.faults_iff, by simpa [Exact, initial] using hexact⟩

theorem mapper_array_owned_reinitialised : ∃ calls, Along exec MallocSound initial calls ∧
    (run exec initial calls).mapper.funcArray = some [.buildNvmEmptyBlock] ∧
    ¬ Exact (run exec initial calls) := by
  let calls : List MapperCall :=
    [.init 1040 (some 64), .register .buildNvmBlock, .init 1040 (some 128), .register .buildNvmEmptyBlock]
  have h : Along exec MallocSound initial calls := by
    refine ⟨?_, trivial, ?_, trivial, trivial⟩
    · simp [MallocSound, initial]
    · rintro a ⟨⟩
      decide
  obtain ⟨hfuncs, -, hexact⟩ := mapper_array_owned h
  refine ⟨calls, h, hfuncs.trans rfl, fun he => ?_⟩
  obtain ⟨-, -, hkeeps, -⟩ := hexact.mp he
  cases hkeeps

end MapperMemory
end NvmBlkCache
