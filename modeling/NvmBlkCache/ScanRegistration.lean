import NvmBlkCache.Mapper

/-!
# The functions that a scan finds

`cache_mapper_scan` registers its two build functions each time it is called, behind those of the
scans before, and the array has room for five pairs. What `get_lba` does is a parameter here: it is
enough that it leaves the mapper alone.
-/
namespace NvmBlkCache
open FaultProgram

/-- `scanElement` with `read` in the place of `get_lba`. -/
def scanElementWith (read : NvmCacheBlkId → Prog Int32) (blkIndex : NvmCacheBlkId) :
    Prog (Option Int32) := do
  let ret ← read blkIndex
  if ret ≠ 0 then return some (-1)
  match (← get).cache.mapper with
  | none => throw .nullDeref
  | some mapper =>
    (mapper.funcArray.getD []).forM (callScanFunc blkIndex)
    return none

/-- `cache_mapper_scan` with `read` in the place of `get_lba`. -/
def cacheMapperScanWith (read : NvmCacheBlkId → Prog Int32) : Prog Int32 := do
  registerMapperScanFunc .buildNvmEmptyBlock
  registerMapperScanFunc .buildNvmValidBlock
  let n ← elementNum
  match ← countUp (scanElementWith read) 0 n.toNat with
  | some ret => return ret
  | none => return 0

def readLba (blkIndex : NvmCacheBlkId) : Prog Int32 := do
  let m ← get
  getLba m.cache.accessor m.lbaVar blkIndex

theorem cacheMapperScan_eq : cacheMapperScan = cacheMapperScanWith readLba := rfl

/-- `mapper` comes from `cache_mapper_init` and `k` calls of `cache_mapper_scan`, on whatever machines and
however they ended. -/
inductive ScannedTimes : ℕ → NvmCacheMapper → Prop
  | init {old mapper : NvmCacheMapper} {nvmPhyLength : UInt64} {malloc : Option Addr}
      (h : cacheMapperInit (some old) nvmPhyLength malloc = (0, some mapper)) :
      ScannedTimes 0 mapper
  | scan {k : ℕ} {mapper mapper' : NvmCacheMapper} (h : ScannedTimes k mapper) (m : Machine)
      (hm : m.cache.mapper = some mapper) (read : NvmCacheBlkId → Prog Int32)
      (hread : ∀ id, Keeps (fun m => m.cache.mapper) (read id))
      (h' : (stateAfter (cacheMapperScanWith read m)).cache.mapper = some mapper') :
      ScannedTimes (k + 1) mapper'

/-- The functions in the array after `k` scans. -/
def scanFuncs (k : ℕ) : List BuildFunc :=
  (List.replicate (min k 5) [.buildNvmEmptyBlock, .buildNvmValidBlock]).flatten

variable {m : Machine} {mapper : NvmCacheMapper} {k : ℕ}

theorem scanFuncs_length (k : ℕ) : (scanFuncs k).length = 2 * min k 5 := by
  simp [scanFuncs]
  omega

theorem scanFuncs_succ (hk : k < 5) :
    scanFuncs (k + 1) = scanFuncs k ++ [.buildNvmEmptyBlock, .buildNvmValidBlock] := by
  rw [scanFuncs, scanFuncs, min_eq_left (by omega), min_eq_left (by omega), List.replicate_succ',
    List.flatten_append]
  rfl

theorem scanFuncs_full (hk : 5 ≤ k) : scanFuncs (k + 1) = scanFuncs k := by
  rw [scanFuncs, scanFuncs, min_eq_right (by omega), min_eq_right hk]

theorem registerMapperScanFunc_full {funcs : List BuildFunc} (hm : m.cache.mapper = some mapper)
    (hf : mapper.funcArray = some funcs) (hfull : numMapperScanFuncs ≤ funcs.length)
    (func : BuildFunc) : registerMapperScanFunc func m = .ok ⟨⟩ m := by
  have hroom : ¬ funcs.length < numMapperScanFuncs := Nat.not_lt.mpr hfull
  rw [registerMapperScanFunc, bind_ok (get_apply m)]
  simp [hm, hf, NvmCacheMapper.funcCount, hroom]

theorem registerMapperScanFunc_null (hm : m.cache.mapper = some mapper)
    (hf : mapper.funcArray = none) (func : BuildFunc) :
    registerMapperScanFunc func m = .error .nullDeref m := by
  rw [registerMapperScanFunc, bind_ok (get_apply m)]
  simp [hm, hf, NvmCacheMapper.funcCount, numMapperScanFuncs]

/-- A scan on `mapper` gets to its loop in this state. -/
def Machine.registered (m : Machine) (mapper : NvmCacheMapper) (k : ℕ) : Machine :=
  m.setScanFuncs mapper (scanFuncs (k + 1))

theorem register_both (hm : m.cache.mapper = some mapper)
    (hf : mapper.funcArray = some (scanFuncs k)) (read : NvmCacheBlkId → Prog Int32) :
    cacheMapperScanWith read m = (do
      match ← countUp (scanElementWith read) 0 mapper.elementNum.toNat with
      | some ret => return ret
      | none => return 0 : Prog Int32) (m.registered mapper k) := by
  have hreg : (m.registered mapper k).cache.mapper =
      some { mapper with funcArray := some (scanFuncs (k + 1)) } := rfl
  have hn : elementNum (m.registered mapper k) = .ok mapper.elementNum (m.registered mapper k) :=
    (elementNum_apply hreg :)
  have hlen := scanFuncs_length k
  rcases Nat.lt_or_ge k 5 with hk | hk
  · let once := m.setScanFuncs mapper (scanFuncs k ++ [.buildNvmEmptyBlock])
    have h₁ : registerMapperScanFunc .buildNvmEmptyBlock m = .ok ⟨⟩ once :=
      registerMapperScanFunc_append hm hf (by rw [numMapperScanFuncs]; omega) _
    have honce : once.cache.mapper =
        some { mapper with funcArray := some (scanFuncs k ++ [.buildNvmEmptyBlock]) } := rfl
    have h₂ : registerMapperScanFunc .buildNvmValidBlock once =
        .ok ⟨⟩ (m.registered mapper k) := by
      rw [registerMapperScanFunc_append honce rfl
        (by simp only [List.length_append, List.length_singleton, numMapperScanFuncs]; omega),
        Machine.registered, scanFuncs_succ hk, List.append_assoc]
      rfl
    rw [cacheMapperScanWith, bind_ok h₁, bind_ok h₂, bind_ok hn]
  · have hsame : m.registered mapper k = m := by
      rw [Machine.registered, scanFuncs_full hk, Machine.setScanFuncs, ← hf, ← hm]
    have hfull : numMapperScanFuncs ≤ (scanFuncs k).length := by rw [numMapperScanFuncs]; omega
    have hfulls := registerMapperScanFunc_full hm hf hfull
    rw [hsame] at hn ⊢
    rw [cacheMapperScanWith, bind_ok (hfulls _), bind_ok (hfulls _), bind_ok hn]

theorem callScanFunc_keeps (blkIndex : NvmCacheBlkId) (func : BuildFunc) :
    Keeps (fun m => m.cache.mapper) (callScanFunc blkIndex func) := by
  have hload : ∀ p, Keeps (fun m => m.cache.mapper) (loadU64 p) := by
    intro p m
    rw [loadU64]
    split_ifs
    · rfl
    · rfl
  have hmalloc : Keeps (fun m => m.cache.mapper) mallocNode := fun _ => rfl
  refine keeps_bind keeps_get fun m => keeps_bind (hload _) fun lba => keeps_bind hmalloc ?_
  intro malloc
  apply keeps_zoom
  intros
  rfl

theorem scanElementWith_keeps {read : NvmCacheBlkId → Prog Int32}
    (hread : ∀ id, Keeps (fun m => m.cache.mapper) (read id)) (blkIndex : NvmCacheBlkId) :
    Keeps (fun m => m.cache.mapper) (scanElementWith read blkIndex) := by
  refine keeps_bind (hread blkIndex) fun ret => ?_
  refine keeps_ite (keeps_pure _) (keeps_bind keeps_get fun m => ?_)
  cases m.cache.mapper with
  | none => exact keeps_throw _
  | some mapper =>
    exact keeps_bind (keeps_forM (callScanFunc_keeps blkIndex) _) fun _ => keeps_pure _

theorem readLba_keeps (blkIndex : NvmCacheBlkId) :
    Keeps (fun m => m.cache.mapper) (readLba blkIndex) := by
  have haddr : ∀ (this : Option NvmAccessor) offset,
      Keeps (fun m : Machine => m.cache.mapper) (vaddrByOffset this offset) := by
    intro this offset
    cases this with
    | none => exact keeps_throw _
    | some acc => exact keeps_pure _
  have hread : ∀ buffer count virtAddr,
      Keeps (fun m : Machine => m.cache.mapper) (nvmAccessorRead buffer count virtAddr) := by
    intro buffer count virtAddr
    refine keeps_ite (keeps_pure _) (keeps_ite (keeps_pure _) (keeps_ite (keeps_pure _) ?_))
    exact keeps_bind (keeps_modify fun _ => rfl) fun _ => keeps_pure _
  refine keeps_bind keeps_get fun m => keeps_bind keeps_get fun m' => ?_
  refine keeps_bind (keeps_bind (haddr _ _) fun _ => hread _ _ _) fun count => ?_
  exact keeps_ite (keeps_pure _) (keeps_pure _)

/-- The array is NULL, or holds the functions of `k` scans. -/
theorem ScannedTimes.funcArray_eq (h : ScannedTimes k mapper) :
    mapper.funcArray = none ∨ mapper.funcArray = some (scanFuncs k) := by
  induction h with
  | @init old mapper nvmPhyLength malloc h =>
    cases malloc with
    | none =>
      left
      cases h
      rfl
    | some a =>
      right
      cases h
      rfl
  | @scan k mapper mapper' h m hm read hread h' ih =>
    rcases ih with hf | hf
    · have hrun : cacheMapperScanWith read m = .error .nullDeref m :=
        bind_error (registerMapperScanFunc_null hm hf _)
      rw [hrun, stateAfter_error, hm] at h'
      exact .inl (Option.some.inj h' ▸ hf)
    · have htail : Keeps (fun m => m.cache.mapper) (do
          match ← countUp (scanElementWith read) 0 mapper.elementNum.toNat with
          | some ret => return ret
          | none => return 0 : Prog Int32) := by
        refine keeps_bind (countUp_keeps (scanElementWith_keeps hread) _ _) fun a => ?_
        cases a with
        | none => exact keeps_pure _
        | some ret => exact keeps_pure _
      have hkept : (stateAfter (cacheMapperScanWith read m)).cache.mapper =
          (m.registered mapper k).cache.mapper := by
        rw [register_both hm hf]
        exact htail (m.registered mapper k)
      rw [h'] at hkept
      right
      rw [Option.some.inj hkept]

end NvmBlkCache
