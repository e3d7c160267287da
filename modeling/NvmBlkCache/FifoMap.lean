import Mathlib

/-!
# A FIFO list and a finite map fed by one stream of items

An item is a value with a key. Items with a key of one sort wait in a FIFO list, the others are bound
to their key in a map. Values leave the list oldest first, and the map, once the list is empty, in an
order that is left open. `outstanding` reads off a history which items have come in and not left.
-/
namespace NvmBlkCache.FifoMap

variable {K V : Type*}

structure Store (K V : Type*) where
  fifo : List V
  map : K → Option V

/-- An item comes in: it waits in the list, or its key is bound to it. -/
def Store.add [DecidableEq K] (queued : K → Prop) [DecidablePred queued] (s : Store K V) (k : K)
    (v : V) : Store K V :=
  if queued k then { s with fifo := s.fifo ++ [v] }
  else { s with map := Function.update s.map k (some v) }

inductive Event (K V : Type*)
  | add (k : K) (v : V)
  | take (v : V)
  | evict (v : V)
  | miss
  | look (k : K) (answer : Option V)
  deriving DecidableEq, Repr

section
variable [DecidableEq K] [DecidableEq V] (queued : K → Prop)

inductive Step : Store K V → Event K V → Store K V → Prop
  | enqueue {s : Store K V} {k : K} {v : V} (hk : queued k) :
      Step s (.add k v) { s with fifo := s.fifo ++ [v] }
  | bind {s : Store K V} {k : K} {v : V} (hk : ¬ queued k) :
      Step s (.add k v) { s with map := Function.update s.map k (some v) }
  | take {s : Store K V} {v : V} {vs : List V} (h : s.fifo = v :: vs) :
      Step s (.take v) { s with fifo := vs }
  | evict {s : Store K V} {k : K} {v : V} (he : s.fifo = []) (h : s.map k = some v) :
      Step s (.evict v) { s with map := Function.update s.map k none }
  | miss {s : Store K V} (he : s.fifo = []) : Step s .miss s
  | look {s : Store K V} (k : K) : Step s (.look k (s.map k)) s

end

theorem Step.of_add [DecidableEq K] {queued : K → Prop} [DecidablePred queued] (s : Store K V)
    (k : K) (v : V) : Step queued s (.add k v) (s.add queued k v) := by
  rw [Store.add]
  split_ifs with hk
  · exact .enqueue hk
  · exact .bind hk

/-- What an event does to the list of items that are in, kept in the order in which they came. -/
def settle [DecidableEq V] (out : List (K × V)) : Event K V → List (K × V)
  | .add k v => out ++ [(k, v)]
  | .take v => out.filter (fun e => e.2 ≠ v)
  | .evict v => out.filter (fun e => e.2 ≠ v)
  | .miss => out
  | .look _ _ => out

/-- The items that came in and have not left since, oldest first. -/
def outstanding [DecidableEq V] (es : List (Event K V)) : List (K × V) := es.foldl settle []

/-- An event brings in no value that is there already and binds no key twice. -/
def Fresh (queued : K → Prop) (s : Store K V) (out : List (K × V)) : Event K V → Prop
  | .add k v => v ∉ out.map Prod.snd ∧ (¬ queued k → s.map k = none)
  | _ => True

/-- The store holds exactly the items of `out`, no value twice. -/
structure Tracks (queued : K → Prop) [DecidablePred queued] (s : Store K V)
    (out : List (K × V)) : Prop where
  fifo_eq : s.fifo = (out.filter (fun e => queued e.1)).map Prod.snd
  map_iff : ∀ k v, s.map k = some v ↔ (k, v) ∈ out ∧ ¬ queued k
  ids_nodup : (out.map Prod.snd).Nodup

section
variable {queued : K → Prop} [DecidablePred queued]
variable {s t : Store K V} {out : List (K × V)} {e : Event K V}

theorem tracks_nil : Tracks queued (⟨[], fun _ => none⟩ : Store K V) [] :=
  ⟨rfl, by simp, by simp⟩

theorem Tracks.item_unique (h : Tracks queued s out) {k k' : K} {v : V} (hk : (k, v) ∈ out)
    (hk' : (k', v) ∈ out) : k = k' :=
  congrArg Prod.fst (List.inj_on_of_nodup_map h.ids_nodup hk hk' rfl)

theorem Tracks.enqueue (h : Tracks queued s out) {k : K} {v : V} (hk : queued k)
    (hv : v ∉ out.map Prod.snd) :
    Tracks queued { s with fifo := s.fifo ++ [v] } (out ++ [(k, v)]) where
  fifo_eq := by simp [h.fifo_eq, List.filter_append, hk]
  map_iff k' w := by
    rw [h.map_iff, List.mem_append, List.mem_singleton, Prod.mk.injEq]
    constructor
    · rintro ⟨hm, hq⟩
      exact ⟨Or.inl hm, hq⟩
    · rintro ⟨hm | ⟨rfl, _⟩, hq⟩
      · exact ⟨hm, hq⟩
      · exact absurd hk hq
  ids_nodup := by
    rw [List.map_append, List.map_singleton, ← List.concat_eq_append, List.nodup_concat]
    exact ⟨hv, h.ids_nodup⟩

section Leave
variable [DecidableEq V]

theorem mem_drop_value {v : V} {k : K} {w : V} :
    (k, w) ∈ out.filter (fun e => e.2 ≠ v) ↔ (k, w) ∈ out ∧ w ≠ v := by simp

theorem Tracks.drop_nodup (h : Tracks queued s out) (v : V) :
    ((out.filter (fun e => e.2 ≠ v)).map Prod.snd).Nodup :=
  h.ids_nodup.sublist (List.filter_sublist.map Prod.snd)

theorem Tracks.take (h : Tracks queued s out) {v : V} {vs : List V} (hf : s.fifo = v :: vs) :
    Tracks queued { s with fifo := vs } (out.filter (fun e => e.2 ≠ v)) where
  fifo_eq := by
    have heq := h.fifo_eq
    have hnd : ((out.filter (fun e => queued e.1)).map Prod.snd).Nodup :=
      h.ids_nodup.sublist (List.filter_sublist.map Prod.snd)
    rw [List.filter_filter, List.filter_congr (fun e _ => Bool.and_comm _ _), ← List.filter_filter]
    cases hq : out.filter (fun e => queued e.1) with
    | nil => rw [hq, hf] at heq; simp at heq
    | cons e es =>
      rw [hq, hf, List.map_cons] at heq
      rw [hq, List.map_cons, List.nodup_cons] at hnd
      obtain ⟨rfl, rfl⟩ := List.cons.inj heq
      have hes : es.filter (fun e' => e'.2 ≠ e.2) = es := by
        refine List.filter_eq_self.mpr (fun e' he' => ?_)
        have : e'.2 ≠ e.2 := fun hee => hnd.1 (hee ▸ List.mem_map_of_mem he')
        simpa using this
      rw [List.filter_cons_of_neg (by simp), hes]
  map_iff k w := by
    rw [h.map_iff, mem_drop_value]
    refine ⟨fun ⟨hm, hq⟩ => ⟨⟨hm, ?_⟩, hq⟩, fun ⟨⟨hm, _⟩, hq⟩ => ⟨hm, hq⟩⟩
    rintro rfl
    have hw : w ∈ (out.filter (fun e => queued e.1)).map Prod.snd := by
      rw [← h.fifo_eq, hf]
      simp
    obtain ⟨⟨k', w'⟩, hk', rfl⟩ := List.mem_map.mp hw
    obtain ⟨hk', hq'⟩ := List.mem_filter.mp hk'
    rw [h.item_unique hm hk'] at hq
    exact hq (by simpa using hq')
  ids_nodup := h.drop_nodup v

end Leave

section Bind
variable [DecidableEq K]

theorem Tracks.bind (h : Tracks queued s out) {k : K} {v : V} (hk : ¬ queued k)
    (hv : v ∉ out.map Prod.snd) (hn : s.map k = none) :
    Tracks queued { s with map := Function.update s.map k (some v) } (out ++ [(k, v)]) where
  fifo_eq := by simp [h.fifo_eq, List.filter_append, hk]
  map_iff k' w := by
    rw [List.mem_append, List.mem_singleton, Prod.mk.injEq]
    by_cases he : k' = k
    · subst he
      have hw : (k', w) ∉ out := fun hm => by simpa [hn] using (h.map_iff k' w).mpr ⟨hm, hk⟩
      simp [hw, hk, eq_comm]
    · simp [he, h.map_iff]
  ids_nodup := by
    rw [List.map_append, List.map_singleton, ← List.concat_eq_append, List.nodup_concat]
    exact ⟨hv, h.ids_nodup⟩

variable [DecidableEq V]

theorem Tracks.evict (h : Tracks queued s out) {k : K} {v : V} (he : s.fifo = [])
    (hk : s.map k = some v) :
    Tracks queued { s with map := Function.update s.map k none }
      (out.filter (fun e => e.2 ≠ v)) where
  fifo_eq := by
    have hq : out.filter (fun e => queued e.1) = [] := by
      have := h.fifo_eq
      rw [he] at this
      exact List.map_eq_nil_iff.mp this.symm
    rw [List.filter_filter, List.filter_congr (fun e _ => Bool.and_comm _ _), ← List.filter_filter,
      hq]
    exact he
  map_iff k' w := by
    have hkv := (h.map_iff k v).mp hk
    rw [mem_drop_value]
    change Function.update s.map k none k' = some w ↔ _
    by_cases hkk : k' = k
    · subst hkk
      rw [Function.update_self]
      refine ⟨fun hn => (by cases hn), fun ⟨⟨hm, hne⟩, hq⟩ => ?_⟩
      have hw := (h.map_iff k' w).mpr ⟨hm, hq⟩
      rw [hk, Option.some.injEq] at hw
      exact absurd hw.symm hne
    · rw [Function.update_of_ne hkk, h.map_iff]
      refine ⟨fun ⟨hm, hq⟩ => ⟨⟨hm, ?_⟩, hq⟩, fun ⟨⟨hm, _⟩, hq⟩ => ⟨hm, hq⟩⟩
      rintro rfl
      exact hkk (h.item_unique hm hkv.1)
  ids_nodup := h.drop_nodup v

/-- One step: the items that are in are the ones the history says. -/
theorem Tracks.step (h : Tracks queued s out) (hs : Step queued s e t)
    (hf : Fresh queued s out e) : Tracks queued t (settle out e) := by
  cases hs with
  | enqueue hk => exact h.enqueue hk hf.1
  | bind hk => exact h.bind hk hf.1 (hf.2 hk)
  | take hv => exact h.take hv
  | evict he hk => exact h.evict he hk
  | miss he => exact h
  | look k => exact h

end Bind
end
end NvmBlkCache.FifoMap
