import Mathlib.Data.List.AList
import Mathlib.Logic.Function.Basic

/-! Stores of key-value pairs, and a map over points kept in one of them: points
are flattened to keys and values are encoded. The store refines the map as long
as no point that is set shares its key with another point. -/

namespace RsServe.KeyedStore

variable {σ P V K W : Type*}

/-- A store whose cursor visits every entry once. -/
structure Store (σ K W : Type*) [DecidableEq K] where
  empty : σ
  get : σ → K → Option W
  put : σ → K → W → σ
  del : σ → K → σ
  cursor : σ → List (K × W)
  get_empty : ∀ k, get empty k = none
  get_put : ∀ s k w k', get (put s k w) k' = if k' = k then some w else get s k'
  get_del : ∀ s k k', get (del s k) k' = if k' = k then none else get s k'
  cursor_nodup : ∀ s, ((cursor s).map Prod.fst).Nodup
  mem_cursor : ∀ s k w, (k, w) ∈ cursor s ↔ get s k = some w

inductive Change (P V : Type*) where
  | set (p : P) (v : V)
  | clear (p : P)

section Latest
variable [DecidableEq P]

def Change.apply (m : P → Option V) : Change P V → P → Option V
  | .set p v => Function.update m p (some v)
  | .clear p => Function.update m p none

def latest (changes : List (Change P V)) : P → Option V :=
  changes.foldl Change.apply fun _ => none

theorem latest_append_singleton (changes : List (Change P V)) (c : Change P V) :
    latest (changes ++ [c]) = c.apply (latest changes) := by
  rw [latest, List.foldl_append]
  rfl

def Change.point : Change P V → P
  | .set p _ => p
  | .clear p => p

theorem Change.apply_of_ne {c : Change P V} {p : P} (h : c.point ≠ p) (m : P → Option V) :
    c.apply m p = m p := by
  cases c with
  | set q v => exact Function.update_of_ne h.symm _ _
  | clear q => exact Function.update_of_ne h.symm _ _

theorem latest_append (changes : List (Change P V)) {later : List (Change P V)} {p : P}
    (h : ∀ c ∈ later, c.point ≠ p) : latest (changes ++ later) p = latest changes p := by
  rw [latest, List.foldl_append, ← latest]
  generalize latest changes = m
  induction later generalizing m with
  | nil => rfl
  | cons c later ih =>
    calc (c :: later).foldl Change.apply m p = c.apply m p := ih (fun d hd => h d (by simp [hd])) _
      _ = m p := Change.apply_of_ne (h c (by simp)) m

theorem latest_absent {changes : List (Change P V)} {p : P}
    (h : p ∉ changes.map Change.point) : latest changes p = none :=
  latest_append [] fun _ hc same => h (List.mem_map.2 ⟨_, hc, same⟩)

theorem latest_of_mem {changes : List (Change P V)} (h : (changes.map Change.point).Nodup)
    {c : Change P V} (hc : c ∈ changes) :
    latest changes c.point = c.apply (fun _ => none) c.point := by
  obtain ⟨front, back, rfl⟩ := List.append_of_mem hc
  have apart : ∀ d ∈ back, d.point ≠ c.point := by
    rw [List.map_append, List.map_cons] at h
    intro d hd same
    exact (List.nodup_cons.1 h.of_append_right).1 (List.mem_map.2 ⟨d, hd, same⟩)
  have split : front ++ c :: back = (front ++ [c]) ++ back := by simp
  rw [split, latest_append _ apart, latest_append_singleton]
  cases c with
  | set p v => simp [Change.apply, Change.point]
  | clear p => simp [Change.apply, Change.point]

end Latest

variable [DecidableEq K] (db : Store σ K W) (key : P → K) (encode : V → W)

def Store.applyChange (s : σ) : Change P V → σ
  | .set p v => db.put s (key p) (encode v)
  | .clear p => db.del s (key p)

def Unshared (p : P) : Prop := ∀ q, key q = key p → q = p

structure Refines (s : σ) (m : P → Option V) : Prop where
  get_key : ∀ q, db.get s (key q) = (m q).map encode
  key_of_get : ∀ k w, db.get s k = some w → ∃ q, key q = k
  unshared : ∀ q v, m q = some v → Unshared key q

theorem refines_empty : Refines db key encode db.empty fun _ => none where
  get_key q := by simp [db.get_empty]
  key_of_get k w h := by simp [db.get_empty] at h
  unshared q v h := by simp at h

variable {db key encode}

theorem Refines.mem_cursor {s : σ} {m : P → Option V} (h : Refines db key encode s m)
    (k : K) (w : W) :
    (k, w) ∈ db.cursor s ↔ ∃ q v, key q = k ∧ m q = some v ∧ encode v = w := by
  rw [db.mem_cursor]
  constructor
  · intro hk
    cases h.key_of_get k w hk with
    | intro q hq =>
      rw [← hq, h.get_key, Option.map_eq_some_iff] at hk
      cases hk with
      | intro v hv => exact ⟨q, v, hq, hv.1, hv.2⟩
  · intro found
    obtain ⟨q, v, hq, hv, hw⟩ := found
    rw [← hq, h.get_key, hv, Option.map_some, hw]

variable [DecidableEq P]

theorem Refines.set {s : σ} {m : P → Option V} (h : Refines db key encode s m) {p : P} (v : V)
    (hp : Unshared key p) :
    Refines db key encode (db.put s (key p) (encode v)) (Function.update m p (some v)) where
  get_key q := by
    rw [db.get_put]
    by_cases hq : q = p
    · subst hq
      simp
    · have apart : key q ≠ key p := fun same => hq (hp q same)
      rw [if_neg apart, Function.update_of_ne hq, h.get_key]
  key_of_get k w hk := by
    rw [db.get_put] at hk
    by_cases same : k = key p
    · exact ⟨p, same.symm⟩
    · rw [if_neg same] at hk
      exact h.key_of_get k w hk
  unshared q w hq := by
    by_cases same : q = p
    · subst same
      exact hp
    · rw [Function.update_of_ne same] at hq
      exact h.unshared q w hq

theorem Refines.clear {s : σ} {m : P → Option V} (h : Refines db key encode s m) (p : P) :
    Refines db key encode (db.del s (key p)) (Function.update m p none) where
  get_key q := by
    rw [db.get_del]
    by_cases hq : q = p
    · subst hq
      simp
    · rw [Function.update_of_ne hq]
      by_cases same : key q = key p
      · have absent : m q = none := by
          cases hv : m q with
          | none => rfl
          | some v => exact absurd (h.unshared q v hv p same.symm).symm hq
        rw [if_pos same, absent]
        rfl
      · rw [if_neg same, h.get_key]
  key_of_get k w hk := by
    rw [db.get_del] at hk
    by_cases same : k = key p
    · exact ⟨p, same.symm⟩
    · rw [if_neg same] at hk
      exact h.key_of_get k w hk
  unshared q w hq := by
    by_cases same : q = p
    · subst same
      simp at hq
    · rw [Function.update_of_ne same] at hq
      exact h.unshared q w hq

theorem Refines.applyChange {s : σ} {m : P → Option V} (h : Refines db key encode s m)
    (c : Change P V) (hc : ∀ p v, c = .set p v → Unshared key p) :
    Refines db key encode (db.applyChange key encode s c) (c.apply m) := by
  cases c with
  | set p v => exact h.set v (hc p v rfl)
  | clear p => exact h.clear p

def listed (K W : Type*) [DecidableEq K] : Store (AList fun _ : K => W) K W where
  empty := ∅
  get s k := s.lookup k
  put s k w := s.insert k w
  del s k := s.erase k
  cursor s := s.entries.map fun e => (e.1, e.2)
  get_empty k := AList.lookup_empty k
  get_put s k w k' := by
    by_cases h : k' = k
    · subst h
      rw [if_pos rfl, AList.lookup_insert]
    · rw [if_neg h, AList.lookup_insert_ne h]
  get_del s k k' := by
    by_cases h : k' = k
    · subst h
      rw [if_pos rfl, AList.lookup_erase]
    · rw [if_neg h, AList.lookup_erase_ne h]
  cursor_nodup s := by
    rw [List.map_map]
    exact s.nodupKeys
  mem_cursor s k w := by
    rw [← Option.mem_def, AList.mem_lookup_iff]
    simp

end RsServe.KeyedStore
