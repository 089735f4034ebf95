import Mathlib.Data.List.Basic

/-! Lists of key-value pairs read by `List.lookup`: setting a key in place, or at the
end when it is new, and removing a key. -/

namespace RsServe.AssocList

variable {κ β : Type*} [BEq κ] [LawfulBEq κ]

theorem exists_lookup_of_mem {l : List (κ × β)} {key : κ} (h : key ∈ l.map Prod.fst) :
    ∃ value, l.lookup key = some value := by
  cases hlookup : l.lookup key with
  | some value => exact ⟨value, rfl⟩
  | none =>
    rw [List.lookup_eq_none_iff] at hlookup
    obtain ⟨entry, hentry, same⟩ := List.mem_map.1 h
    exact absurd (hlookup entry hentry) (by simp [same])

theorem eq_nil_of_lookup {l : List (κ × β)} (h : ∀ key, l.lookup key = none) : l = [] := by
  cases l with
  | nil => rfl
  | cons entry l => simpa using h entry.1

variable [DecidableEq κ]

def upsert : List (κ × β) → κ → β → List (κ × β)
  | [], key, value => [(key, value)]
  | (k, v) :: l, key, value => if k = key then (key, value) :: l else (k, v) :: upsert l key value

def remove (l : List (κ × β)) (key : κ) : List (κ × β) := l.filter (·.1 ≠ key)

theorem lookup_cons_eq (key : κ) (value : β) (l : List (κ × β)) (k : κ) :
    ((key, value) :: l).lookup k = if k = key then some value else l.lookup k := by
  by_cases h : k = key
  · simp [h]
  · simp [List.lookup_cons, h, beq_false_of_ne h]

theorem lookup_upsert (l : List (κ × β)) (key : κ) (value : β) (k : κ) :
    (upsert l key value).lookup k = if k = key then some value else l.lookup k := by
  induction l with
  | nil => exact lookup_cons_eq key value [] k
  | cons entry l ih =>
    rw [upsert, lookup_cons_eq]
    by_cases hfirst : entry.1 = key
    · rw [if_pos hfirst, lookup_cons_eq, hfirst]
      by_cases hk : k = key
      · rw [if_pos hk, if_pos hk]
      · rw [if_neg hk, if_neg hk, if_neg hk]
    · rw [if_neg hfirst, lookup_cons_eq, ih]
      by_cases hk : k = key
      · have hother : k ≠ entry.1 := fun same => hfirst (same.symm.trans hk)
        rw [if_neg hother]
        simp [hk]
      · simp [hk]

theorem lookup_remove (l : List (κ × β)) (key k : κ) :
    (remove l key).lookup k = if k = key then none else l.lookup k := by
  unfold remove
  induction l with
  | nil => simp
  | cons entry l ih =>
    rw [lookup_cons_eq, List.filter_cons]
    by_cases hfirst : entry.1 = key
    · simp only [hfirst, ne_eq, not_true_eq_false, decide_false, Bool.false_eq_true, if_false]
      rw [ih]
      by_cases hk : k = key
      · rw [if_pos hk, if_pos hk]
      · rw [if_neg hk, if_neg hk, if_neg hk]
    · simp only [ne_eq, hfirst, not_false_eq_true, decide_true, if_true]
      rw [lookup_cons_eq, ih]
      by_cases hk : k = key
      · have hother : k ≠ entry.1 := fun same => hfirst (same.symm.trans hk)
        rw [if_neg hother, if_neg hother]
      · rw [if_neg hk, if_neg hk]

theorem mem_of_lookup {l : List (κ × β)} {key : κ} {value : β} (h : l.lookup key = some value) :
    (key, value) ∈ l := by
  induction l with
  | nil => simp at h
  | cons entry l ih =>
    rw [lookup_cons_eq] at h
    by_cases hk : key = entry.1
    · rw [if_pos hk, Option.some_inj] at h
      rw [hk, ← h]
      exact List.mem_cons_self
    · rw [if_neg hk] at h
      exact List.mem_cons_of_mem entry (ih h)

omit [BEq κ] [LawfulBEq κ] in
theorem exists_split {l : List (κ × β)} {key : κ} (h : key ∈ l.map Prod.fst) :
    ∃ front value back, l = front ++ (key, value) :: back ∧ key ∉ front.map Prod.fst := by
  induction l with
  | nil => simp at h
  | cons entry l ih =>
    obtain ⟨k, v⟩ := entry
    by_cases hk : key = k
    · subst hk
      exact ⟨[], v, l, rfl, by simp⟩
    · rw [List.map_cons, List.mem_cons] at h
      obtain ⟨front, value, back, eq, absent⟩ := ih (h.resolve_left hk)
      exact ⟨(k, v) :: front, value, back, by rw [eq, List.cons_append], by simp [hk, absent]⟩

theorem lookup_of_mem {l : List (κ × β)} {entry : κ × β} (h : (l.map Prod.fst).Nodup)
    (hentry : entry ∈ l) : l.lookup entry.1 = some entry.2 := by
  induction l with
  | nil => cases hentry
  | cons first l ih =>
    rw [List.map_cons, List.nodup_cons] at h
    rw [lookup_cons_eq]
    rcases List.mem_cons.1 hentry with rfl | later
    · rw [if_pos rfl]
    · have other : entry.1 ≠ first.1 := fun same => h.1 (same ▸ List.mem_map_of_mem later)
      rw [if_neg other]
      exact ih h.2 later

omit [DecidableEq κ] in
theorem lookup_absent {l : List (κ × β)} {key : κ} (h : key ∉ l.map Prod.fst) :
    l.lookup key = none := by
  rw [List.lookup_eq_none_iff]
  intro entry hentry
  have other : key ≠ entry.1 := fun same => h (List.mem_map.2 ⟨entry, hentry, same.symm⟩)
  simpa using other

theorem lookup_split {front : List (κ × β)} {key : κ} (h : key ∉ front.map Prod.fst) (value : β)
    (back : List (κ × β)) : (front ++ (key, value) :: back).lookup key = some value := by
  induction front with
  | nil => simp
  | cons entry front ih =>
    rw [List.map_cons, List.mem_cons, not_or] at h
    rw [List.cons_append, lookup_cons_eq, if_neg h.1, ih h.2]

omit [BEq κ] [LawfulBEq κ] in
theorem upsert_split {front : List (κ × β)} {key : κ} (h : key ∉ front.map Prod.fst)
    (old value : β) (back : List (κ × β)) :
    upsert (front ++ (key, old) :: back) key value = front ++ (key, value) :: back := by
  induction front with
  | nil => simp [upsert]
  | cons entry front ih =>
    rw [List.map_cons, List.mem_cons, not_or] at h
    rw [List.cons_append, upsert, if_neg (Ne.symm h.1), ih h.2, List.cons_append]

omit [BEq κ] [LawfulBEq κ] in
theorem upsert_absent {l : List (κ × β)} {key : κ} (h : key ∉ l.map Prod.fst) (value : β) :
    upsert l key value = l ++ [(key, value)] := by
  induction l with
  | nil => rfl
  | cons entry l ih =>
    rw [List.map_cons, List.mem_cons, not_or] at h
    rw [upsert, if_neg (Ne.symm h.1), ih h.2, List.cons_append]

end RsServe.AssocList
