import Mathlib.Data.List.Nodup
import RsServe.AssocList

/-! Trees whose edges carry the parts of a key: a map from lists of labels, and its entries
in the order of a walk from the root. -/

namespace RsServe.PrefixTree
open AssocList

inductive Tree (κ V : Type) where
  | node (value : Option V) (children : List (κ × Tree κ V))

variable {κ V : Type}

def empty : Tree κ V := .node none []

section Map
variable [DecidableEq κ]

def get : List κ → Tree κ V → Option V
  | [], .node value _ => value
  | k :: key, .node _ children => (children.lookup k).bind (get key)

def childAt (children : List (κ × Tree κ V)) (k : κ) : Tree κ V :=
  (children.lookup k).getD empty

def set (value : Option V) : List κ → Tree κ V → Tree κ V
  | [], .node _ children => .node value children
  | k :: key, .node old children =>
    .node old (upsert children k (set value key (childAt children k)))

theorem get_empty (key : List κ) : get key (empty : Tree κ V) = none := by
  cases key with
  | nil => rfl
  | cons k key => rfl

theorem get_childAt (children : List (κ × Tree κ V)) (k : κ) (key : List κ) :
    get key (childAt children k) = (children.lookup k).bind (get key) := by
  rw [childAt]
  cases children.lookup k with
  | none => exact get_empty key
  | some child => rfl

section Around
variable {front : List (κ × Tree κ V)} {k : κ} (h : k ∉ front.map Prod.fst)

include h

theorem get_split (root : Option V) (t : Tree κ V) (back : List (κ × Tree κ V)) (key : List κ) :
    get (k :: key) (.node root (front ++ (k, t) :: back)) = get key t := by
  rw [get, lookup_split h, Option.bind_some]

theorem get_absent (root : Option V) (key : List κ) :
    get (k :: key) (.node root front) = none := by
  rw [get, lookup_absent h, Option.bind_none]

theorem set_split (value root : Option V) (t : Tree κ V) (back : List (κ × Tree κ V))
    (key : List κ) :
    set value (k :: key) (.node root (front ++ (k, t) :: back)) =
      .node root (front ++ (k, set value key t) :: back) := by
  rw [set, childAt, lookup_split h, Option.getD_some, upsert_split h]

theorem set_absent (value root : Option V) (key : List κ) :
    set value (k :: key) (.node root front) =
      .node root (front ++ [(k, set value key empty)]) := by
  rw [set, childAt, lookup_absent h, Option.getD_none, upsert_absent h]

end Around

theorem get_set (value : Option V) (key : List κ) (t : Tree κ V) (other : List κ) :
    get other (set value key t) = if other = key then value else get other t := by
  induction key generalizing t other with
  | nil =>
    obtain ⟨old, children⟩ := t
    cases other with
    | nil => rfl
    | cons j other => simp [set, get]
  | cons k key ih =>
    obtain ⟨old, children⟩ := t
    cases other with
    | nil => simp [set, get]
    | cons j other =>
      rw [set, get, get, lookup_upsert]
      by_cases same : j = k
      · rw [if_pos same, Option.bind_some, ih, get_childAt, same]
        simp
      · rw [if_neg same]
        simp [same]

end Map

mutual

/-- The value of the root first, then the entries child by child. -/
def entries : Tree κ V → List (List κ × V)
  | .node value children => (value.toList.map fun v => ([], v)) ++ childEntries children

def childEntries : List (κ × Tree κ V) → List (List κ × V)
  | [] => []
  | (k, t) :: children => (entries t).map (fun e => (k :: e.1, e.2)) ++ childEntries children

end

mutual

def Distinct : Tree κ V → Prop
  | .node _ children => DistinctChildren children

def DistinctChildren : List (κ × Tree κ V) → Prop
  | [] => True
  | (k, t) :: children => k ∉ children.map Prod.fst ∧ Distinct t ∧ DistinctChildren children

end

theorem distinct_empty : Distinct (empty : Tree κ V) := trivial

theorem label_of_mem_childEntries {children : List (κ × Tree κ V)} {e : List κ × V}
    (h : e ∈ childEntries children) : ∃ k key, e.1 = k :: key ∧ k ∈ children.map Prod.fst := by
  induction children with
  | nil => simp [childEntries] at h
  | cons child children ih =>
    obtain ⟨j, t⟩ := child
    rw [childEntries, List.mem_append, List.mem_map] at h
    rcases h with first | later
    · obtain ⟨below, _, eq⟩ := first
      exact ⟨j, below.1, by rw [← eq], by simp⟩
    · obtain ⟨k, key, eq, hk⟩ := ih later
      exact ⟨k, key, eq, List.mem_cons_of_mem j hk⟩

mutual

theorem entries_nodup : (t : Tree κ V) → Distinct t → ((entries t).map Prod.fst).Nodup
  | .node value children, h => by
    have below := childEntries_nodup children h
    cases value with
    | none => simpa [entries] using below
    | some v =>
      have root : [] ∉ (childEntries children).map Prod.fst := by
        intro mem
        obtain ⟨e, he, nil⟩ := List.mem_map.1 mem
        obtain ⟨k, key, eq, _⟩ := label_of_mem_childEntries he
        simp [nil] at eq
      simpa [entries] using ⟨by simpa using root, below⟩

theorem childEntries_nodup : (children : List (κ × Tree κ V)) →
    DistinctChildren children → ((childEntries children).map Prod.fst).Nodup
  | [], _ => List.nodup_nil
  | (k, t) :: children, h => by
    obtain ⟨hk, ht, hchildren⟩ := h
    have first : (((entries t).map fun e => (k :: e.1, e.2)).map Prod.fst).Nodup := by
      have keys : ((entries t).map fun e => (k :: e.1, e.2)).map Prod.fst =
          ((entries t).map Prod.fst).map (k :: ·) := by simp
      rw [keys]
      exact (entries_nodup t ht).map (List.cons_injective)
    rw [childEntries, List.map_append, List.nodup_append]
    refine ⟨first, childEntries_nodup children hchildren, fun a ha b hb same => ?_⟩
    obtain ⟨e, he, eq⟩ := List.mem_map.1 ha
    obtain ⟨below, _, eqBelow⟩ := List.mem_map.1 he
    obtain ⟨later, hlater, eqLater⟩ := List.mem_map.1 hb
    obtain ⟨j, key, split, hj⟩ := label_of_mem_childEntries hlater
    have label : k :: below.1 = j :: key := by
      rw [← split, eqLater, ← same, ← eq, ← eqBelow]
    exact hk ((List.cons.inj label).1 ▸ hj)

end

variable [DecidableEq κ]

mutual

theorem mem_entries : (t : Tree κ V) → Distinct t → (key : List κ) → (v : V) →
    ((key, v) ∈ entries t ↔ get key t = some v)
  | .node value children, h, [], v => by
    have below : ([], v) ∉ childEntries children := by
      intro mem
      obtain ⟨k, key, eq, _⟩ := label_of_mem_childEntries mem
      simp at eq
    simp [entries, get, below]
  | .node value children, h, k :: key, v => by
    have below := mem_childEntries children h k key v
    simpa [entries, get] using below

theorem mem_childEntries : (children : List (κ × Tree κ V)) → DistinctChildren children →
    (k : κ) → (key : List κ) → (v : V) →
    ((k :: key, v) ∈ childEntries children ↔ (children.lookup k).bind (get key) = some v)
  | [], _, k, key, v => by simp [childEntries]
  | (j, t) :: children, h, k, key, v => by
    obtain ⟨hj, ht, hchildren⟩ := h
    have here := mem_entries t ht key v
    have below := mem_childEntries children hchildren k key v
    rw [childEntries, List.mem_append, List.mem_map, lookup_cons_eq, below]
    by_cases same : k = j
    · have none : children.lookup k = none := lookup_absent (same ▸ hj)
      rw [if_pos same, none, Option.bind_some, ← here]
      subst same
      simp
    · rw [if_neg same]
      have apart : ¬ ∃ e ∈ entries t, (j :: e.1, e.2) = (k :: key, v) := by
        intro found
        obtain ⟨e, _, eq⟩ := found
        exact same (List.cons.inj (Prod.mk.inj eq).1).1.symm
      simp only [apart, false_or]

end

theorem mem_labels_upsert {children : List (κ × Tree κ V)} {k j : κ}
    {t : Tree κ V} (h : j ∈ (upsert children k t).map Prod.fst) :
    j = k ∨ j ∈ children.map Prod.fst := by
  induction children with
  | nil => simpa [upsert] using h
  | cons child children ih =>
    obtain ⟨i, s⟩ := child
    rw [upsert] at h
    by_cases same : i = k
    · rw [if_pos same, List.map_cons, List.mem_cons] at h
      rcases h with first | later
      · exact Or.inl first
      · exact Or.inr (List.mem_cons_of_mem i later)
    · rw [if_neg same, List.map_cons, List.mem_cons] at h
      rcases h with first | later
      · exact Or.inr (by simp [first])
      · rcases ih later with new | old
        · exact Or.inl new
        · exact Or.inr (List.mem_cons_of_mem i old)

theorem distinctChildren_upsert {children : List (κ × Tree κ V)} (k : κ)
    {t : Tree κ V} (h : DistinctChildren children) (ht : Distinct t) :
    DistinctChildren (upsert children k t) := by
  induction children with
  | nil => exact ⟨List.not_mem_nil, ht, trivial⟩
  | cons child children ih =>
    obtain ⟨i, s⟩ := child
    obtain ⟨hi, hs, hchildren⟩ := h
    rw [upsert]
    by_cases same : i = k
    · rw [if_pos same]
      exact ⟨same ▸ hi, ht, hchildren⟩
    · rw [if_neg same]
      refine ⟨fun mem => ?_, hs, ih hchildren⟩
      rcases mem_labels_upsert mem with new | old
      · exact same new
      · exact hi old

theorem distinct_childAt {children : List (κ × Tree κ V)} (h : DistinctChildren children)
    (k : κ) : Distinct (childAt children k) := by
  rw [childAt]
  induction children with
  | nil => exact distinct_empty
  | cons child children ih =>
    obtain ⟨j, t⟩ := child
    obtain ⟨_, ht, hchildren⟩ := h
    rw [lookup_cons_eq]
    by_cases same : k = j
    · rw [if_pos same]
      exact ht
    · rw [if_neg same]
      exact ih hchildren

theorem distinct_set (value : Option V) (key : List κ) {t : Tree κ V} (h : Distinct t) :
    Distinct (set value key t) := by
  induction key generalizing t with
  | nil =>
    obtain ⟨old, children⟩ := t
    exact h
  | cons k key ih =>
    obtain ⟨old, children⟩ := t
    exact distinctChildren_upsert k h (ih (distinct_childAt h k))

end RsServe.PrefixTree
