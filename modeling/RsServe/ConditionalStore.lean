import Mathlib.Data.List.Basic
import Mathlib.Logic.Function.Basic

/-! Stores of documents that clients change on conditions: a request may name the version
that it has seen, or ask that there is none. Requests are served one after the other. -/

namespace RsServe.ConditionalStore

variable {K β ν U : Type*}

inductive Request (K β ν : Type*) where
  | put (key : K) (body : β) (ifMatch : Option ν) (ifNone : Bool)
  | delete (key : K) (ifMatch : Option ν)
  | get (key : K) (ifNoneMatch : Option ν)

def Request.key : Request K β ν → K
  | .put key _ _ _ => key
  | .delete key _ => key
  | .get key _ => key

inductive Answer (β ν : Type*) where
  | created (v : ν)
  | replaced (v : ν)
  | removed (v : ν)
  | found (body : β) (v : ν)
  | notModified
  | missing
  | conflict
  /-- The other documents leave no place for one under this key. -/
  | blocked

/-- What a store goes by: the version of a body, and where documents have a place. -/
structure Rules (K β ν : Type*) where
  version : β → ν
  free : (K → Option β) → K → Prop

def Matches (found ifMatch : Option ν) : Prop := ∀ v, ifMatch = some v → found = some v

def Admits (found ifMatch : Option ν) (ifNone : Bool) : Prop :=
  Matches found ifMatch ∧ (ifNone = true → found = none)

section Serve
variable [DecidableEq K] (rules : Rules K β ν)

open Classical in
noncomputable def put (docs : K → Option β) (key : K) (body : β) (ifMatch : Option ν)
    (ifNone : Bool) : Answer β ν × (K → Option β) :=
  if ¬ rules.free docs key then (.blocked, docs)
  else if ¬ Admits ((docs key).map rules.version) ifMatch ifNone then (.conflict, docs)
  else
    (if docs key = none then .created (rules.version body) else .replaced (rules.version body),
      Function.update docs key (some body))

open Classical in
noncomputable def delete (docs : K → Option β) (key : K) (ifMatch : Option ν) :
    Answer β ν × (K → Option β) :=
  match docs key with
  | none => (.missing, docs)
  | some body =>
    if ¬ Matches (some (rules.version body)) ifMatch then (.conflict, docs)
    else (.removed (rules.version body), Function.update docs key none)

open Classical in
noncomputable def get (docs : K → Option β) (key : K) (ifNoneMatch : Option ν) : Answer β ν :=
  match docs key with
  | none => .missing
  | some body =>
    if ifNoneMatch = some (rules.version body) then .notModified else .found body (rules.version body)

noncomputable def serve (docs : K → Option β) : Request K β ν → Answer β ν × (K → Option β)
  | .put key body ifMatch ifNone => put rules docs key body ifMatch ifNone
  | .delete key ifMatch => delete rules docs key ifMatch
  | .get key ifNoneMatch => (get rules docs key ifNoneMatch, docs)

noncomputable def after (docs : K → Option β) (reqs : List (Request K β ν)) : K → Option β :=
  reqs.foldl (fun docs r => (serve rules docs r).2) docs

noncomputable def answers : (K → Option β) → List (Request K β ν) → List (Request K β ν × Answer β ν)
  | _, [] => []
  | docs, r :: reqs => (r, (serve rules docs r).1) :: answers (serve rules docs r).2 reqs

end Serve

variable [DecidableEq K] {rules : Rules K β ν} {docs docs' : K → Option β} {r : Request K β ν}

section Equations
variable {key : K} {body : β} {ifMatch : Option ν} {ifNone : Bool}

theorem put_blocked (h : ¬ rules.free docs key) :
    put rules docs key body ifMatch ifNone = (.blocked, docs) := by
  rw [put, if_pos h]

theorem put_conflict (hfree : rules.free docs key)
    (h : ¬ Admits ((docs key).map rules.version) ifMatch ifNone) :
    put rules docs key body ifMatch ifNone = (.conflict, docs) := by
  rw [put, if_neg (not_not.2 hfree), if_pos h]

theorem put_stored (hfree : rules.free docs key)
    (h : Admits ((docs key).map rules.version) ifMatch ifNone) :
    put rules docs key body ifMatch ifNone =
      (if docs key = none then .created (rules.version body) else .replaced (rules.version body),
        Function.update docs key (some body)) := by
  rw [put, if_neg (not_not.2 hfree), if_neg (not_not.2 h)]

theorem delete_missing (h : docs key = none) : delete rules docs key ifMatch = (.missing, docs) := by
  rw [delete, h]

theorem delete_conflict (hdoc : docs key = some body)
    (h : ¬ Matches (some (rules.version body)) ifMatch) :
    delete rules docs key ifMatch = (.conflict, docs) := by
  simp only [delete, hdoc, if_pos h]

theorem delete_removed (hdoc : docs key = some body)
    (h : Matches (some (rules.version body)) ifMatch) :
    delete rules docs key ifMatch =
      (.removed (rules.version body), Function.update docs key none) := by
  simp only [delete, hdoc, if_neg (not_not.2 h)]

omit [DecidableEq K] in
theorem get_missing (h : docs key = none) : get rules docs key ifMatch = .missing := by
  simp only [get, h]

omit [DecidableEq K] in
theorem get_notModified (hdoc : docs key = some body) (h : ifMatch = some (rules.version body)) :
    get rules docs key ifMatch = .notModified := by
  simp only [get, hdoc, if_pos h]

omit [DecidableEq K] in
theorem get_found (hdoc : docs key = some body) (h : ifMatch ≠ some (rules.version body)) :
    get rules docs key ifMatch = .found body (rules.version body) := by
  simp only [get, hdoc, if_neg h]

end Equations

theorem put_cases (rules : Rules K β ν) (docs : K → Option β) (key : K) (body : β)
    (ifMatch : Option ν) (ifNone : Bool) :
    (¬ rules.free docs key ∧ put rules docs key body ifMatch ifNone = (.blocked, docs)) ∨
    (rules.free docs key ∧ ¬ Admits ((docs key).map rules.version) ifMatch ifNone ∧
      put rules docs key body ifMatch ifNone = (.conflict, docs)) ∨
    (rules.free docs key ∧ Admits ((docs key).map rules.version) ifMatch ifNone ∧
      put rules docs key body ifMatch ifNone =
        (if docs key = none then .created (rules.version body) else .replaced (rules.version body),
          Function.update docs key (some body))) := by
  by_cases hfree : rules.free docs key
  · refine Or.inr ?_
    by_cases h : Admits ((docs key).map rules.version) ifMatch ifNone
    · exact Or.inr ⟨hfree, h, put_stored hfree h⟩
    · exact Or.inl ⟨hfree, h, put_conflict hfree h⟩
  · exact Or.inl ⟨hfree, put_blocked hfree⟩

theorem delete_cases (rules : Rules K β ν) (docs : K → Option β) (key : K) (ifMatch : Option ν) :
    (docs key = none ∧ delete rules docs key ifMatch = (.missing, docs)) ∨
    ∃ body, docs key = some body ∧
      ((¬ Matches (some (rules.version body)) ifMatch ∧
          delete rules docs key ifMatch = (.conflict, docs)) ∨
        (Matches (some (rules.version body)) ifMatch ∧
          delete rules docs key ifMatch =
            (.removed (rules.version body), Function.update docs key none))) := by
  cases hdoc : docs key with
  | none => exact Or.inl ⟨rfl, delete_missing hdoc⟩
  | some body =>
    refine Or.inr ⟨body, rfl, ?_⟩
    by_cases h : Matches (some (rules.version body)) ifMatch
    · exact Or.inr ⟨h, delete_removed hdoc h⟩
    · exact Or.inl ⟨h, delete_conflict hdoc h⟩

theorem serve_other {key : K} (h : key ≠ r.key) : (serve rules docs r).2 key = docs key := by
  cases r with
  | put k body ifMatch ifNone =>
    have apart : key ≠ k := h
    rw [serve]
    rcases put_cases rules docs k body ifMatch ifNone with
      ⟨-, hrun⟩ | ⟨-, -, hrun⟩ | ⟨-, -, hrun⟩
    · rw [hrun]
    · rw [hrun]
    · rw [hrun]
      exact Function.update_of_ne apart _ _
  | delete k ifMatch =>
    have apart : key ≠ k := h
    rw [serve]
    rcases delete_cases rules docs k ifMatch with ⟨-, hrun⟩ | ⟨body, -, ⟨-, hrun⟩ | ⟨-, hrun⟩⟩
    · rw [hrun]
    · rw [hrun]
    · rw [hrun]
      exact Function.update_of_ne apart _ _
  | get k ifNoneMatch => rfl

@[simp] theorem after_nil (docs : K → Option β) : after rules docs [] = docs := rfl

theorem after_cons (docs : K → Option β) (r : Request K β ν) (reqs : List (Request K β ν)) :
    after rules docs (r :: reqs) = after rules (serve rules docs r).2 reqs := rfl

theorem after_append (docs : K → Option β) (reqs reqs' : List (Request K β ν)) :
    after rules docs (reqs ++ reqs') = after rules (after rules docs reqs) reqs' :=
  List.foldl_append

theorem key_of_after (reqs : List (Request K β ν)) {key : K} (h : after rules docs reqs key ≠ none) :
    docs key ≠ none ∨ ∃ r ∈ reqs, r.key = key := by
  induction reqs generalizing docs with
  | nil => exact Or.inl h
  | cons r reqs ih =>
    by_cases hr : r.key = key
    · exact Or.inr ⟨r, List.mem_cons_self, hr⟩
    · rw [after_cons] at h
      rcases ih h with there | ⟨r', hr', hkey⟩
      · rw [serve_other (Ne.symm hr)] at there
        exact Or.inl there
      · exact Or.inr ⟨r', List.mem_cons_of_mem r hr', hkey⟩

section Owners
variable (owner : K → U)

variable {owner}

variable [DecidableEq U]

def own (owner : K → U) (u : U) (reqs : List (Request K β ν)) : List (Request K β ν) :=
  reqs.filter fun r => owner r.key = u

end Owners

section Each
variable [DecidableEq U]

def Request.of (u : U) : Request K β ν → Request (U × K) β ν
  | .put key body ifMatch ifNone => .put (u, key) body ifMatch ifNone
  | .delete key ifMatch => .delete (u, key) ifMatch
  | .get key ifNoneMatch => .get (u, key) ifNoneMatch

def Rules.each (U : Type*) (rules : Rules K β ν) : Rules (U × K) β ν where
  version := rules.version
  free docs key := rules.free (fun k => docs (key.1, k)) key.2

theorem update_slice (docs : U × K → Option β) (u v : U) (key : K) (new : Option β) :
    (fun k => Function.update docs (u, key) new (v, k)) =
      if v = u then Function.update (fun k => docs (u, k)) key new else fun k => docs (v, k) := by
  funext k
  by_cases hv : v = u
  · subst hv
    rw [if_pos rfl]
    by_cases hk : k = key
    · rw [hk, Function.update_self, Function.update_self]
    · rw [Function.update_of_ne hk, Function.update_of_ne (by simp [hk])]
  · rw [if_neg hv, Function.update_of_ne (by simp [hv])]

omit [DecidableEq K] in
theorem slice_same (docs : U × K → Option β) (u v : U) :
    (fun k => docs (v, k)) = if v = u then fun k => docs (u, k) else fun k => docs (v, k) := by
  by_cases hv : v = u
  · rw [if_pos hv, hv]
  · rw [if_neg hv]

theorem serve_of (rules : Rules K β ν) (docs : U × K → Option β) (u : U) (r : Request K β ν) :
    (serve (rules.each U) docs (r.of u)).1 = (serve rules (fun k => docs (u, k)) r).1 ∧
      ∀ v, (fun k => (serve (rules.each U) docs (r.of u)).2 (v, k)) =
        if v = u then (serve rules (fun k => docs (u, k)) r).2 else fun k => docs (v, k) := by
  cases r with
  | put key body ifMatch ifNone =>
    have free : (rules.each U).free docs (u, key) ↔ rules.free (fun k => docs (u, k)) key := Iff.rfl
    rw [Request.of, serve, serve]
    by_cases hfree : rules.free (fun k => docs (u, k)) key
    · by_cases hadmits : Admits ((docs (u, key)).map rules.version) ifMatch ifNone
      · rw [put_stored (free.2 hfree) hadmits, put_stored hfree hadmits]
        exact ⟨rfl, fun v => update_slice docs u v key (some body)⟩
      · rw [put_conflict (free.2 hfree) hadmits, put_conflict hfree hadmits]
        exact ⟨rfl, fun v => slice_same docs u v⟩
    · rw [put_blocked fun there => hfree (free.1 there), put_blocked hfree]
      exact ⟨rfl, fun v => slice_same docs u v⟩
  | delete key ifMatch =>
    rw [Request.of, serve, serve]
    rcases delete_cases rules (fun k => docs (u, k)) key ifMatch with
      ⟨hdoc, hrun⟩ | ⟨body, hdoc, ⟨hmatch, hrun⟩ | ⟨hmatch, hrun⟩⟩
    · rw [hrun, delete_missing hdoc]
      exact ⟨rfl, fun v => slice_same docs u v⟩
    · have refused : delete (rules.each U) docs (u, key) ifMatch = (.conflict, docs) :=
        delete_conflict hdoc hmatch
      rw [hrun, refused]
      exact ⟨rfl, fun v => slice_same docs u v⟩
    · have removed : delete (rules.each U) docs (u, key) ifMatch =
        (.removed (rules.version body), Function.update docs (u, key) none) :=
        delete_removed hdoc hmatch
      rw [hrun, removed]
      exact ⟨rfl, fun v => update_slice docs u v key none⟩
  | get key ifNoneMatch => exact ⟨rfl, fun v => slice_same docs u v⟩

end Each

end RsServe.ConditionalStore
