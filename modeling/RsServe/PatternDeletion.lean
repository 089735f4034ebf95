import Mathlib.Data.List.Basic
import Mathlib.Data.List.Infix

/-! Deleting a fixed pattern from a word, leftmost occurrence first, until none
is left. The loop starts over from the beginning after every deletion; it is
identified here with one left-to-right pass over an explicit stack. -/

namespace RsServe.PatternDeletion

variable {α : Type*} [DecidableEq α]

def firstAt (pat : List α) : List α → Option Nat
  | [] => if pat = [] then some 0 else none
  | c :: w => if pat <+: c :: w then some 0 else (firstAt pat w).map (· + 1)

def deleteLoop (pat : List α) : Nat → List α → List α
  | 0, w => w
  | fuel + 1, w =>
    match firstAt pat w with
    | none => w
    | some i => deleteLoop pat fuel (w.take i ++ w.drop (i + pat.length))

/-- Each round shortens the word, so its length bounds the number of rounds. -/
def deleteAll (pat w : List α) : List α := deleteLoop pat w.length w

theorem firstAt_eq_none {pat w : List α} : firstAt pat w = none ↔ ¬ pat <:+: w := by
  induction w with
  | nil => by_cases h : pat = [] <;> simp [firstAt, h]
  | cons c w ih =>
    by_cases h : pat <+: c :: w
    · simp [firstAt, h, h.isInfix]
    · simp [firstAt, h, ih, List.infix_cons_iff]

theorem firstAt_eq_some {pat w : List α} {i : Nat} (h : firstAt pat w = some i) :
    w = w.take i ++ pat ++ w.drop (i + pat.length) ∧
      ∀ j < i, ¬ pat <+: w.drop j := by
  induction w generalizing i with
  | nil =>
    by_cases hp : pat = []
    · obtain rfl : 0 = i := by simpa [firstAt, hp] using h
      simp [hp]
    · simp [firstAt, hp] at h
  | cons c w ih =>
    by_cases hp : pat <+: c :: w
    · obtain rfl : 0 = i := by simpa [firstAt, hp] using h
      obtain ⟨rest, hrest⟩ := hp
      refine ⟨?_, fun j hj => absurd hj (Nat.not_lt_zero j)⟩
      simp [← hrest]
    · obtain ⟨k, hk, rfl⟩ : ∃ k, firstAt pat w = some k ∧ k + 1 = i := by
        simpa [firstAt, hp] using h
      obtain ⟨split, first⟩ := ih hk
      refine ⟨?_, fun j hj => ?_⟩
      · rw [show k + 1 + pat.length = (k + pat.length) + 1 by omega]
        simpa using split
      · cases j with
        | zero => exact hp
        | succ j => simpa using first j (by omega)

theorem not_infix_before {pat w : List α} {i : Nat} (hp : pat ≠ [])
    (h : firstAt pat w = some i) : ¬ pat <:+: w.take i ++ pat.dropLast := by
  obtain ⟨split, first⟩ := firstAt_eq_some h
  rintro ⟨u, v, huv⟩
  have hlen := congrArg List.length huv
  simp only [List.length_append, List.length_dropLast] at hlen
  have hpos : 0 < pat.length := List.length_pos_iff.mpr hp
  have hi : (w.take i).length ≤ i := List.length_take_le i w
  refine first u.length (by omega) ⟨v ++ [pat.getLast hp] ++ w.drop (i + pat.length), ?_⟩
  have hw : w = u ++ (pat ++ (v ++ [pat.getLast hp] ++ w.drop (i + pat.length))) := by
    conv_lhs => rw [split]
    rw [← List.append_assoc u, ← List.append_assoc (u ++ pat), ← List.append_assoc (u ++ pat),
      huv, List.append_assoc (w.take i) pat.dropLast, List.dropLast_append_getLast hp]
  conv_rhs => rw [hw, List.drop_left]

/-- One letter onto the stack, whose top is its head; a completed pattern is dropped. -/
def push (pat stack : List α) (c : α) : List α :=
  if pat.reverse <+: c :: stack then (c :: stack).drop pat.length else c :: stack

def pass (pat stack w : List α) : List α := w.foldl (push pat) stack

@[simp] theorem pass_nil (pat stack : List α) : pass pat stack [] = stack := rfl

@[simp] theorem pass_cons (pat stack : List α) (c : α) (w : List α) :
    pass pat stack (c :: w) = pass pat (push pat stack c) w := rfl

theorem pass_append (pat stack u v : List α) :
    pass pat stack (u ++ v) = pass pat (pass pat stack u) v := by
  simp [pass]

theorem pass_of_absent {pat stack w : List α} (h : ¬ pat <:+: stack.reverse ++ w) :
    pass pat stack w = w.reverse ++ stack := by
  induction w generalizing stack with
  | nil => rfl
  | cons c w ih =>
    have hpush : push pat stack c = c :: stack := by
      refine if_neg fun hc => h ?_
      obtain ⟨t, ht⟩ := hc
      refine ⟨t.reverse, w, ?_⟩
      have := congrArg List.reverse ht
      simp only [List.reverse_append, List.reverse_reverse, List.reverse_cons] at this
      rw [this]
      simp
    rw [pass_cons, hpush, ih (by simpa using h)]
    simp

theorem pass_of_clean {pat w : List α} (h : ¬ pat <:+: w) : pass pat [] w = w.reverse := by
  have moved : pass pat [] w = w.reverse ++ [] := pass_of_absent (by simpa using h)
  rw [moved, List.append_nil]

theorem pass_occurrence {pat u : List α} (hp : pat ≠ [])
    (h : ¬ pat <:+: u ++ pat.dropLast) : pass pat [] (u ++ pat) = u.reverse := by
  have hpat : u ++ pat = (u ++ pat.dropLast) ++ [pat.getLast hp] := by
    rw [List.append_assoc, List.dropLast_append_getLast hp]
  have hstack : pat.getLast hp :: (u ++ pat.dropLast).reverse = pat.reverse ++ u.reverse := by
    have := congrArg List.reverse hpat
    simpa using this.symm
  rw [hpat, pass_append, pass_of_clean h, pass_cons, pass_nil, push, hstack,
    if_pos (List.prefix_append _ _)]
  exact List.drop_left' (by simp)

theorem pass_deleteFirst {pat w : List α} {i : Nat} (hp : pat ≠ [])
    (h : firstAt pat w = some i) :
    pass pat [] (w.take i ++ w.drop (i + pat.length)) = pass pat [] w := by
  have before := not_infix_before hp h
  obtain ⟨split, -⟩ := firstAt_eq_some h
  conv_rhs => rw [split, pass_append, pass_occurrence hp before]
  rw [pass_append, pass_of_clean fun hinf => before (List.infix_append_of_infix_left hinf)]

theorem deleteLoop_eq_pass {pat : List α} (hp : pat ≠ []) (fuel : Nat) (w : List α)
    (h : w.length ≤ fuel) : deleteLoop pat fuel w = (pass pat [] w).reverse := by
  induction fuel generalizing w with
  | zero =>
    obtain rfl : w = [] := List.length_eq_zero_iff.mp (by omega)
    rfl
  | succ fuel ih =>
    rw [deleteLoop]
    cases hfirst : firstAt pat w with
    | none =>
      rw [pass_of_clean (firstAt_eq_none.mp hfirst), List.reverse_reverse]
    | some i =>
      have hpos : 0 < pat.length := List.length_pos_iff.mpr hp
      have hlen := congrArg List.length (firstAt_eq_some hfirst).1
      simp only [List.length_append] at hlen
      rw [← pass_deleteFirst hp hfirst]
      exact ih _ (by simp only [List.length_append]; omega)

/-- Leftmost deletion with restarts is one pass over a stack. -/
theorem deleteAll_eq_pass {pat : List α} (hp : pat ≠ []) (w : List α) :
    deleteAll pat w = (pass pat [] w).reverse :=
  deleteLoop_eq_pass hp w.length w le_rfl

theorem deleteAll_of_not_infix {pat w : List α} (hp : pat ≠ []) (h : ¬ pat <:+: w) :
    deleteAll pat w = w := by
  rw [deleteAll_eq_pass hp, pass_of_clean h, List.reverse_reverse]

theorem length_deleteLoop_le (pat : List α) (fuel : Nat) (w : List α) :
    (deleteLoop pat fuel w).length ≤ w.length := by
  induction fuel generalizing w with
  | zero => exact Nat.le_refl _
  | succ fuel ih =>
    rw [deleteLoop]
    cases firstAt pat w with
    | none => exact Nat.le_refl _
    | some i =>
      have rest := ih (w.take i ++ w.drop (i + pat.length))
      simp only [List.length_append, List.length_take, List.length_drop] at rest ⊢
      omega

theorem length_deleteAll_lt {pat w : List α} (hp : pat ≠ []) (h : pat <:+: w) :
    (deleteAll pat w).length < w.length := by
  cases hfirst : firstAt pat w with
  | none => exact absurd h (firstAt_eq_none.1 hfirst)
  | some i =>
    have split := congrArg List.length (firstAt_eq_some hfirst).1
    have long := List.length_pos_iff.2 hp
    have positive : w.length = (w.length - 1) + 1 := by
      simp only [List.length_append, List.length_take, List.length_drop] at split
      omega
    have shorter := length_deleteLoop_le pat (w.length - 1) (w.take i ++ w.drop (i + pat.length))
    rw [deleteAll, positive, deleteLoop, hfirst]
    simp only [List.length_append, List.length_take, List.length_drop] at split shorter ⊢
    omega

end RsServe.PatternDeletion
