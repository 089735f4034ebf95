import Mathlib.Data.List.Basic
import Mathlib.Data.List.Infix

/-! Lexical resolution of component lists: one component means "here", one means
"one level up", every other one goes one level down. -/

namespace RsServe.LexicalPath

variable {γ : Type*} [DecidableEq γ] (here up : γ)

/-- The open levels are kept innermost first; going up from the top stays there. -/
def enter (levels : List γ) (c : γ) : List γ :=
  if c = here then levels else if c = up then levels.tail else c :: levels

def resolve (cs : List γ) : List γ := (cs.foldl (enter here up) []).reverse

def staysBelow : Nat → List γ → Bool
  | _, [] => true
  | depth, c :: cs =>
    if c = here then staysBelow depth cs
    else if c = up then 0 < depth && staysBelow (depth - 1) cs
    else staysBelow (depth + 1) cs

variable {here up}

theorem foldl_enter_of_staysBelow {cs : List γ} (above base : List γ)
    (h : staysBelow here up above.length cs) :
    ∃ levels, cs.foldl (enter here up) (above ++ base) = levels ++ base := by
  induction cs generalizing above with
  | nil => exact ⟨above, rfl⟩
  | cons c cs ih =>
    rw [List.foldl_cons, enter]
    rw [staysBelow] at h
    by_cases hc : c = here
    · rw [if_pos hc] at h ⊢
      exact ih above h
    by_cases hu : c = up
    · rw [if_neg hc, if_pos hu] at h ⊢
      obtain ⟨hpos, h⟩ : 0 < above.length ∧ staysBelow here up (above.length - 1) cs := by
        simpa using h
      obtain ⟨a, above, rfl⟩ := List.exists_cons_of_length_pos hpos
      exact ih above h
    · rw [if_neg hc, if_neg hu] at h ⊢
      exact ih (c :: above) h

theorem resolve_prefix_of_staysBelow {dir rel : List γ} (h : staysBelow here up 0 rel) :
    resolve here up dir <+: resolve here up (dir ++ rel) := by
  obtain ⟨levels, hlevels⟩ := foldl_enter_of_staysBelow []
    (dir.foldl (enter here up) []) h
  refine ⟨levels.reverse, ?_⟩
  rw [resolve, resolve, List.foldl_append]
  rw [List.nil_append] at hlevels
  rw [hlevels, List.reverse_append]

theorem staysBelow_of_not_mem {cs : List γ} (depth : Nat) (h : up ∉ cs) :
    staysBelow here up depth cs := by
  induction cs generalizing depth with
  | nil => rfl
  | cons c cs ih =>
    have hc : c ≠ up := fun same => h (by simp [same])
    have hcs : up ∉ cs := fun mem => h (by simp [mem])
    rw [staysBelow, if_neg hc]
    by_cases hhere : c = here
    · rw [if_pos hhere]
      exact ih depth hcs
    · rw [if_neg hhere]
      exact ih (depth + 1) hcs

theorem resolve_append {rel : List γ} (h : up ∉ rel) (dir : List γ) :
    resolve here up (dir ++ rel) = resolve here up dir ++ rel.filter (· ≠ here) := by
  have run : ∀ levels, rel.foldl (enter here up) levels =
      (rel.filter (· ≠ here)).reverse ++ levels := by
    induction rel with
    | nil => intro levels; rfl
    | cons c cs ih =>
      intro levels
      have hc : c ≠ up := fun same => h (by simp [same])
      have hcs : up ∉ cs := fun mem => h (by simp [mem])
      rw [List.foldl_cons, enter, ih hcs]
      by_cases hhere : c = here
      · simp [hhere]
      · simp [hhere, hc]
  rw [resolve, resolve, List.foldl_append, run, List.reverse_append, List.reverse_reverse]

end RsServe.LexicalPath
