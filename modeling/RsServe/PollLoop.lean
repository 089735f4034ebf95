import Mathlib.Logic.Basic

/-! Loops that ask for a result again and again until one of them ends the loop. What is
asked gives a sequence of results; the body may fail on one. -/

namespace RsServe.PollLoop

variable {ρ σ : Type*}

inductive Outcome (σ : Type*) where
  | done (s : σ)
  | stuck
  | running

section
variable (body : σ → ρ → Option σ) (exit : ρ → Bool) (results : Nat → ρ)

/-- From one call on, with fuel for so many of them. -/
def poll : (fuel call : Nat) → σ → Outcome σ
  | 0, _, _ => .running
  | fuel + 1, call, s =>
    if exit (results call) then .done s
    else match body s (results call) with
      | some s => poll fuel (call + 1) s
      | none => .stuck

def Keeps (I : Nat → σ → Prop) : Prop :=
  ∀ call s, I call s → exit (results call) = false →
    ∃ s', body s (results call) = some s' ∧ I (call + 1) s'

end

variable {body : σ → ρ → Option σ} {exit : ρ → Bool} {results : Nat → ρ}

theorem poll_exit {call : Nat} (h : exit (results call) = true) (fuel : Nat) (s : σ) :
    poll body exit results (fuel + 1) call s = .done s := by
  rw [poll, if_pos h]

theorem poll_next {call : Nat} {s s' : σ} (h : exit (results call) = false)
    (hs : body s (results call) = some s') (fuel : Nat) :
    poll body exit results (fuel + 1) call s = poll body exit results fuel (call + 1) s' := by
  simp only [poll, h, hs, Bool.false_eq_true, if_false]

theorem poll_done {fuel call : Nat} {s last : σ}
    (h : poll body exit results fuel call s = .done last) :
    ∃ k, call ≤ k ∧ exit (results k) = true ∧
      ∀ j, call ≤ j → j < k → exit (results j) = false ∧ ∃ t, (body t (results j)).isSome := by
  induction fuel generalizing call s with
  | zero => simp [poll] at h
  | succ fuel ih =>
    cases hexit : exit (results call) with
    | true => exact ⟨call, Nat.le_refl call, hexit, fun j hj hlt => by omega⟩
    | false =>
      cases hbody : body s (results call) with
      | none => simp [poll, hexit, hbody] at h
      | some s' =>
        rw [poll_next hexit hbody] at h
        obtain ⟨k, hk, hend, before⟩ := ih h
        refine ⟨k, by omega, hend, fun j hj hlt => ?_⟩
        rcases Nat.eq_or_lt_of_le hj with rfl | hj
        · exact ⟨hexit, s, by simp [hbody]⟩
        · exact before j hj hlt

theorem poll_keeps {I : Nat → σ → Prop} (keeps : Keeps body exit results I)
    {fuel call : Nat} {s last : σ} (hs : I call s)
    (h : poll body exit results fuel call s = .done last) :
    ∃ k, exit (results k) = true ∧ I k last := by
  induction fuel generalizing call s with
  | zero => simp [poll] at h
  | succ fuel ih =>
    cases hexit : exit (results call) with
    | true =>
      rw [poll_exit hexit, Outcome.done.injEq] at h
      exact ⟨call, hexit, h ▸ hs⟩
    | false =>
      obtain ⟨s', hbody, hs'⟩ := keeps call s hs hexit
      rw [poll_next hexit hbody] at h
      exact ih hs' h

theorem poll_reaches {I : Nat → σ → Prop} (keeps : Keeps body exit results I) {call k : Nat}
    (hk : call ≤ k) (hend : exit (results k) = true) {s : σ} (hs : I call s) :
    ∃ fuel last, poll body exit results fuel call s = .done last := by
  induction hn : k - call generalizing call s with
  | zero =>
    have same : call = k := by omega
    exact ⟨1, s, poll_exit (same ▸ hend) 0 s⟩
  | succ n ih =>
    cases hexit : exit (results call) with
    | true => exact ⟨1, s, poll_exit hexit 0 s⟩
    | false =>
      obtain ⟨s', hbody, hs'⟩ := keeps call s hs hexit
      obtain ⟨fuel, last, hrest⟩ := ih (show call + 1 ≤ k by omega) hs' (by omega)
      exact ⟨fuel + 1, last, by rw [poll_next hexit hbody, hrest]⟩

end RsServe.PollLoop
