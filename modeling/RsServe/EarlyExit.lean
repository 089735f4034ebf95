import Mathlib.Data.List.Basic

/-! Programs over a state that can return early, or crash: a monad, its calls, and
triples with one postcondition for each of the three ways to end. -/

namespace RsServe.EarlyExit

inductive Outcome (σ ε α : Type) where
  | next (a : α) (s : σ)
  | stop (e : ε) (s : σ)
  | crash (s : σ)

variable {σ ε ε' α β : Type}

def Outcome.state : Outcome σ ε α → σ
  | .next _ s => s
  | .stop _ s => s
  | .crash s => s

def Outcome.result? : Outcome σ ε ε → Option ε
  | .next e _ => some e
  | .stop e _ => some e
  | .crash _ => none

def Outcome.Crashed : Outcome σ ε α → Prop
  | .crash _ => True
  | _ => False

instance (o : Outcome σ ε α) : Decidable o.Crashed :=
  match o with
  | .next _ _ => .isFalse id
  | .stop _ _ => .isFalse id
  | .crash _ => .isTrue trivial

def Prog (σ ε α : Type) := σ → Outcome σ ε α

def Prog.bind (p : Prog σ ε α) (f : α → Prog σ ε β) : Prog σ ε β := fun s =>
  match p s with
  | .next a s' => f a s'
  | .stop e s' => .stop e s'
  | .crash s' => .crash s'

instance : Monad (Prog σ ε) where
  pure a := fun s => .next a s
  bind := Prog.bind

def read (f : σ → α) : Prog σ ε α := fun s => .next (f s) s

def update (f : σ → σ) : Prog σ ε Unit := fun s => .next () (f s)

def stop (e : ε) : Prog σ ε α := fun s => .stop e s

def crash : Prog σ ε α := fun s => .crash s

/-- What `f` finds; where it fails, `e` is returned after some cleaning up. -/
def attempt {δ : Type} (e : ε) (f : σ → Except δ α) (cleanup : σ → σ := id) : Prog σ ε α :=
  fun s =>
    match f s with
    | .ok a => .next a s
    | .error _ => .stop e (cleanup s)

def orStop (e : ε) (o : Option α) (cleanup : σ → σ := id) : Prog σ ε α := fun s =>
  match o with
  | some a => .next a s
  | none => .stop e (cleanup s)

/-- The value behind a pointer; a null pointer crashes. -/
def deref : Option α → Prog σ ε α
  | some a => pure a
  | none => crash

/-- The function's result, wherever it returned. -/
def call (p : Prog σ ε ε) : Prog σ ε' ε := fun s =>
  match p s with
  | .next e s' => .next e s'
  | .stop e s' => .next e s'
  | .crash s' => .crash s'

@[simp] theorem pure_apply (a : α) (s : σ) : (pure a : Prog σ ε α) s = .next a s := rfl

theorem bind_apply (p : Prog σ ε α) (f : α → Prog σ ε β) (s : σ) :
    (p >>= f) s = match p s with
      | .next a s' => f a s'
      | .stop e s' => .stop e s'
      | .crash s' => .crash s' := rfl

@[simp] theorem read_bind (g : σ → α) (f : α → Prog σ ε β) (s : σ) :
    (read g >>= f) s = f (g s) s := rfl

@[simp] theorem update_bind (g : σ → σ) (f : Unit → Prog σ ε β) (s : σ) :
    (update g >>= f) s = f () (g s) := rfl

@[simp] theorem pure_bind_apply (a : α) (f : α → Prog σ ε β) (s : σ) :
    ((pure a : Prog σ ε α) >>= f) s = f a s := rfl

@[simp] theorem stop_bind (e : ε) (f : α → Prog σ ε β) (s : σ) :
    ((stop e : Prog σ ε α) >>= f) s = .stop e s := rfl

@[simp] theorem stop_apply (e : ε) (s : σ) : (stop e : Prog σ ε α) s = .stop e s := rfl

@[simp] theorem crash_apply (s : σ) : (crash : Prog σ ε α) s = .crash s := rfl

theorem attempt_bind {δ : Type} (e : ε) (g : σ → Except δ α) (cleanup : σ → σ)
    (f : α → Prog σ ε β) (s : σ) :
    (attempt e g cleanup >>= f) s = match g s with
      | .ok a => f a s
      | .error _ => .stop e (cleanup s) := by
  rw [bind_apply, attempt]
  cases g s <;> rfl

theorem bind_of_next {p : Prog σ ε α} {f : α → Prog σ ε β} {s s' : σ} {a : α}
    (h : p s = .next a s') : (p >>= f) s = f a s' := by
  rw [bind_apply, h]

theorem bind_of_stop {p : Prog σ ε α} {f : α → Prog σ ε β} {s s' : σ} {e : ε}
    (h : p s = .stop e s') : (p >>= f) s = .stop e s' := by
  rw [bind_apply, h]

theorem result?_of_crashed {o : Outcome σ ε ε} (h : o.Crashed) : o.result? = none := by
  cases o with
  | next e s => exact absurd h id
  | stop e s => exact absurd h id
  | crash s => rfl

theorem bind_bind {γ : Type} (p : Prog σ ε α) (f : α → Prog σ ε β) (g : β → Prog σ ε γ) :
    (p >>= f) >>= g = p >>= fun a => f a >>= g := by
  funext s
  rw [bind_apply, bind_apply, bind_apply]
  cases p s <;> rfl

theorem call_of_next {p : Prog σ ε ε} {s s' : σ} {e : ε} (h : p s = .next e s') :
    (call p : Prog σ ε' ε) s = .next e s' := by
  rw [call, h]

theorem call_of_stop {p : Prog σ ε ε} {s s' : σ} {e : ε} (h : p s = .stop e s') :
    (call p : Prog σ ε' ε) s = .next e s' := by
  rw [call, h]

theorem crashed_bind {p : Prog σ ε α} {s : σ} (h : (p s).Crashed) (f : α → Prog σ ε β) :
    ((p >>= f) s).Crashed := by
  rw [bind_apply]
  cases hrun : p s with
  | next a s' => simp [hrun, Outcome.Crashed] at h
  | stop e s' => simp [hrun, Outcome.Crashed] at h
  | crash s' => trivial

theorem crashed_call_iff {p : Prog σ ε ε} {s : σ} :
    ((call p : Prog σ ε' ε) s).Crashed ↔ (p s).Crashed := by
  unfold call
  cases p s <;> rfl

variable {P : σ → Prop} {Q : α → σ → Prop} {R : ε → σ → Prop} {C : σ → Prop}

/-- From `P` the program goes on with `Q`, returns early with `R` or crashes with `C`. -/
def Triple (P : σ → Prop) (p : Prog σ ε α) (Q : α → σ → Prop) (R : ε → σ → Prop)
    (C : σ → Prop) : Prop :=
  ∀ s, P s → match p s with
    | .next a s' => Q a s'
    | .stop e s' => R e s'
    | .crash s' => C s'

theorem triple_pure {a : α} (h : ∀ s, P s → Q a s) :
    Triple P (pure a : Prog σ ε α) Q R C := fun s hs => h s hs

theorem triple_read {f : σ → α} (h : ∀ s, P s → Q (f s) s) :
    Triple P (read f : Prog σ ε α) Q R C := fun s hs => h s hs

theorem triple_update {f : σ → σ} {Q : Unit → σ → Prop} (h : ∀ s, P s → Q () (f s)) :
    Triple P (update f : Prog σ ε Unit) Q R C := fun s hs => h s hs

theorem triple_stop {e : ε} (h : ∀ s, P s → R e s) :
    Triple P (stop e : Prog σ ε α) Q R C := fun s hs => h s hs

theorem triple_crash (h : ∀ s, P s → C s) :
    Triple P (crash : Prog σ ε α) Q R C := fun s hs => h s hs

theorem triple_attempt {δ : Type} {e : ε} {f : σ → Except δ α} {cleanup : σ → σ}
    (hok : ∀ s a, P s → f s = .ok a → Q a s)
    (herror : ∀ s d, P s → f s = .error d → R e (cleanup s)) :
    Triple P (attempt e f cleanup) Q R C := by
  intro s hs
  rw [attempt]
  cases hf : f s with
  | ok a => exact hok s a hs hf
  | error d => exact herror s d hs hf

theorem triple_orStop {e : ε} {o : Option α} {cleanup : σ → σ}
    (hsome : ∀ s a, P s → o = some a → Q a s) (hnone : ∀ s, P s → o = none → R e (cleanup s)) :
    Triple P (orStop e o cleanup) Q R C := by
  intro s hs
  cases o with
  | some a => exact hsome s a hs rfl
  | none => exact hnone s hs rfl

theorem triple_deref {o : Option α} (hsome : ∀ s a, P s → o = some a → Q a s)
    (hnone : ∀ s, P s → o = none → C s) : Triple P (deref o : Prog σ ε α) Q R C := by
  intro s hs
  cases o with
  | some a => exact hsome s a hs rfl
  | none => exact hnone s hs rfl

theorem triple_bind {p : Prog σ ε α} {f : α → Prog σ ε β} {M : α → σ → Prop}
    {Q : β → σ → Prop} (hp : Triple P p M R C) (hf : ∀ a, Triple (M a) (f a) Q R C) :
    Triple P (p >>= f) Q R C := by
  intro s hs
  have first := hp s hs
  rw [bind_apply]
  cases hrun : p s with
  | next a s' =>
    rw [hrun] at first
    exact hf a s' first
  | stop e s' =>
    rw [hrun] at first
    exact first
  | crash s' =>
    rw [hrun] at first
    exact first

theorem triple_seq {p : Prog σ ε α} {f : α → Prog σ ε β} {Q : β → σ → Prop}
    (hp : Triple P p (fun _ => P) R C) (hf : ∀ a, Triple P (f a) Q R C) :
    Triple P (p >>= f) Q R C := triple_bind hp hf

theorem triple_read_bind {g : σ → α} {f : α → Prog σ ε β} {Q : β → σ → Prop}
    (hf : ∀ a, Triple (fun s => P s ∧ g s = a) (f a) Q R C) :
    Triple P (read g >>= f) Q R C :=
  triple_bind (triple_read fun _ hs => ⟨hs, rfl⟩) hf

theorem triple_attempt_bind {δ : Type} {e : ε} {g : σ → Except δ α} {cleanup : σ → σ}
    {f : α → Prog σ ε β} {Q : β → σ → Prop}
    (hf : ∀ a, Triple (fun s => P s ∧ g s = .ok a) (f a) Q R C)
    (herror : ∀ s d, P s → g s = .error d → R e (cleanup s)) :
    Triple P (attempt e g cleanup >>= f) Q R C :=
  triple_bind (triple_attempt (fun _ _ hs hg => ⟨hs, hg⟩) herror) hf

theorem triple_of_fact {c : Prop} {p : Prog σ ε α} (h : c → Triple P p Q R C) :
    Triple (fun s => P s ∧ c) p Q R C := fun s hs => h hs.2 s hs.1

theorem triple_ite {c : Prop} [Decidable c] {p q : Prog σ ε α}
    (hp : c → Triple P p Q R C) (hq : ¬ c → Triple P q Q R C) :
    Triple P (if c then p else q) Q R C := by
  by_cases h : c
  · rw [if_pos h]
    exact hp h
  · rw [if_neg h]
    exact hq h

theorem triple_call {p : Prog σ ε ε} {Q : ε → σ → Prop} {R : ε' → σ → Prop}
    (h : Triple P p Q Q C) : Triple P (call p : Prog σ ε' ε) Q R C := by
  intro s hs
  have inner := h s hs
  unfold call
  cases hrun : p s <;> simpa [hrun] using inner

theorem Triple.mono {p : Prog σ ε α} {P' : σ → Prop} {Q' : α → σ → Prop} {R' : ε → σ → Prop}
    {C' : σ → Prop} (h : Triple P p Q R C) (hP : ∀ s, P' s → P s)
    (hQ : ∀ a s, Q a s → Q' a s) (hR : ∀ e s, R e s → R' e s) (hC : ∀ s, C s → C' s) :
    Triple P' p Q' R' C' := by
  intro s hs
  have run := h s (hP s hs)
  cases hrun : p s with
  | next a s' =>
    rw [hrun] at run
    exact hQ a s' run
  | stop e s' =>
    rw [hrun] at run
    exact hR e s' run
  | crash s' =>
    rw [hrun] at run
    exact hC s' run

theorem Triple.not_crashed {p : Prog σ ε α} {s : σ} (h : Triple P p Q R fun _ => False)
    (hs : P s) : ¬ (p s).Crashed := by
  have run := h s hs
  cases hrun : p s with
  | next a s' => exact id
  | stop e s' => exact id
  | crash s' =>
    rw [hrun] at run
    exact fun _ => run

abbrev Preserves (I : σ → Prop) (p : Prog σ ε α) : Prop :=
  Triple I p (fun _ => I) (fun _ => I) I

end RsServe.EarlyExit
