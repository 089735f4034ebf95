import Mathlib.Data.List.DropRight
import RsServe.LexicalPath
import RsServe.NameTree

/-! Walks along names in a tree, one name meaning "here" and one "one level up". Each
step has to leave from a branch, and has to find the name there. -/

namespace RsServe.TreeWalk
open NameTree

variable {κ : Type}

/-- What a walk sees of the locations: whether something is there, and a branch. -/
abbrev Shape (κ : Type) := List κ → Option Bool

def shape {α β : Type} [BEq κ] (t : Tree κ α β) : Shape κ := fun p => (t.look p).map Kind.isBranch

def Closed (s : Shape κ) : Prop := ∀ p k, s (p ++ [k]) ≠ none → s p = some true

def Extends (s s' : Shape κ) : Prop :=
  ∀ p, (s p = some true → s' p = some true) ∧ (s p ≠ none → s' p ≠ none)

theorem shape_closed {α β : Type} [BEq κ] (t : Tree κ α β) : Closed (shape t) := by
  intro p k h
  have hlook : t.look (p ++ [k]) ≠ none := fun none => h (by rw [shape, none]; rfl)
  obtain ⟨b, hb⟩ := look_parent hlook
  rw [shape, hb]
  rfl

theorem prefix_ne_none {s : Shape κ} (hs : Closed s) {p q : List κ} (h : p <+: q)
    (hq : s q ≠ none) : s p ≠ none := by
  obtain ⟨r, rfl⟩ := h
  induction r using List.reverseRecOn with
  | nil => simpa using hq
  | append_singleton r k ih =>
    rw [← List.append_assoc] at hq
    exact ih (by rw [hs _ _ hq]; simp)

inductive WalkError where
  | missing
  | notBranch
deriving DecidableEq

variable [DecidableEq κ]

def walk (here up : κ) (s : Shape κ) : List κ → List κ → Except WalkError (List κ)
  | loc, [] => .ok loc
  | loc, c :: cs =>
    match s loc with
    | none => .error .missing
    | some false => .error .notBranch
    | some true =>
      if c = here then walk here up s loc cs
      else if c = up then walk here up s loc.dropLast cs
      else if s (loc ++ [c]) = none then .error .missing
      else walk here up s (loc ++ [c]) cs

variable {here up : κ} {s s' : Shape κ}

theorem walk_here {loc : List κ} (hloc : s loc = some true) (cs : List κ) :
    walk here up s loc (here :: cs) = walk here up s loc cs := by
  rw [walk, hloc]
  simp

theorem walk_up {loc : List κ} (hloc : s loc = some true) (hup : up ≠ here) (cs : List κ) :
    walk here up s loc (up :: cs) = walk here up s loc.dropLast cs := by
  rw [walk, hloc]
  simp [hup]

theorem walk_down {loc : List κ} {c : κ} (hloc : s loc = some true) (hhere : c ≠ here)
    (hup : c ≠ up) (hnext : s (loc ++ [c]) ≠ none) (cs : List κ) :
    walk here up s loc (c :: cs) = walk here up s (loc ++ [c]) cs := by
  rw [walk, hloc]
  simp [hhere, hup, hnext]

theorem walk_cons {loc cs l : List κ} {c : κ} (h : walk here up s loc (c :: cs) = .ok l) :
    s loc = some true ∧
      (c = here ∧ walk here up s loc cs = .ok l ∨
        c ≠ here ∧ c = up ∧ walk here up s loc.dropLast cs = .ok l ∨
        c ≠ here ∧ c ≠ up ∧ s (loc ++ [c]) ≠ none ∧ walk here up s (loc ++ [c]) cs = .ok l) := by
  rw [walk] at h
  cases hloc : s loc with
  | none => simp [hloc] at h
  | some isBranch =>
    cases isBranch with
    | false => simp [hloc] at h
    | true =>
      rw [hloc] at h
      refine ⟨rfl, ?_⟩
      by_cases hhere : c = here
      · rw [if_pos hhere] at h
        exact Or.inl ⟨hhere, h⟩
      · rw [if_neg hhere] at h
        by_cases hup : c = up
        · rw [if_pos hup] at h
          exact Or.inr (Or.inl ⟨hhere, hup, h⟩)
        · rw [if_neg hup] at h
          by_cases hnext : s (loc ++ [c]) = none
          · simp [hnext] at h
          · rw [if_neg hnext] at h
            exact Or.inr (Or.inr ⟨hhere, hup, hnext, h⟩)

theorem walk_append (loc cs ds : List κ) :
    walk here up s loc (cs ++ ds) = (walk here up s loc cs).bind fun l => walk here up s l ds := by
  induction cs generalizing loc with
  | nil => rfl
  | cons c cs ih =>
    rw [List.cons_append, walk, walk]
    cases s loc with
    | none => rfl
    | some isBranch =>
      cases isBranch with
      | false => rfl
      | true =>
        simp only [ih]
        by_cases hhere : c = here
        · rw [if_pos hhere, if_pos hhere]
        · rw [if_neg hhere, if_neg hhere]
          by_cases hup : c = up
          · rw [if_pos hup, if_pos hup]
          · rw [if_neg hup, if_neg hup]
            split <;> rfl

theorem walk_mono (h : Extends s s') {loc cs l : List κ} (hwalk : walk here up s loc cs = .ok l) :
    walk here up s' loc cs = .ok l := by
  induction cs generalizing loc with
  | nil => exact hwalk
  | cons c cs ih =>
    rcases walk_cons hwalk with ⟨hloc, ⟨rfl, rest⟩ | ⟨hhere, rfl, rest⟩ | ⟨hhere, hup, hnext, rest⟩⟩
    · rw [walk_here ((h loc).1 hloc)]
      exact ih rest
    · rw [walk_up ((h loc).1 hloc) hhere]
      exact ih rest
    · rw [walk_down ((h loc).1 hloc) hhere hup ((h _).2 hnext)]
      exact ih rest

theorem walk_ne_none (hs : Closed s) {loc cs l : List κ} (hloc : s loc ≠ none)
    (hwalk : walk here up s loc cs = .ok l) : s l ≠ none := by
  induction cs generalizing loc with
  | nil =>
    rw [walk] at hwalk
    rw [← Except.ok.inj hwalk]
    exact hloc
  | cons c cs ih =>
    rcases walk_cons hwalk with ⟨-, ⟨-, rest⟩ | ⟨-, -, rest⟩ | ⟨-, -, hnext, rest⟩⟩
    · exact ih hloc rest
    · exact ih (prefix_ne_none hs (List.dropLast_prefix loc) hloc) rest
    · exact ih hnext rest

theorem walk_plain (hs : Closed s) {loc cs : List κ} (hcs : ∀ c ∈ cs, c ≠ here ∧ c ≠ up)
    (hend : s (loc ++ cs) ≠ none) : walk here up s loc cs = .ok (loc ++ cs) := by
  induction cs generalizing loc with
  | nil => simp [walk]
  | cons c cs ih =>
    have hc := hcs c (by simp)
    have split : loc ++ c :: cs = loc ++ [c] ++ cs := by simp
    rw [split] at hend ⊢
    have next : s (loc ++ [c]) ≠ none := prefix_ne_none hs (List.prefix_append _ cs) hend
    rw [walk_down (hs loc c next) hc.1 hc.2 next]
    exact ih (fun d hd => hcs d (by simp [hd])) hend

theorem walk_plain_inv {loc cs l : List κ} (hcs : ∀ c ∈ cs, c ≠ here ∧ c ≠ up)
    (hloc : s loc ≠ none) (hwalk : walk here up s loc cs = .ok l) :
    l = loc ++ cs ∧ s l ≠ none := by
  induction cs generalizing loc with
  | nil =>
    rw [walk] at hwalk
    rw [← Except.ok.inj hwalk]
    exact ⟨by simp, hloc⟩
  | cons c cs ih =>
    have hc := hcs c (by simp)
    rcases walk_cons hwalk with ⟨-, ⟨same, -⟩ | ⟨-, same, -⟩ | ⟨-, -, hnext, rest⟩⟩
    · exact absurd same hc.1
    · exact absurd same hc.2
    · have ends := ih (fun d hd => hcs d (by simp [hd])) hnext rest
      exact ⟨by simpa using ends.1, ends.2⟩

theorem walk_lexical {loc cs l : List κ} (h : walk here up s loc cs = .ok l) :
    l = (cs.foldl (LexicalPath.enter here up) loc.reverse).reverse := by
  induction cs generalizing loc with
  | nil =>
    rw [walk] at h
    rw [← Except.ok.inj h, List.foldl_nil, List.reverse_reverse]
  | cons c cs ih =>
    rw [List.foldl_cons, LexicalPath.enter]
    rcases walk_cons h with ⟨-, ⟨hhere, rest⟩ | ⟨hhere, hup, rest⟩ | ⟨hhere, hup, -, rest⟩⟩
    · rw [if_pos hhere]
      exact ih rest
    · rw [if_neg hhere, if_pos hup, List.tail_reverse]
      exact ih rest
    · rw [if_neg hhere, if_neg hup]
      simpa using ih rest

end RsServe.TreeWalk
