import Mathlib.Logic.Function.Basic
import RsServe.NameTree

/-! Maps from locations to documents, kept in a tree: the documents are its leaves and
exactly what is above a document is a branch. -/

namespace RsServe.DocumentMap
open NameTree

variable {κ β : Type}

abbrev Docs (κ β : Type) := List κ → Option β

def Above (p q : List κ) : Prop := ∃ rest, rest ≠ [] ∧ q = p ++ rest

def Ancestor (docs : Docs κ β) (p : List κ) : Prop := ∃ q, Above p q ∧ docs q ≠ none

def Free (docs : Docs κ β) (p : List κ) : Prop :=
  (∀ q, Above q p → docs q = none) ∧ ¬ Ancestor docs p

theorem above_trans {p q r : List κ} (h : Above p q) (h' : Above q r) : Above p r := by
  obtain ⟨a, ha, rfl⟩ := h
  obtain ⟨b, -, rfl⟩ := h'
  exact ⟨a ++ b, by simp [ha], by simp⟩

theorem not_above_self (p : List κ) : ¬ Above p p := by
  intro h
  obtain ⟨rest, hrest, same⟩ := h
  exact hrest (by simpa using same)

theorem above_concat {p dirs : List κ} {last : κ} : Above p (dirs ++ [last]) ↔ p <+: dirs := by
  constructor
  · intro h
    obtain ⟨rest, hrest, same⟩ := h
    have split := List.dropLast_append_getLast hrest
    rw [← split, ← List.append_assoc] at same
    exact ⟨rest.dropLast, (List.append_inj_left' same rfl).symm⟩
  · intro h
    obtain ⟨rest, rfl⟩ := h
    exact ⟨rest ++ [last], by simp, by simp⟩

theorem not_prefix_of_above {p q : List κ} (h : Above p q) : ¬ q <+: p := by
  obtain ⟨rest, hrest, rfl⟩ := h
  intro below
  have short := below.length_le
  have pos := List.length_pos_iff.2 hrest
  rw [List.length_append] at short
  omega

/-- Below the top, the tree shows the documents, the branches above them, and branches
down to `extra`. -/
structure Shows (docs : Docs κ β) (extra : List κ) (view : List κ → Option (Kind β Unit)) :
    Prop where
  leaf : ∀ p b, view p = some (.leaf b) ↔ docs p = some b
  branch : ∀ p, p ≠ [] → (view p = some (.branch ()) ↔ Ancestor docs p ∨ p <+: extra)

variable {docs : Docs κ β} {extra : List κ} {view view' : List κ → Option (Kind β Unit)}

theorem Shows.congr (h : Shows docs extra view) (same : ∀ q, view' q = view q) :
    Shows docs extra view' := by
  have equal : view' = view := funext same
  exact equal ▸ h

theorem Shows.none_iff (h : Shows docs [] view) {p : List κ} (hp : p ≠ []) :
    view p = none ↔ docs p = none ∧ ¬ Ancestor docs p := by
  have branch := h.branch p hp
  cases hview : view p with
  | none =>
    refine iff_of_true rfl ⟨?_, fun above => ?_⟩
    · by_contra some
      obtain ⟨b, hb⟩ := Option.ne_none_iff_exists'.1 some
      simp [(h.leaf p b).2 hb] at hview
    · simp [branch.2 (Or.inl above)] at hview
  | some kind =>
    refine iff_of_false (by simp) fun none => ?_
    cases kind with
    | leaf b =>
      have stored := (h.leaf p b).1 hview
      simp [none.1] at stored
    | branch u =>
      rcases branch.1 hview with above | top
      · exact none.2 above
      · exact hp (List.prefix_nil.1 top)

theorem Shows.not_ancestor (h : Shows docs extra view) {p : List κ} (hp : p ≠ [])
    (hdoc : docs p ≠ none) : ¬ Ancestor docs p := by
  intro above
  obtain ⟨b, hb⟩ := Option.ne_none_iff_exists'.1 hdoc
  have leaf := (h.leaf p b).2 hb
  have branch := (h.branch p hp).2 (Or.inl above)
  rw [leaf] at branch
  cases branch

theorem shows_empty (hview : ∀ q, q ≠ [] → view q = none) (htop : ∀ b, view [] ≠ some (.leaf b)) :
    Shows (fun _ => none) [] view where
  leaf := by
    intro q b
    by_cases hq : q = []
    · simp [hq, htop]
    · simp [hview q hq]
  branch := by
    intro q hne
    rw [hview q hne]
    simp [Ancestor, hne]

variable [DecidableEq κ]

theorem Shows.branches {dirs : List κ} {last : κ} (h : Shows docs [] view)
    (hfree : Free docs (dirs ++ [last]))
    (hview : ∀ q, view' q = if q ≠ [] ∧ q <+: dirs then some (.branch ()) else view q) :
    Shows docs dirs view' where
  leaf := by
    intro q b
    rw [hview]
    by_cases hq : q ≠ [] ∧ q <+: dirs
    · rw [if_pos hq, hfree.1 q (above_concat.2 hq.2)]
      simp
    · rw [if_neg hq]
      exact h.leaf q b
  branch := by
    intro q hne
    rw [hview]
    by_cases hq : q <+: dirs
    · rw [if_pos ⟨hne, hq⟩]
      exact iff_of_true rfl (Or.inr hq)
    · rw [if_neg fun both => hq both.2, h.branch q hne]
      simp [hq, hne]

theorem Shows.stored {dirs : List κ} {last : κ} {b : β} (h : Shows docs dirs view)
    (hfree : Free docs (dirs ++ [last]))
    (hview : ∀ q, view' q = if q = dirs ++ [last] then some (.leaf b) else view q) :
    Shows (Function.update docs (dirs ++ [last]) (some b)) [] view' where
  leaf := by
    intro q c
    rw [hview]
    by_cases hq : q = dirs ++ [last]
    · rw [if_pos hq, hq, Function.update_self]
      simp
    · rw [if_neg hq, Function.update_of_ne hq]
      exact h.leaf q c
  branch := by
    intro q hne
    rw [hview]
    by_cases hq : q = dirs ++ [last]
    · rw [if_pos hq]
      refine iff_of_false (by simp) fun above => ?_
      rcases above with ⟨r, habove, hr⟩ | top
      · rw [hq] at habove
        have other : r ≠ dirs ++ [last] := fun same => not_above_self _ (same ▸ habove)
        rw [Function.update_of_ne other] at hr
        exact hfree.2 ⟨r, habove, hr⟩
      · exact hne (List.prefix_nil.1 top)
    · rw [if_neg hq, h.branch q hne]
      simp only [List.prefix_nil, hne, or_false]
      constructor
      · intro old
        rcases old with ⟨r, habove, hr⟩ | hdirs
        · refine ⟨r, habove, ?_⟩
          by_cases same : r = dirs ++ [last]
          · rw [same, Function.update_self]
            simp
          · rw [Function.update_of_ne same]
            exact hr
        · refine ⟨dirs ++ [last], above_concat.2 hdirs, ?_⟩
          rw [Function.update_self]
          simp
      · intro new
        obtain ⟨r, habove, hr⟩ := new
        by_cases same : r = dirs ++ [last]
        · exact Or.inr (above_concat.1 (same ▸ habove))
        · rw [Function.update_of_ne same] at hr
          exact Or.inl ⟨r, habove, hr⟩

theorem Shows.removed {dirs : List κ} {last : κ} (h : Shows docs [] view)
    (hdoc : docs (dirs ++ [last]) ≠ none)
    (hview : ∀ q, view' q = if q = dirs ++ [last] then none else view q) :
    Shows (Function.update docs (dirs ++ [last]) none) dirs view' where
  leaf := by
    intro q c
    rw [hview]
    by_cases hq : q = dirs ++ [last]
    · rw [if_pos hq, hq, Function.update_self]
      simp
    · rw [if_neg hq, Function.update_of_ne hq]
      exact h.leaf q c
  branch := by
    intro q hne
    rw [hview]
    by_cases hq : q = dirs ++ [last]
    · rw [if_pos hq]
      refine iff_of_false (by simp) fun above => ?_
      rcases above with ⟨r, habove, hr⟩ | hdirs
      · rw [hq] at habove
        have other : r ≠ dirs ++ [last] := fun same => not_above_self _ (same ▸ habove)
        rw [Function.update_of_ne other] at hr
        exact h.not_ancestor (by simp) hdoc ⟨r, habove, hr⟩
      · rw [hq] at hdirs
        exact not_prefix_of_above ⟨[last], by simp, rfl⟩ hdirs
    · rw [if_neg hq, h.branch q hne]
      simp only [List.prefix_nil, hne, or_false]
      constructor
      · intro old
        obtain ⟨r, habove, hr⟩ := old
        by_cases same : r = dirs ++ [last]
        · exact Or.inr (above_concat.1 (same ▸ habove))
        · refine Or.inl ⟨r, habove, ?_⟩
          rw [Function.update_of_ne same]
          exact hr
      · intro new
        rcases new with ⟨r, habove, hr⟩ | hdirs
        · by_cases same : r = dirs ++ [last]
          · rw [same, Function.update_self] at hr
            exact absurd rfl hr
          · rw [Function.update_of_ne same] at hr
            exact ⟨r, habove, hr⟩
        · exact ⟨dirs ++ [last], above_concat.2 hdirs, hdoc⟩

omit [DecidableEq κ] in
theorem Shows.kept (h : Shows docs extra view) (habove : Ancestor docs extra) :
    Shows docs [] view where
  leaf := h.leaf
  branch := by
    intro q hne
    rw [h.branch q hne]
    simp only [List.prefix_nil, hne, or_false]
    refine ⟨fun old => ?_, Or.inl⟩
    rcases old with above | hextra
    · exact above
    · obtain ⟨r, habove, hr⟩ := habove
      obtain ⟨rest, rfl⟩ := hextra
      by_cases same : rest = []
      · exact ⟨r, by simpa [same] using habove, hr⟩
      · exact ⟨r, above_trans ⟨rest, same, rfl⟩ habove, hr⟩

theorem Shows.pruned {dirs : List κ} {last : κ} (h : Shows docs (dirs ++ [last]) view)
    (hempty : ¬ Ancestor docs (dirs ++ [last]))
    (hview : ∀ q, view' q = if q = dirs ++ [last] then none else view q) :
    Shows docs dirs view' where
  leaf := by
    intro q c
    rw [hview]
    by_cases hq : q = dirs ++ [last]
    · rw [if_pos hq, hq]
      refine iff_of_false (by simp) fun stored => ?_
      have leaf := (h.leaf _ c).2 stored
      have branch := (h.branch (dirs ++ [last]) (by simp)).2 (Or.inr (List.prefix_refl _))
      rw [leaf] at branch
      cases branch
    · rw [if_neg hq]
      exact h.leaf q c
  branch := by
    intro q hne
    rw [hview]
    by_cases hq : q = dirs ++ [last]
    · rw [if_pos hq, hq]
      refine iff_of_false (by simp) fun above => ?_
      rcases above with above | hdirs
      · exact hempty above
      · exact not_prefix_of_above ⟨[last], by simp, rfl⟩ hdirs
    · rw [if_neg hq, h.branch q hne, List.prefix_concat_iff]
      simp [hq]

omit [DecidableEq κ] in
theorem Shows.none_below (h : Shows docs extra view) (hempty : ¬ Ancestor docs extra)
    {q : List κ} (hq : Above extra q) : view q = none := by
  have hne : q ≠ [] := by
    intro nil
    obtain ⟨rest, hrest, same⟩ := hq
    simp [nil, hrest] at same
  cases hview : view q with
  | none => rfl
  | some kind =>
    cases kind with
    | leaf b =>
      have stored := (h.leaf q b).1 hview
      exact absurd ⟨q, hq, by simp [stored]⟩ hempty
    | branch u =>
      rcases (h.branch q hne).1 hview with ⟨r, habove, hr⟩ | hextra
      · exact absurd ⟨r, above_trans hq habove, hr⟩ hempty
      · exact absurd hextra (not_prefix_of_above hq)

end RsServe.DocumentMap
