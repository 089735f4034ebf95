import Mathlib.Algebra.GroupWithZero.Nat
import Mathlib.Data.List.Basic
import RsServe.SegmentGluing

/-! Which names come out of the two gluing passes unaltered. A marked segment always costs
two letters, and two names with an odd number of empty segments between them become one, so
neither loss is made good by the other pass. -/

namespace RsServe.GluedNames
open SegmentGluing

variable {α : Type*}

def Segmented.names (x : Segmented α) : List (List α) := (x.lead :: x.rest).filter (· ≠ [])

/-- With whether a name was read before, and whether an odd number of empty segments after
it: no name follows another one over an odd number of them. -/
def Apart : Bool → Bool → List (List α) → Prop
  | _, _, [] => True
  | named, odd, s :: segments =>
    if s = [] then Apart named (!odd) segments
    else ¬ (named ∧ odd) ∧ Apart true false segments

instance decidableApart (named odd : Bool) (segments : List (List α)) :
    Decidable (Apart named odd segments) :=
  match segments with
  | [] => .isTrue trivial
  | s :: segments =>
    have := decidableApart named (!odd) segments
    have := decidableApart true false segments
    inferInstanceAs (Decidable (if s = [] then _ else _))

def detached : Bool → List (List α) → List α
  | _, [] => []
  | odd, s :: segments => if s = [] then detached (!odd) segments else if odd then s else []

def top (y : Segmented α) : List α :=
  match y.rest with
  | [] => y.lead
  | t :: _ => t

def extend (y : Segmented α) (s : List α) : Segmented α :=
  match y.rest with
  | [] => ⟨y.lead ++ s, []⟩
  | t :: upper => ⟨y.lead, (t ++ s) :: upper⟩

theorem bridge_of_top {y : Segmented α} (h : top y ≠ []) (s : List α) :
    bridge y s = ⟨y.lead, s :: y.rest⟩ := by
  rcases y with ⟨lead, _ | ⟨t, upper⟩⟩
  · rfl
  · cases t with
    | nil => exact absurd rfl h
    | cons c t => rfl

theorem bridge_empty (y : Segmented α) (s : List α) :
    bridge ⟨y.lead, [] :: y.rest⟩ s = extend y s := by
  rcases y with ⟨lead, _ | ⟨t, upper⟩⟩
  · rfl
  · rfl

theorem extend_nil (y : Segmented α) : extend y [] = y := by
  rcases y with ⟨lead, _ | ⟨t, upper⟩⟩
  · simp [extend]
  · simp [extend]

theorem top_extend {y : Segmented α} (h : top y ≠ []) (s : List α) : top (extend y s) ≠ [] := by
  rcases y with ⟨lead, _ | ⟨t, upper⟩⟩
  · simp only [top] at h
    simp [top, extend, h]
  · simp only [top] at h
    simp [top, extend, h]

theorem names_flip_cons (lead s : List α) (upper : List (List α)) :
    Segmented.names (⟨lead, s :: upper⟩ : Segmented α).flip =
      Segmented.names (⟨lead, upper⟩ : Segmented α).flip ++ [s].filter (· ≠ []) := by
  simp only [Segmented.names, Segmented.flip, List.reverse_cons, ← List.cons_append,
    List.filter_append]

theorem length_names_extend {y : Segmented α} (h : top y ≠ []) (s : List α) :
    (Segmented.names (extend y s).flip).length = (Segmented.names y.flip).length := by
  rcases y with ⟨lead, _ | ⟨t, upper⟩⟩
  · simp only [top] at h
    simp [Segmented.names, Segmented.flip, extend, h]
  · simp only [top] at h
    simp only [extend, names_flip_cons]
    simp [h]

/-- The state of the pass after a name: `y`, with an empty segment on it or not. -/
def pending (odd : Bool) (y : Segmented α) : Segmented α :=
  if odd then ⟨y.lead, [] :: y.rest⟩ else y

theorem names_pending (odd : Bool) (y : Segmented α) :
    Segmented.names (pending odd y).flip = Segmented.names y.flip := by
  cases odd with
  | false => rfl
  | true => simp [pending, names_flip_cons]

theorem lead_pending (odd : Bool) (y : Segmented α) : (pending odd y).lead = y.lead := by
  cases odd <;> rfl

structure Outcome (ok : Prop) (before : List (List α)) (lead : List α)
    (segments : List (List α)) (x : Segmented α) : Prop where
  names : ok → Segmented.names (segments.foldl bridge x).flip = before ++ segments.filter (· ≠ [])
  lead : ok → (segments.foldl bridge x).lead = lead
  length : ¬ ok → (Segmented.names (segments.foldl bridge x).flip).length <
    before.length + (segments.filter (· ≠ [])).length

theorem Outcome.length_le {ok : Prop} {before segments : List (List α)} {lead : List α}
    {x : Segmented α} (h : Outcome ok before lead segments x) :
    (Segmented.names (segments.foldl bridge x).flip).length ≤
      before.length + (segments.filter (· ≠ [])).length := by
  by_cases hok : ok
  · rw [h.names hok, List.length_append]
  · exact (h.length hok).le

theorem filter_name {s : List α} (hs : s ≠ []) (segments : List (List α)) :
    (s :: segments).filter (· ≠ []) = s :: segments.filter (· ≠ []) :=
  List.filter_cons_of_pos (by simpa using hs)

theorem Outcome.skip {ok : Prop} {before segments : List (List α)} {lead : List α}
    {x : Segmented α} (h : Outcome ok before lead segments (bridge x [])) :
    Outcome ok before lead ([] :: segments) x := by
  refine ⟨fun hok => ?_, fun hok => h.lead hok, fun hok => ?_⟩
  · simpa using h.names hok
  · simpa using h.length hok

theorem Outcome.keep {ok : Prop} {before segments : List (List α)} {lead s : List α}
    {x : Segmented α} (hs : s ≠ []) (h : Outcome ok (before ++ [s]) lead segments (bridge x s)) :
    Outcome ok before lead (s :: segments) x := by
  refine ⟨fun hok => ?_, fun hok => h.lead hok, fun hok => ?_⟩
  · simpa [hs] using h.names hok
  · have length := h.length hok
    rw [List.length_append, List.length_singleton] at length
    rw [filter_name hs, List.foldl_cons, List.length_cons]
    omega

theorem Outcome.lose {ok : Prop} {before before' segments : List (List α)} {lead lead' s : List α}
    {x : Segmented α} (hs : s ≠ []) (hlength : before'.length = before.length)
    (h : Outcome ok before' lead' segments (bridge x s)) {ok' : Prop} (hok : ¬ ok') :
    Outcome ok' before lead (s :: segments) x := by
  refine ⟨fun h' => absurd h' hok, fun h' => absurd h' hok, fun _ => ?_⟩
  have length := h.length_le
  rw [filter_name hs, List.foldl_cons, List.length_cons]
  omega

theorem run_named (segments : List (List α)) (y : Segmented α) (htop : top y ≠ []) (odd : Bool) :
    Outcome (Apart true odd segments) (Segmented.names y.flip) y.lead segments
      (pending odd y) := by
  induction segments generalizing y odd with
  | nil =>
    refine ⟨fun _ => ?_, fun _ => lead_pending odd y, fun h => absurd trivial h⟩
    rw [List.foldl_nil, names_pending, List.filter_nil, List.append_nil]
  | cons s segments ih =>
    by_cases hs : s = []
    · subst hs
      rw [Apart, if_pos rfl]
      cases odd with
      | false =>
        have hbridge : bridge (pending false y) [] = pending true y := bridge_of_top htop []
        exact Outcome.skip (hbridge ▸ ih y htop true)
      | true =>
        have hbridge : bridge (pending true y) [] = pending false y :=
          (bridge_empty y []).trans (extend_nil y)
        exact Outcome.skip (hbridge ▸ ih y htop false)
    · rw [Apart, if_neg hs]
      cases odd with
      | false =>
        have hbridge : bridge (pending false y) s = pending false ⟨y.lead, s :: y.rest⟩ :=
          bridge_of_top htop s
        have step := ih ⟨y.lead, s :: y.rest⟩ hs false
        rw [names_flip_cons, ← hbridge] at step
        simpa using Outcome.keep hs (by simpa [hs] using step)
      | true =>
        have hbridge : bridge (pending true y) s = pending false (extend y s) := bridge_empty y s
        have step := ih (extend y s) (top_extend htop s) false
        rw [← hbridge] at step
        exact Outcome.lose hs (length_names_extend htop s) step fun h => h.1 ⟨rfl, rfl⟩

theorem run_unnamed (segments : List (List α)) (odd : Bool) :
    Outcome (Apart false odd segments) [] (detached odd segments) segments
      (pending odd ⟨[], []⟩) := by
  induction segments generalizing odd with
  | nil =>
    refine ⟨fun _ => ?_, fun _ => lead_pending odd _, fun h => absurd trivial h⟩
    rw [List.foldl_nil, names_pending]
    rfl
  | cons s segments ih =>
    by_cases hs : s = []
    · subst hs
      rw [Apart, if_pos rfl, detached, if_pos rfl]
      cases odd with
      | false => exact Outcome.skip (ih true)
      | true => exact Outcome.skip (ih false)
    · rw [Apart, if_neg hs, detached, if_neg hs]
      cases odd with
      | false =>
        have step : Outcome _ _ _ segments (bridge (pending false ⟨[], []⟩) s) :=
          run_named segments ⟨[], [s]⟩ hs false
        simpa using Outcome.keep hs (by simpa [Segmented.names, Segmented.flip, hs] using step)
      | true =>
        have step : Outcome _ _ _ segments (bridge (pending true ⟨[], []⟩) s) :=
          run_named segments ⟨s, []⟩ hs false
        simpa using Outcome.keep hs (by simpa [Segmented.names, Segmented.flip, hs] using step)

theorem names_glueEmpty_iff (segments : List (List α)) :
    Segmented.names (glueEmpty ⟨[], segments⟩) = segments.filter (· ≠ []) ↔
      Apart false false segments := by
  have outcome := run_unnamed segments false
  refine ⟨fun same => ?_, fun apart => outcome.names apart⟩
  by_contra h
  have less := outcome.length h
  have same' : Segmented.names (List.foldl bridge (pending false ⟨[], []⟩) segments).flip =
      segments.filter (· ≠ []) := same
  simp [same'] at less

theorem lead_glueEmpty {segments : List (List α)} (h : Apart false false segments) :
    (glueEmpty ⟨[], segments⟩).lead = detached false segments :=
  (run_unnamed segments false).lead h

def Settled (y : Segmented α) : Prop := y.rest = [] ∨ top y ≠ []

def letters (x : Segmented α) : Nat := x.lead.length + (x.rest.map List.length).sum

theorem letters_extend (y : Segmented α) (s : List α) :
    letters (extend y s) = letters y + s.length := by
  rcases y with ⟨lead, _ | ⟨t, upper⟩⟩
  · simp [letters, extend]
  · simp [letters, extend]
    omega

theorem letters_bridge (x : Segmented α) (s : List α) :
    letters (bridge x s) = letters x + s.length := by
  rcases x with ⟨lead, _ | ⟨_ | ⟨c, t⟩, upper⟩⟩
  · simp [letters, bridge]
  · have glued := letters_extend ⟨lead, upper⟩ s
    rw [← bridge_empty] at glued
    simpa [letters] using glued
  · simp [letters, bridge]
    omega

theorem letters_foldl_bridge (segments : List (List α)) (x : Segmented α) :
    letters (segments.foldl bridge x) = letters x + (segments.map List.length).sum := by
  induction segments generalizing x with
  | nil => simp
  | cons s segments ih =>
    rw [List.foldl_cons, ih, letters_bridge]
    simp [Nat.add_assoc]

theorem letters_flip (x : Segmented α) : letters x.flip = letters x := by
  simp [letters, Segmented.flip]

theorem letters_glueEmpty (x : Segmented α) : letters (glueEmpty x) = letters x := by
  rw [glueEmpty, letters_flip, letters_foldl_bridge]
  simp [letters]

theorem sum_length_filter (segments : List (List α)) :
    ((segments.filter (· ≠ [])).map List.length).sum = (segments.map List.length).sum := by
  induction segments with
  | nil => rfl
  | cons s segments ih =>
    by_cases hs : s = []
    · simpa [hs] using ih
    · simpa [hs] using ih

theorem sum_length_names (x : Segmented α) :
    ((Segmented.names x).map List.length).sum = letters x := by
  rw [Segmented.names, sum_length_filter]
  simp [letters]

variable [DecidableEq α] (mark : α)

theorem letters_attach (lead : List α) (upper : List (List α)) (s : List α) :
    letters (attach mark lead upper s) + (if [mark, mark] <+: s then 2 else 0) ≤
      letters ⟨lead, upper⟩ + s.length := by
  induction upper generalizing s with
  | nil =>
    by_cases hs : [mark, mark] <+: s
    · have two := hs.length_le
      simp [attach, hs, letters] at two ⊢
      omega
    · simp [attach, hs, letters]
  | cons t upper ih =>
    by_cases hs : [mark, mark] <+: s
    · have two := hs.length_le
      have step := ih (t ++ s.drop 2)
      rw [attach, if_pos hs, if_pos hs]
      simp [letters] at two step ⊢
      omega
    · simp [attach, hs, letters]
      omega

theorem letters_foldl_attach (rest : List (List α)) (x : Segmented α) :
    letters (rest.foldl (fun y s => attach mark y.lead y.rest s) x) +
        2 * rest.countP ([mark, mark] <+: ·) ≤ letters x + (rest.map List.length).sum := by
  induction rest generalizing x with
  | nil => simp
  | cons s rest ih =>
    have step := ih (attach mark x.lead x.rest s)
    have first := letters_attach mark x.lead x.rest s
    have same : letters (⟨x.lead, x.rest⟩ : Segmented α) = letters x := rfl
    simp only [List.foldl_cons, List.countP_cons, List.map_cons, List.sum_cons, decide_eq_true_eq]
    by_cases hs : [mark, mark] <+: s
    · rw [if_pos hs] at first ⊢
      omega
    · rw [if_neg hs] at first ⊢
      omega

theorem letters_glueMarked (rest : List (List α)) :
    letters (glueMarked mark ⟨[], rest⟩) + 2 * rest.countP ([mark, mark] <+: ·) ≤
      (rest.map List.length).sum := by
  have run := letters_foldl_attach mark rest ⟨[], []⟩
  rw [glueMarked, letters_flip]
  simpa [letters] using run

theorem glueMarked_of_bare {rest : List (List α)}
    (h : ∀ s ∈ rest, [mark, mark] <+: s → s = [mark, mark]) :
    glueMarked mark ⟨[], rest⟩ = ⟨[], rest.filter (· ≠ [mark, mark])⟩ := by
  have run : ∀ upper : List (List α), Unmarked mark ⟨[], upper⟩ →
      rest.foldl (fun y s => attach mark y.lead y.rest s) ⟨[], upper⟩ =
        ⟨[], (rest.filter (· ≠ [mark, mark])).reverse ++ upper⟩ := by
    induction rest with
    | nil => exact fun upper _ => rfl
    | cons s rest ih =>
      intro upper hupper
      have later := ih fun t ht => h t (by simp [ht])
      by_cases hs : [mark, mark] <+: s
      · have bare := h s (by simp) hs
        have gone : attach mark [] upper s = ⟨[], upper⟩ := by
          cases upper with
          | nil => simp [attach, bare]
          | cons t upper =>
            have ht : ¬ [mark, mark] <+: t := hupper t (by simp)
            cases upper <;> simp [attach, bare, ht]
        rw [List.foldl_cons, gone, later upper hupper]
        simp [bare]
      · have kept : attach mark [] upper s = ⟨[], s :: upper⟩ := by
          cases upper <;> simp [attach, hs]
        have other : s ≠ [mark, mark] := fun same => hs (by rw [same])
        rw [List.foldl_cons, kept, later _ (List.forall_mem_cons.2 ⟨hs, hupper⟩)]
        simp [other]
  rw [glueMarked, run [] (by simp [Unmarked])]
  simp [Segmented.flip]

theorem sum_length_bare (rest : List (List α)) :
    ((rest.filter (· ≠ [mark, mark])).map List.length).sum + 2 * rest.countP (· = [mark, mark]) =
      (rest.map List.length).sum := by
  induction rest with
  | nil => rfl
  | cons s rest ih =>
    by_cases hs : s = [mark, mark]
    · simp [hs] at ih ⊢
      omega
    · simp [hs] at ih ⊢
      omega

theorem countP_marked (rest : List (List α)) :
    rest.countP ([mark, mark] <+: ·) = rest.countP (· = [mark, mark]) +
      rest.countP (fun s => [mark, mark] <+: s ∧ s ≠ [mark, mark]) := by
  induction rest with
  | nil => rfl
  | cons s rest ih =>
    simp only [List.countP_cons, ih, decide_eq_true_eq]
    by_cases hs : s = [mark, mark]
    · simp [hs]
      omega
    · simp [hs]
      omega

theorem names_glued_iff (rest : List (List α)) :
    Segmented.names (glueEmpty (glueMarked mark ⟨[], rest⟩)) =
        (rest.filter (· ≠ [])).filter (· ≠ [mark, mark]) ↔
      (∀ s ∈ rest, [mark, mark] <+: s → s = [mark, mark]) ∧
        Apart false false (rest.filter (· ≠ [mark, mark])) := by
  have swap : (rest.filter (· ≠ [])).filter (· ≠ [mark, mark]) =
      (rest.filter (· ≠ [mark, mark])).filter (· ≠ []) := by
    rw [List.filter_comm]
  rw [swap]
  have keep : (∀ s ∈ rest, [mark, mark] <+: s → s = [mark, mark]) →
      (Segmented.names (glueEmpty (glueMarked mark ⟨[], rest⟩)) =
          (rest.filter (· ≠ [mark, mark])).filter (· ≠ []) ↔
        Apart false false (rest.filter (· ≠ [mark, mark]))) := by
    intro bare
    rw [glueMarked_of_bare mark bare, names_glueEmpty_iff]
  refine ⟨fun same => ?_, fun h => (keep h.1).2 h.2⟩
  have bare : ∀ s ∈ rest, [mark, mark] <+: s → s = [mark, mark] := by
    have sums := congrArg (fun x : List (List α) => (x.map List.length).sum) same
    simp only [sum_length_names, letters_glueEmpty, sum_length_filter] at sums
    have lost := letters_glueMarked mark rest
    have bares := sum_length_bare mark rest
    have none : rest.countP (fun s => [mark, mark] <+: s ∧ s ≠ [mark, mark]) = 0 := by
      have marked := countP_marked mark rest
      omega
    intro s hs hmarked
    by_contra other
    have here := List.countP_eq_zero.1 none s hs
    exact here (by simpa using ⟨hmarked, other⟩)
  exact ⟨bare, (keep bare).1 same⟩

end RsServe.GluedNames
