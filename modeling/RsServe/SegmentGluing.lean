import RsServe.PatternDeletion

/-! Words over an alphabet with a separator, read as a lead followed by segments.
Deleting `sep mark mark` or `sep sep` everywhere is expressed on the segments:
a segment that begins with two marks is glued, without them, to the one before
it, and an empty segment glues its two neighbours together. -/

namespace RsServe.SegmentGluing
open PatternDeletion

variable {α : Type*}

/-- A word cut at its separators: the text before the first one, then what
follows each of them. -/
structure Segmented (α : Type*) where
  lead : List α
  rest : List (List α)
deriving DecidableEq

def Segmented.word (sep : α) (x : Segmented α) : List α :=
  x.lead ++ x.rest.flatMap (sep :: ·)

def Segmented.Separated (sep : α) (x : Segmented α) : Prop :=
  sep ∉ x.lead ∧ ∀ s ∈ x.rest, sep ∉ s

section Cut
variable [DecidableEq α]

def cut (sep : α) (w : List α) : Segmented α :=
  ⟨(w.splitOn sep).headD [], (w.splitOn sep).tail⟩

theorem cut_nil (sep : α) : cut sep ([] : List α) = ⟨[], []⟩ := rfl

theorem cut_cons_self (sep : α) (w : List α) :
    cut sep (sep :: w) = ⟨[], (cut sep w).lead :: (cut sep w).rest⟩ := by
  obtain ⟨lead, rest, split⟩ := List.exists_cons_of_ne_nil (List.splitOn_ne_nil sep w)
  simp [cut, List.splitOn_cons_eq_if_modifyHead, split]

theorem cut_cons_of_ne {sep c : α} (h : c ≠ sep) (w : List α) :
    cut sep (c :: w) = ⟨c :: (cut sep w).lead, (cut sep w).rest⟩ := by
  obtain ⟨lead, rest, split⟩ := List.exists_cons_of_ne_nil (List.splitOn_ne_nil sep w)
  simp [cut, List.splitOn_cons_eq_if_modifyHead, split, h]

theorem cut_of_not_mem {sep : α} {w : List α} (h : sep ∉ w) : cut sep w = ⟨w, []⟩ := by
  simp [cut, List.splitOn_eq_singleton h]

theorem cut_append_cons {sep : α} {u : List α} (h : sep ∉ u) (w : List α) :
    cut sep (u ++ sep :: w) = ⟨u, (cut sep w).lead :: (cut sep w).rest⟩ := by
  induction u with
  | nil => exact cut_cons_self sep w
  | cons c u ih =>
    obtain ⟨hc, hu⟩ : sep ≠ c ∧ sep ∉ u := by simpa using h
    rw [List.cons_append, cut_cons_of_ne hc.symm, ih hu]

theorem cut_separated (sep : α) (w : List α) : (cut sep w).Separated sep := by
  induction w with
  | nil => simp [cut_nil, Segmented.Separated]
  | cons c w ih =>
    by_cases h : c = sep
    · subst h
      rw [cut_cons_self]
      exact ⟨by simp, List.forall_mem_cons.mpr ih⟩
    · rw [cut_cons_of_ne h]
      exact ⟨by simpa using ⟨Ne.symm h, ih.1⟩, ih.2⟩

@[simp] theorem word_cut (sep : α) (w : List α) : (cut sep w).word sep = w := by
  induction w with
  | nil => rfl
  | cons c w ih =>
    by_cases h : c = sep
    · subst h
      simpa [cut_cons_self, Segmented.word] using ih
    · simpa [cut_cons_of_ne h, Segmented.word] using ih

theorem cut_word {sep : α} {x : Segmented α} (h : x.Separated sep) :
    cut sep (x.word sep) = x := by
  obtain ⟨lead, rest⟩ := x
  obtain ⟨hlead, hrest⟩ := h
  induction rest generalizing lead with
  | nil => simpa [Segmented.word] using cut_of_not_mem hlead
  | cons s rest ih =>
    have tail := ih s (hrest s (by simp)) fun t ht => hrest t (by simp [ht])
    simp only [Segmented.word, List.flatMap_cons, List.cons_append] at tail ⊢
    rw [cut_append_cons hlead, tail]

end Cut

def Segmented.stack (sep : α) (x : Segmented α) : List α :=
  x.rest.foldr (fun s below => s.reverse ++ sep :: below) x.lead.reverse

@[simp] theorem stack_nil (sep : α) (lead : List α) :
    (⟨lead, []⟩ : Segmented α).stack sep = lead.reverse := rfl

@[simp] theorem stack_cons (sep : α) (lead s : List α) (upper : List (List α)) :
    (⟨lead, s :: upper⟩ : Segmented α).stack sep =
      s.reverse ++ sep :: (⟨lead, upper⟩ : Segmented α).stack sep := rfl

def Segmented.flip (x : Segmented α) : Segmented α := ⟨x.lead, x.rest.reverse⟩

theorem stack_reverse (sep : α) (x : Segmented α) :
    (x.stack sep).reverse = x.flip.word sep := by
  obtain ⟨lead, upper⟩ := x
  induction upper with
  | nil => simp [Segmented.word, Segmented.flip]
  | cons s upper ih =>
    simp only [Segmented.word, Segmented.flip] at ih
    simp [Segmented.word, Segmented.flip, ih]

theorem separated_flip {sep : α} {x : Segmented α} :
    x.flip.Separated sep ↔ x.Separated sep := by
  simp [Segmented.Separated, Segmented.flip]

/-- An empty last segment disappears and glues `s` to the one before it. -/
def bridge (x : Segmented α) (s : List α) : Segmented α :=
  match x.rest with
  | [] :: [] => ⟨x.lead ++ s, []⟩
  | [] :: t :: upper => ⟨x.lead, (t ++ s) :: upper⟩
  | upper => ⟨x.lead, s :: upper⟩

def glueEmpty (x : Segmented α) : Segmented α :=
  (x.rest.foldl bridge ⟨x.lead, []⟩).flip

theorem foldl_bridge_of_full {rest : List (List α)} (h : ∀ s ∈ rest, s ≠ []) {x : Segmented α}
    (hx : ∀ s ∈ x.rest, s ≠ []) : rest.foldl bridge x = ⟨x.lead, rest.reverse ++ x.rest⟩ := by
  induction rest generalizing x with
  | nil => rfl
  | cons s rest ih =>
    have step : bridge x s = ⟨x.lead, s :: x.rest⟩ := by
      unfold bridge
      cases hrest : x.rest with
      | nil => rfl
      | cons t upper =>
        cases t with
        | nil => exact absurd rfl (hx [] (by simp [hrest]))
        | cons c t => rfl
    have next : ∀ t ∈ (⟨x.lead, s :: x.rest⟩ : Segmented α).rest, t ≠ [] :=
      List.forall_mem_cons.mpr ⟨h s (by simp), hx⟩
    rw [List.foldl_cons, step, ih (fun t ht => h t (List.mem_cons_of_mem s ht)) next]
    simp

theorem glueEmpty_of_full {x : Segmented α} (h : ∀ s ∈ x.rest, s ≠ []) : glueEmpty x = x := by
  rw [glueEmpty, foldl_bridge_of_full h (by simp)]
  simp [Segmented.flip]

section Marks
variable {sep mark : α}

def Unmarked (mark : α) (x : Segmented α) : Prop := ∀ s ∈ x.rest, ¬ [mark, mark] <+: s

theorem prefix_append_sep {s w : List α} (hs : ¬ [mark, mark] <+: s) (hne : sep ≠ mark) :
    ¬ [mark, mark] <+: s ++ sep :: w := by
  match s with
  | [] => simp [hne.symm]
  | [c] => simp [hne.symm]
  | c :: d :: s => simpa using hs

theorem not_infix_of_not_mem {w : List α} (h : sep ∉ w) : ¬ [sep, mark, mark] <:+: w :=
  fun hinf => h (hinf.subset (by simp))

theorem not_infix_append_cons {u w : List α} (hu : sep ∉ u) (hmark : ¬ [mark, mark] <+: w)
    (hw : ¬ [sep, mark, mark] <:+: w) : ¬ [sep, mark, mark] <:+: u ++ sep :: w := by
  induction u with
  | nil =>
    rw [List.nil_append, List.infix_cons_iff]
    rintro (hpre | hinf)
    · exact hmark (by simpa using hpre)
    · exact hw hinf
  | cons c u ih =>
    obtain ⟨hc, hu⟩ : sep ≠ c ∧ sep ∉ u := by simpa using hu
    rw [List.cons_append, List.infix_cons_iff]
    rintro (hpre | hinf)
    · exact hc (List.cons_prefix_cons.mp hpre).1
    · exact ih hu hinf

theorem not_infix_word (hne : sep ≠ mark) {x : Segmented α} (hsep : x.Separated sep)
    (hmark : Unmarked mark x) : ¬ [sep, mark, mark] <:+: x.word sep := by
  obtain ⟨lead, rest⟩ := x
  obtain ⟨hlead, hrest⟩ := hsep
  induction rest generalizing lead with
  | nil => simpa [Segmented.word] using not_infix_of_not_mem hlead
  | cons s rest ih =>
    have hs : ¬ [mark, mark] <+: s := hmark s (by simp)
    have tail := ih s (fun t ht => hmark t (by simp [ht])) (hrest s (by simp))
      (fun t ht => hrest t (by simp [ht]))
    refine not_infix_append_cons hlead ?_ tail
    cases rest with
    | nil => simpa using hs
    | cons t rest => exact prefix_append_sep hs hne

variable [DecidableEq α]

/-- Glue `s` to the segment before it while it begins with two marks. -/
def attach (mark : α) (lead : List α) : List (List α) → List α → Segmented α
  | [], s => if [mark, mark] <+: s then ⟨lead ++ s.drop 2, []⟩ else ⟨lead, [s]⟩
  | t :: upper, s =>
    if [mark, mark] <+: s then attach mark lead upper (t ++ s.drop 2)
    else ⟨lead, s :: t :: upper⟩

def glueMarked (mark : α) (x : Segmented α) : Segmented α :=
  (x.rest.foldl (fun y s => attach mark y.lead y.rest s) ⟨x.lead, []⟩).flip

theorem pass_marked (hne : sep ≠ mark) (stack s : List α) :
    pass [sep, mark, mark] stack (sep :: mark :: mark :: s) =
      pass [sep, mark, mark] stack s := by
  simp [push, hne.symm]

theorem pass_unmarked (hne : sep ≠ mark) (lead s : List α) (upper : List (List α))
    (hsep : (⟨lead, s :: upper⟩ : Segmented α).Separated sep)
    (hmark : Unmarked mark ⟨lead, s :: upper⟩) :
    pass [sep, mark, mark] ((⟨lead, upper⟩ : Segmented α).stack sep) (sep :: s) =
      (⟨lead, s :: upper⟩ : Segmented α).stack sep := by
  have hword := not_infix_word hne (separated_flip.mpr hsep)
    (fun t ht => hmark t (by simpa [Segmented.flip, or_comm] using ht))
  rw [← stack_reverse, stack_cons, List.reverse_append, List.reverse_reverse,
    List.reverse_cons, List.append_assoc, List.singleton_append] at hword
  rw [pass_of_absent hword]
  simp

theorem pass_attach (hne : sep ≠ mark) (lead s : List α) {upper : List (List α)}
    (hsep : (⟨lead, s :: upper⟩ : Segmented α).Separated sep)
    (hmark : Unmarked mark ⟨lead, upper⟩) :
    pass [sep, mark, mark] ((⟨lead, upper⟩ : Segmented α).stack sep) (sep :: s) =
        (attach mark lead upper s).stack sep ∧
      (attach mark lead upper s).Separated sep ∧ Unmarked mark (attach mark lead upper s) := by
  induction upper generalizing s with
  | nil =>
    by_cases hs : [mark, mark] <+: s
    · obtain ⟨s, rfl⟩ := hs
      have hs' : sep ∉ s := fun h => hsep.2 _ (List.mem_cons_self ..) (by simp [h])
      have hword : sep ∉ lead ++ s := by simp [hsep.1, hs']
      refine ⟨?_, ⟨by simpa [attach] using ⟨hsep.1, hs'⟩, by simp [attach]⟩,
        by simp [attach, Unmarked]⟩
      rw [List.cons_append, List.cons_append, List.nil_append, pass_marked hne, stack_nil,
        pass_of_absent (not_infix_of_not_mem (by simpa using hword))]
      simp [attach]
    · have hclean : Unmarked mark (⟨lead, [s]⟩ : Segmented α) := by simpa [Unmarked] using hs
      rw [attach, if_neg hs]
      exact ⟨pass_unmarked hne lead s _ hsep hclean, hsep, hclean⟩
  | cons t upper ih =>
    have hupper : Unmarked mark (⟨lead, upper⟩ : Segmented α) :=
      fun u hu => hmark u (by simp [hu])
    by_cases hs : [mark, mark] <+: s
    · obtain ⟨s, rfl⟩ := hs
      have hs' : sep ∉ s := fun h => hsep.2 _ (List.mem_cons_self ..) (by simp [h])
      have hrest : ∀ u ∈ t :: upper, sep ∉ u := fun u hu => hsep.2 u (List.mem_cons_of_mem _ hu)
      have hglued : (⟨lead, (t ++ s) :: upper⟩ : Segmented α).Separated sep :=
        ⟨hsep.1, List.forall_mem_cons.mpr
          ⟨by simpa using ⟨hrest t (by simp), hs'⟩, fun u hu => hrest u (by simp [hu])⟩⟩
      have stacked := pass_unmarked hne lead t upper ⟨hsep.1, hrest⟩ hmark
      have step := ih _ hglued hupper
      rw [attach, if_pos (by simp)]
      refine ⟨?_, step.2⟩
      rw [List.cons_append, List.cons_append, List.nil_append, pass_marked hne, ← stacked,
        ← pass_append]
      simpa using step.1
    · have hclean : Unmarked mark (⟨lead, s :: t :: upper⟩ : Segmented α) :=
        List.forall_mem_cons.mpr ⟨hs, hmark⟩
      rw [attach, if_neg hs]
      exact ⟨pass_unmarked hne lead s _ hsep hclean, hsep, hclean⟩

theorem pass_rest_marked (hne : sep ≠ mark) (rest : List (List α)) (x : Segmented α)
    (hsep : x.Separated sep) (hrest : ∀ s ∈ rest, sep ∉ s) (hmark : Unmarked mark x) :
    pass [sep, mark, mark] (x.stack sep) (rest.flatMap (sep :: ·)) =
        (rest.foldl (fun y s => attach mark y.lead y.rest s) x).stack sep ∧
      (rest.foldl (fun y s => attach mark y.lead y.rest s) x).Separated sep := by
  induction rest generalizing x with
  | nil => exact ⟨rfl, hsep⟩
  | cons s rest ih =>
    obtain ⟨stacked, hsep', hmark'⟩ := pass_attach hne x.lead s
      ⟨hsep.1, List.forall_mem_cons.mpr ⟨hrest s (by simp), hsep.2⟩⟩ hmark
    have step := ih _ hsep' (fun t ht => hrest t (by simp [ht])) hmark'
    rw [← stacked] at step
    simpa [← pass_append] using step

/-- Deleting `sep mark mark` everywhere glues the marked segments. -/
theorem cut_deleteAll_marked (hne : sep ≠ mark) (w : List α) :
    cut sep (deleteAll [sep, mark, mark] w) = glueMarked mark (cut sep w) := by
  obtain ⟨hlead, hrest⟩ := cut_separated sep w
  have start : pass [sep, mark, mark] [] (cut sep w).lead =
      (⟨(cut sep w).lead, []⟩ : Segmented α).stack sep := by
    simpa using pass_of_clean (not_infix_of_not_mem hlead)
  obtain ⟨run, hsep⟩ := pass_rest_marked hne (cut sep w).rest
    ⟨(cut sep w).lead, []⟩ ⟨hlead, by simp⟩ hrest (by simp [Unmarked])
  have hpass := word_cut sep w
  rw [Segmented.word] at hpass
  rw [deleteAll_eq_pass (by simp)]
  conv_lhs => rw [← hpass, pass_append, start, run, stack_reverse]
  exact cut_word (separated_flip.mpr hsep)

end Marks

section Empties
variable {sep : α}

theorem head_stack_ne (x : Segmented α) (hsep : x.Separated sep)
    (hx : ∀ upper, x.rest ≠ [] :: upper) : ¬ [sep] <+: x.stack sep := by
  obtain ⟨lead, upper⟩ := x
  intro h
  cases upper with
  | nil =>
    have : sep ∈ lead.reverse := h.subset (by simp)
    exact hsep.1 (by simpa using this)
  | cons s upper =>
    obtain ⟨c, s', hs⟩ : ∃ c s', s.reverse = c :: s' :=
      List.exists_cons_of_ne_nil (by simpa using fun hs => hx upper (by rw [hs]))
    rw [stack_cons, hs, List.cons_append, List.cons_prefix_cons] at h
    exact hsep.2 s (by simp) (by simpa [h.1] using List.mem_reverse.mp (hs ▸ List.mem_cons_self))

variable [DecidableEq α]

theorem pass_separated {s : List α} (hs : sep ∉ s) (stack : List α) :
    pass [sep, sep] stack s = s.reverse ++ stack := by
  induction s generalizing stack with
  | nil => rfl
  | cons c s ih =>
    obtain ⟨hc, hs⟩ : sep ≠ c ∧ sep ∉ s := by simpa using hs
    rw [pass_cons, show push [sep, sep] stack c = c :: stack by simp [push, hc], ih hs]
    simp

theorem pass_bridge {x : Segmented α} {s : List α} (hsep : x.Separated sep) (hs : sep ∉ s) :
    pass [sep, sep] (x.stack sep) (sep :: s) = (bridge x s).stack sep ∧
      (bridge x s).Separated sep := by
  obtain ⟨lead, upper⟩ := x
  obtain ⟨hlead, hupper⟩ := hsep
  match upper, hupper with
  | [] :: [], _ =>
    refine ⟨?_, by simpa [bridge] using ⟨hlead, hs⟩, by simp [bridge]⟩
    simp [push, bridge, pass_separated hs]
  | [] :: t :: upper, hupper =>
    obtain ⟨ht, hupper⟩ := List.forall_mem_cons.mp (List.forall_mem_cons.mp hupper).2
    refine ⟨?_, hlead, List.forall_mem_cons.mpr ⟨by simpa using ⟨ht, hs⟩, hupper⟩⟩
    simp [push, bridge, pass_separated hs]
  | [], hupper =>
    have top := head_stack_ne ⟨lead, []⟩ ⟨hlead, hupper⟩ (by simp)
    refine ⟨?_, hlead, by simpa [bridge] using hs⟩
    rw [pass_cons, push, if_neg (by simpa using top), pass_separated hs]
    rfl
  | (c :: t) :: upper, hupper =>
    have top := head_stack_ne ⟨lead, (c :: t) :: upper⟩ ⟨hlead, hupper⟩ (by simp)
    refine ⟨?_, hlead, List.forall_mem_cons.mpr ⟨hs, hupper⟩⟩
    rw [pass_cons, push, if_neg (by simpa using top), pass_separated hs]
    rfl

theorem pass_rest_empty (rest : List (List α)) (x : Segmented α)
    (hsep : x.Separated sep) (hrest : ∀ s ∈ rest, sep ∉ s) :
    pass [sep, sep] (x.stack sep) (rest.flatMap (sep :: ·)) = (rest.foldl bridge x).stack sep ∧
      (rest.foldl bridge x).Separated sep := by
  induction rest generalizing x with
  | nil => exact ⟨rfl, hsep⟩
  | cons s rest ih =>
    obtain ⟨stacked, hsep'⟩ := pass_bridge hsep (hrest s (by simp))
    have step := ih _ hsep' fun t ht => hrest t (by simp [ht])
    rw [← stacked] at step
    simpa [← pass_append] using step

/-- Deleting `sep sep` everywhere lets the empty segments glue their neighbours. -/
theorem cut_deleteAll_empty (w : List α) :
    cut sep (deleteAll [sep, sep] w) = glueEmpty (cut sep w) := by
  obtain ⟨hlead, hrest⟩ := cut_separated sep w
  have start : pass [sep, sep] [] (cut sep w).lead =
      (⟨(cut sep w).lead, []⟩ : Segmented α).stack sep := by
    simpa using pass_separated hlead []
  obtain ⟨run, hsep⟩ := pass_rest_empty (cut sep w).rest
    ⟨(cut sep w).lead, []⟩ ⟨hlead, by simp⟩ hrest
  have hpass := word_cut sep w
  rw [Segmented.word] at hpass
  rw [deleteAll_eq_pass (by simp)]
  conv_lhs => rw [← hpass, pass_append, start, run, stack_reverse]
  exact cut_word (separated_flip.mpr hsep)

end Empties

end RsServe.SegmentGluing
