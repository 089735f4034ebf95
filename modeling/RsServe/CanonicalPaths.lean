import RsServe.Dirname
import RsServe.DiskPath

/-! Request paths that are left as they are: what the disk path is then, and the directory
part. -/

namespace RsServe.CanonicalPaths
open CString SegmentGluing PatternDeletion DiskPath Dirname

/-- A path of a document whose segments are names, and none begins with two dots. -/
structure Canonical (path : Bytes) : Prop where
  starts : path.head? = some slash
  ends : path.getLast? ≠ some slash
  segments : ∀ segment ∈ (cut slash path).rest,
    segment ≠ [] ∧ segment ≠ str "." ∧ ¬ str ".." <+: segment

def pathOf (names : List Bytes) : Bytes := names.flatMap (slash :: ·)

variable {path : Bytes}

theorem Canonical.lead (h : Canonical path) : (cut slash path).lead = [] := by
  cases path with
  | nil => rfl
  | cons c path =>
    have first : c = slash := by simpa using h.starts
    rw [first, cut_cons_self]

theorem Canonical.pathOf_rest (h : Canonical path) : pathOf (cut slash path).rest = path := by
  have whole := word_cut slash path
  rw [Segmented.word, h.lead, List.nil_append] at whole
  exact whole

theorem Canonical.components_eq (h : Canonical path) : components path = (cut slash path).rest := by
  rw [components_cut, h.lead]
  have named : (cut slash path).rest.filter (· ≠ []) = (cut slash path).rest :=
    List.filter_eq_self.2 fun segment hsegment => by simpa using (h.segments segment hsegment).1
  simpa using named

theorem Canonical.pathOf_components (h : Canonical path) : pathOf (components path) = path := by
  rw [h.components_eq, h.pathOf_rest]

theorem Canonical.plainName (h : Canonical path) {name : Bytes} (hname : name ∈ components path) :
    PlainName name := by
  rw [h.components_eq] at hname
  have clean := h.segments name hname
  refine ⟨clean.1, (cut_separated slash path).2 name hname, clean.2.1, fun up => ?_⟩
  exact clean.2.2 (up ▸ List.prefix_refl _)

theorem Canonical.components_ne_nil (h : Canonical path) : components path ≠ [] := by
  intro none
  have empty := h.pathOf_components
  rw [none, pathOf, List.flatMap_nil] at empty
  have first := h.starts
  rw [← empty] at first
  cases first

theorem Canonical.split (h : Canonical path) : ∃ dirs last, components path = dirs ++ [last] :=
  ⟨_, _, (List.dropLast_append_getLast h.components_ne_nil).symm⟩

theorem Canonical.rewritePath_eq (h : Canonical path) : rewritePath path = path := by
  have marks : Unmarked dot (cut slash path) := fun segment hsegment => (h.segments segment hsegment).2.2
  have undotted : ¬ str "/.." <:+: path := by
    have clean := not_infix_word (by decide) (cut_separated slash path) marks
    rwa [word_cut] at clean
  have kept : deleteAll (str "/..") path = path := deleteAll_of_not_infix (by decide) undotted
  have full : ∀ segment ∈ (cut slash path).rest, segment ≠ [] :=
    fun segment hsegment => (h.segments segment hsegment).1
  have same : cut slash (deleteAll [slash, slash] path) = cut slash path := by
    rw [cut_deleteAll_empty, glueEmpty_of_full full]
  rw [rewritePath, kept, show str "//" = [slash, slash] by decide, ← word_cut slash (deleteAll _ _),
    same, word_cut]

theorem components_append {a b : Bytes} (h : b.head? = some slash) :
    components (a ++ b) = components a ++ components b := by
  cases b with
  | nil => cases h
  | cons c b =>
    have first : c = slash := by simpa using h
    have empty : components [] = [] := by decide
    rw [first, components_append_slash, ← List.nil_append (slash :: b), components_append_slash,
      empty, List.nil_append]

theorem components_pathOf {names : List Bytes} (h : ∀ name ∈ names, PlainName name) :
    components (pathOf names) = names := by
  induction names with
  | nil => decide
  | cons name names ih =>
    have rest := ih fun n hn => h n (List.mem_cons_of_mem name hn)
    have plain := h name (by simp)
    have empty : components [] = [] := by decide
    have single := components_of_not_mem plain.not_mem plain.ne_nil
    cases names with
    | nil =>
      rw [pathOf, List.flatMap_cons, List.flatMap_nil, List.append_nil, ← List.nil_append (_ :: _),
        components_append_slash, empty, single, List.nil_append]
    | cons next names =>
      have head : (pathOf (next :: names)).head? = some slash := by simp [pathOf]
      have split : pathOf (name :: next :: names) = [] ++ slash :: (name ++ pathOf (next :: names)) := by
        simp [pathOf]
      rw [split, components_append_slash, components_append head, rest, empty, single]
      rfl

theorem pathOf_concat (dirs : List Bytes) (last : Bytes) :
    pathOf (dirs ++ [last]) = pathOf dirs ++ slash :: last := by
  simp [pathOf]

theorem getLast_pathOf {names : List Bytes} (h : ∀ name ∈ names, PlainName name)
    (hne : pathOf names ≠ []) : (pathOf names).getLast hne ≠ slash := by
  induction names using List.reverseRecOn with
  | nil => exact absurd rfl hne
  | append_singleton dirs last _ =>
    have plain := h last (by simp)
    have tail : pathOf (dirs ++ [last]) = (pathOf dirs ++ [slash]) ++ last := by
      simp [pathOf_concat]
    have same : (pathOf (dirs ++ [last])).getLast hne = last.getLast plain.ne_nil := by
      rw [List.getLast_congr hne (by simp) tail,
        List.getLast_append_of_ne_nil _ plain.ne_nil]
    rw [same]
    exact getLast_ne_slash plain.ne_nil plain.not_mem

theorem dirname_pathOf {dirs : List Bytes} {last : Bytes}
    (h : ∀ name ∈ dirs ++ [last], PlainName name) :
    dirname (pathOf (dirs ++ [last])) ≠ str "." ∧
      components (dirname (pathOf (dirs ++ [last]))) = dirs := by
  have plain := h last (by simp)
  have above : ∀ name ∈ dirs, PlainName name := fun name hname => h name (by simp [hname])
  rw [pathOf_concat]
  by_cases hdirs : dirs = []
  · rw [hdirs, show pathOf [] = [] by rfl, List.nil_append, dirname_root plain.ne_nil plain.not_mem]
    exact ⟨by decide, by decide⟩
  · have hne : pathOf dirs ≠ [] := by
      obtain ⟨name, names, rfl⟩ := List.exists_cons_of_ne_nil hdirs
      simp [pathOf]
    rw [dirname_below hne (getLast_pathOf above hne) plain.ne_nil plain.not_mem]
    refine ⟨fun same => ?_, components_pathOf above⟩
    have names := components_pathOf above
    rw [same, show components (str ".") = [str "."] by decide] at names
    exact (above (str ".") (by simp [← names])).ne_here rfl

def relativeOf (names : List Bytes) : Bytes := (pathOf names).drop 1

theorem dirname_relativeOf {dirs : List Bytes} {last : Bytes}
    (h : ∀ name ∈ dirs ++ [last], PlainName name) :
    dirname (relativeOf (dirs ++ [last])) = if dirs = [] then str "." else relativeOf dirs := by
  have plain := h last (by simp)
  by_cases hdirs : dirs = []
  · rw [if_pos hdirs, hdirs, relativeOf]
    have single : (pathOf ([] ++ [last])).drop 1 = last := by simp [pathOf]
    rw [single, dirname_name plain.ne_nil plain.not_mem]
  · have above : ∀ name ∈ dirs, PlainName name := fun name hname => h name (by simp [hname])
    obtain ⟨name, names, rfl⟩ := List.exists_cons_of_ne_nil hdirs
    have first := above name (by simp)
    have split : relativeOf (name :: names ++ [last]) = relativeOf (name :: names) ++ slash :: last := by
      simp [relativeOf, pathOf]
    have hne : relativeOf (name :: names) ≠ [] := by simp [relativeOf, pathOf, first.ne_nil]
    have ends : (relativeOf (name :: names)).getLast hne ≠ slash := by
      have whole := getLast_pathOf above (by simp [pathOf])
      have same : (pathOf (name :: names)).getLast (by simp [pathOf]) =
          (relativeOf (name :: names)).getLast hne := by
        simp only [relativeOf]
        rw [List.getLast_drop]
      rwa [same] at whole
    rw [split, dirname_below hne ends plain.ne_nil plain.not_mem, if_neg (by simp)]

theorem components_relativeOf {names : List Bytes} (h : ∀ name ∈ names, PlainName name) :
    components (relativeOf names) = names := by
  cases names with
  | nil => decide
  | cons name names =>
    have whole := components_pathOf h
    have split : pathOf (name :: names) = [] ++ slash :: relativeOf (name :: names) := by
      simp [relativeOf, pathOf]
    have empty : components [] = [] := by decide
    rw [split, components_append_slash, empty, List.nil_append] at whole
    exact whole

theorem relativeOf_relative {names : List Bytes} (h : ∀ name ∈ names, PlainName name) :
    (relativeOf names).head? ≠ some slash := by
  cases names with
  | nil => simp [relativeOf, pathOf]
  | cons name names =>
    have plain := h name (by simp)
    cases name with
    | nil => exact absurd rfl plain.ne_nil
    | cons c name =>
      have hc : c ≠ slash := fun same => plain.not_mem (by simp [same])
      simpa [relativeOf, pathOf] using hc

end RsServe.CanonicalPaths
