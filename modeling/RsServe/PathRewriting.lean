import RsServe.DiskPath
import RsServe.GluedNames

/-! Which names of a raw path are still those of the path as make_disk_path rewrites it. -/

namespace RsServe.PathRewriting
open CString DiskPath SegmentGluing GluedNames

def remaining (path : Bytes) : List Bytes := (components path).filter (· ≠ str "..")

structure Faithful (path : Bytes) : Prop where
  names : components (rewritePath path) = remaining path
  clean : str ".." ∉ components path → ¬ str "//" <:+: path → rewritePath path = path

/-- No other segment begins with `..`, and once those are dropped, no name follows another
one over an even number of slashes. -/
def Unglued (path : Bytes) : Prop :=
  (∀ s ∈ (cut slash path).rest, str ".." <+: s → s = str "..") ∧
    Apart false false ((cut slash path).rest.filter (· ≠ str ".."))

instance (path : Bytes) : Decidable (Unglued path) := inferInstanceAs (Decidable (_ ∧ _))

/-- Where a path leads below the storage root: a first name behind an even number of slashes
becomes part of the root's name, and of the other ones a `.` does not count. -/
def place (path : Bytes) : Bytes × List Bytes :=
  let first := detached false ((cut slash path).rest.filter (· ≠ str ".."))
  (first, ((remaining path).drop (if first = [] then 0 else 1)).filter (· ≠ str "."))

variable {path : Bytes}

theorem cut_of_absolute (h : path.head? = some slash) : cut slash path = ⟨[], (cut slash path).rest⟩ := by
  cases path with
  | nil => simp at h
  | cons c rest =>
    have hc : c = slash := by simpa using h
    rw [hc, cut_cons_self]

theorem remaining_eq (h : path.head? = some slash) :
    remaining path = ((cut slash path).rest.filter (· ≠ [])).filter (· ≠ str "..") := by
  rw [remaining, components_cut, cut_of_absolute h]
  rfl

theorem components_rewritePath (path : Bytes) :
    components (rewritePath path) = Segmented.names (glued path) := by
  rw [components_cut, cut_rewritePath]
  rfl

theorem names_iff (h : path.head? = some slash) :
    components (rewritePath path) = remaining path ↔ Unglued path := by
  rw [components_rewritePath, remaining_eq h, glued, cut_of_absolute h]
  exact names_glued_iff dot _

theorem Unglued.rewritePath_eq (h : Unglued path)
    (hdots : str ".." ∉ components path) (hslashes : ¬ str "//" <:+: path) :
    rewritePath path = path := by
  refine rewritePath_of_clean ?_ hslashes
  have unmarked : Unmarked dot (cut slash path) := by
    intro s hs hmark
    have bare := h.1 s hs hmark
    refine hdots ?_
    rw [components_cut, List.mem_filter]
    exact ⟨by simp [← bare, hs], by decide⟩
  have absent := not_infix_word (by decide) (cut_separated slash path) unmarked
  rwa [word_cut] at absent

theorem faithful_iff (h : path.head? = some slash) : Faithful path ↔ Unglued path := by
  refine ⟨fun faithful => (names_iff h).1 faithful.names, fun unglued => ?_⟩
  exact ⟨(names_iff h).2 unglued, unglued.rewritePath_eq⟩

theorem glued_eq_place (h : path.head? = some slash) (hglue : Unglued path) :
    place path =
      ((glued path).lead, ((glued path).rest.filter (· ≠ [])).filter (· ≠ str ".")) := by
  have hglued : glued path = glueEmpty ⟨[], (cut slash path).rest.filter (· ≠ str "..")⟩ := by
    rw [glued, cut_of_absolute h]
    exact congrArg glueEmpty (glueMarked_of_bare dot hglue.1)
  have hlead : (glued path).lead = detached false ((cut slash path).rest.filter (· ≠ str "..")) := by
    rw [hglued]
    exact lead_glueEmpty hglue.2
  have hnames : remaining path = Segmented.names (glued path) :=
    ((names_iff h).2 hglue).symm.trans (components_rewritePath path)
  rw [place, ← hlead, hnames, Segmented.names]
  by_cases hempty : (glued path).lead = []
  · simp [hempty]
  · simp [hempty]

theorem up_not_mem_rest (h : path.head? = some slash) (hglue : Unglued path) :
    str ".." ∉ (glued path).rest.filter (· ≠ []) := by
  intro hmem
  have kept : str ".." ∈ remaining path := by
    rw [← (names_iff h).2 hglue, components_rewritePath]
    exact (List.sublist_cons_self _ _).filter _ |>.mem hmem
  simp [remaining] at kept

theorem root_append_plain (cfg : Config) (s : Bytes) :
    cfg.homeServeRoot ++ s ≠ str "." ∧ cfg.homeServeRoot ++ s ≠ str ".." := by
  have root := cfg.plainRoot
  cases h : cfg.homeServeRoot with
  | nil => exact absurd h root.ne_nil
  | cons c rest =>
    rw [h] at root
    refine ⟨fun same => ?_, fun same => ?_⟩
    · have hc := List.cons.inj same
      have hrest := List.append_eq_nil_iff.1 hc.2
      exact root.ne_here (by rw [hc.1, hrest.1]; rfl)
    · have hc := List.cons.inj same
      cases rest with
      | nil => exact root.ne_here (by rw [hc.1]; rfl)
      | cons d rest =>
        have hd := List.cons.inj hc.2
        have hrest := List.append_eq_nil_iff.1 hd.2
        exact root.ne_up (by rw [hc.1, hd.1, hrest.1]; rfl)

theorem resolved_diskPath (cfg : Config) (user : Bytes) (h : path.head? = some slash)
    (hglue : Unglued path) :
    resolved (makeDiskPath cfg user path).diskPath =
      resolved (str "/home/" ++ user) ++
        (cfg.homeServeRoot ++ (place path).1) :: (place path).2 := by
  have root := root_append_plain cfg (glued path).lead
  have below : str ".." ∉
      (cfg.homeServeRoot ++ (glued path).lead) :: (glued path).rest.filter (· ≠ []) := by
    intro hmem
    rcases List.mem_cons.1 hmem with same | hmem
    · exact root.2 same.symm
    · exact up_not_mem_rest h hglue hmem
  have hbase : components (str "/home/" ++ user) = str "home" :: components user := by
    have split : str "/home/" ++ user = [] ++ slash :: (str "home" ++ slash :: user) := by
      rw [show str "/home/" = slash :: (str "home" ++ [slash]) by decide]
      simp
    rw [split, components_append_slash, components_append_slash]
    rfl
  rw [resolved, resolved, components_diskPath, location, hbase, LexicalPath.resolve_append below,
    glued_eq_place h hglue]
  simp [root.1]

structure DropsOnly (cfg : Config) (user path other : Bytes) : Prop where
  here : Faithful path
  there : Faithful other
  apart : remaining path ≠ remaining other →
    resolved (makeDiskPath cfg user path).diskPath ≠ resolved (makeDiskPath cfg user other).diskPath

theorem makeDiskPath_dropsOnly_iff (cfg : Config) (user : Bytes) {path other : Bytes}
    (hpath : path.head? = some slash) (hother : other.head? = some slash) :
    DropsOnly cfg user path other ↔
      Unglued path ∧ Unglued other ∧
        (remaining path ≠ remaining other → place path ≠ place other) := by
  have same_iff : Unglued path → Unglued other →
      (resolved (makeDiskPath cfg user path).diskPath =
          resolved (makeDiskPath cfg user other).diskPath ↔ place path = place other) := by
    intro hglue hglue'
    rw [resolved_diskPath cfg user hpath hglue, resolved_diskPath cfg user hother hglue',
      Prod.ext_iff]
    simp
  constructor
  · intro h
    have hglue := (faithful_iff hpath).1 h.here
    have hglue' := (faithful_iff hother).1 h.there
    exact ⟨hglue, hglue', fun differ same => h.apart differ ((same_iff hglue hglue').2 same)⟩
  · intro h
    refine ⟨(faithful_iff hpath).2 h.1, (faithful_iff hother).2 h.2.1, fun differ same => ?_⟩
    exact h.2.2 differ ((same_iff h.1 h.2.1).1 same)

theorem makeDiskPath_dropsOnly_sample :
    DropsOnly defaultConfig (str "me") (str "/a/../b") (str "//c/./d") :=
  (makeDiskPath_dropsOnly_iff defaultConfig (str "me") (by decide) (by decide)).2 (by decide)

theorem hidden_name_glued :
    (str "/foo/..bar").head? = some slash ∧
      components (makeDiskPath defaultConfig (str "me") (str "/foo/..bar")).path = [str "foobar"] ∧
      ¬ DropsOnly defaultConfig (str "me") (str "/foo/..bar") (str "/foo/..bar") := by
  refine ⟨by decide, by decide, fun h => ?_⟩
  exact absurd h.here.names (by decide)

end RsServe.PathRewriting
