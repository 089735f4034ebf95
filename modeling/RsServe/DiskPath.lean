import RsServe.LexicalPath
import RsServe.Request

/-! make_disk_path: the two rewriting loops over the request path, and where the
path built from it leads below the user's storage root. -/

namespace RsServe.DiskPath
open CString SegmentGluing PatternDeletion

/-- Both loops over the path, in place: every `/..` goes, then every `//`. -/
def rewritePath (path : Bytes) : Bytes :=
  deleteAll (str "//") (deleteAll (str "/..") path)

/-- sprintf(*storage_root, "/home/%s/%s", user, RS_HOME_SERVE_ROOT) -/
def storageRoot (cfg : Config) (user : Bytes) : Bytes :=
  str "/home/" ++ user ++ slash :: cfg.homeServeRoot

structure Target where
  diskPath : Bytes
  storageRoot : Bytes
  /-- The request path is rewritten in place; later readers see this one. -/
  path : Bytes
deriving DecidableEq

def makeDiskPath (cfg : Config) (user path : Bytes) : Target :=
  let path' := rewritePath path
  ⟨storageRoot cfg user ++ path', storageRoot cfg user, path'⟩

/-- The raw path read segment by segment: a segment that begins with `..` loses
these dots and is glued to the text before it; after that every empty segment
glues its two neighbours together. -/
def glued (path : Bytes) : Segmented UInt8 := glueEmpty (glueMarked dot (cut slash path))

theorem cut_rewritePath (path : Bytes) : cut slash (rewritePath path) = glued path := by
  rw [rewritePath, show str "//" = [slash, slash] by decide,
    show str "/.." = [slash, dot, dot] by decide, cut_deleteAll_empty,
    cut_deleteAll_marked (by decide)]
  rfl

theorem rewritePath_of_clean {path : Bytes} (hdots : ¬ str "/.." <:+: path)
    (hslashes : ¬ str "//" <:+: path) : rewritePath path = path := by
  rw [rewritePath, deleteAll_of_not_infix (by decide) hdots,
    deleteAll_of_not_infix (by decide) hslashes]

theorem rewritePath_eq_self_iff {path : Bytes} :
    rewritePath path = path ↔ ¬ str "/.." <:+: path ∧ ¬ str "//" <:+: path := by
  refine ⟨fun same => ?_, fun h => rewritePath_of_clean h.1 h.2⟩
  have len := congrArg List.length same
  have second := length_deleteLoop_le (str "//") (deleteAll (str "/..") path).length
    (deleteAll (str "/..") path)
  have undotted : ¬ str "/.." <:+: path := by
    intro dotted
    have shorter := length_deleteAll_lt (by decide) dotted
    rw [rewritePath, deleteAll] at len
    omega
  have kept : deleteAll (str "/..") path = path := deleteAll_of_not_infix (by decide) undotted
  refine ⟨undotted, fun doubled => ?_⟩
  have shorter := length_deleteAll_lt (by decide) doubled
  rw [rewritePath, kept] at len
  omega

def resolved (path : Bytes) : List Bytes :=
  LexicalPath.resolve (str ".") (str "..") (components path)

def Below (dir path : Bytes) : Prop := resolved dir <+: resolved path

instance (dir path : Bytes) : Decidable (Below dir path) :=
  inferInstanceAs (Decidable (_ <+: _))

def neverClimbs (segments : List Bytes) : Bool :=
  LexicalPath.staysBelow (str ".") (str "..") 0 (segments.filter (· ≠ []))

/-- `path` denotes `root` or something below it: it goes through `root` itself,
not through a sibling, and no `..` climbs above it on the way. -/
def Confined (root path : Bytes) : Prop :=
  Below root path ∧
    ∃ rel, components path = components root ++ rel ∧ neverClimbs rel

theorem components_home (user x : Bytes) :
    components (str "/home/" ++ user ++ slash :: x) =
      str "home" :: components user ++ components x := by
  have split : str "/home/" ++ user ++ slash :: x =
      [] ++ slash :: (str "home" ++ slash :: (user ++ slash :: x)) := by
    rw [show str "/home/" = slash :: (str "home" ++ [slash]) by decide]
    simp
  have home : components (str "home") = [str "home"] := by decide
  have empty : components [] = [] := by decide
  rw [split, components_append_slash, components_append_slash, components_append_slash, empty,
    home]
  simp

theorem components_storageRoot (cfg : Config) (user : Bytes) :
    components (storageRoot cfg user) = str "home" :: components user ++ [cfg.homeServeRoot] := by
  rw [storageRoot, components_home,
    components_of_not_mem cfg.plainRoot.not_mem cfg.plainRoot.ne_nil]

theorem cut_append_left {r : Bytes} (hr : slash ∉ r) (w : Bytes) :
    cut slash (r ++ w) = ⟨r ++ (cut slash w).lead, (cut slash w).rest⟩ := by
  have hsep := cut_separated slash w
  have joined : (⟨r ++ (cut slash w).lead, (cut slash w).rest⟩ : Segmented UInt8).Separated
      slash := ⟨by simpa using ⟨hr, hsep.1⟩, hsep.2⟩
  have hword : (⟨r ++ (cut slash w).lead, (cut slash w).rest⟩ : Segmented UInt8).word slash =
      r ++ w := by
    conv_rhs => rw [← word_cut slash w]
    simp [Segmented.word]
  rw [← hword, cut_word joined]

/-- Where the disk path leads, read off the raw path: what is glued to the text
before the first slash ends up in the name of the storage root. -/
def location (cfg : Config) (user path : Bytes) : List Bytes :=
  str "home" :: components user ++
    (cfg.homeServeRoot ++ (glued path).lead) :: (glued path).rest.filter (· ≠ [])

theorem components_diskPath (cfg : Config) (user path : Bytes) :
    components (makeDiskPath cfg user path).diskPath = location cfg user path := by
  have hroot : storageRoot cfg user ++ rewritePath path =
      str "/home/" ++ user ++ slash :: (cfg.homeServeRoot ++ rewritePath path) := by
    simp [storageRoot]
  rw [makeDiskPath, hroot, components_home, components_cut (cfg.homeServeRoot ++ _),
    cut_append_left cfg.plainRoot.not_mem, cut_rewritePath]
  simp [location, cfg.plainRoot.ne_nil]

/-- The disk path stays in the storage root exactly when gluing leaves nothing
before the first slash and no `..` that climbs. -/
theorem makeDiskPath_confined_iff (cfg : Config) (user path : Bytes) :
    Confined (storageRoot cfg user) (makeDiskPath cfg user path).diskPath ↔
      (glued path).lead = [] ∧ neverClimbs (glued path).rest := by
  have hroot := components_storageRoot cfg user
  have hdisk := components_diskPath cfg user path
  constructor
  · intro h
    cases h.2 with
    | intro rel hrel =>
      have same : cfg.homeServeRoot ++ (glued path).lead = cfg.homeServeRoot ∧
          (glued path).rest.filter (· ≠ []) = rel := by
        have := hdisk.symm.trans (hrel.1.trans (congrArg (· ++ rel) hroot))
        simpa [location] using this
      refine ⟨by simpa using same.1, ?_⟩
      rw [neverClimbs, same.2]
      have climbs := hrel.2
      rw [neverClimbs, ← same.2] at climbs
      simpa [← same.2] using climbs
  · intro h
    have hrel : components (makeDiskPath cfg user path).diskPath =
        components (storageRoot cfg user) ++ (glued path).rest.filter (· ≠ []) := by
      rw [hdisk, hroot, location, h.1]
      simp
    refine ⟨?_, _, hrel, ?_⟩
    · rw [Below, resolved, resolved, hrel]
      exact LexicalPath.resolve_prefix_of_staysBelow h.2
    · simpa [neverClimbs] using h.2

theorem makeDiskPath_escapes :
    (makeDiskPath defaultConfig (str "me") (str "/.//./secret")).diskPath =
        str "/home/me/storage/../secret" ∧
      ¬ Confined (storageRoot defaultConfig (str "me"))
        (makeDiskPath defaultConfig (str "me") (str "/.//./secret")).diskPath := by
  refine ⟨by decide, fun h => ?_⟩
  exact absurd h.1 (by decide)

/-- Likewise the slash that separates the path from the storage root can go. -/
example : (makeDiskPath defaultConfig (str "me") (str "//x")).diskPath =
    str "/home/me/storagex" := by decide

end RsServe.DiskPath
