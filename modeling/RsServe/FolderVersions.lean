import RsServe.Dispatch

/-! What the version of a directory tells of its entries: their versions, in the order of
readdir, and nothing of their names. -/

namespace RsServe.FolderVersions
open CString NameTree Kernel Attributes Storage Dispatch

theorem hexDigit_injective : ∀ m < 16, ∀ n < 16, hexDigit m = hexDigit n → m = n := by decide

theorem hexString_injective {a b : Bytes} (h : hexString a = hexString b) : a = b := by
  induction a generalizing b with
  | nil =>
    cases b with
    | nil => rfl
    | cons d b => simp [hexString] at h
  | cons c a ih =>
    cases b with
    | nil => simp [hexString] at h
    | cons d b =>
      simp only [hexString, List.flatMap_cons, List.cons_append, List.nil_append,
        List.cons.injEq] at h
      have hc := c.toNat_lt
      have hd := d.toNat_lt
      have high := hexDigit_injective (c.toNat / 16) (by omega) (d.toNat / 16) (by omega) h.1
      have low := hexDigit_injective (c.toNat % 16) (by omega) (d.toNat % 16) (by omega) h.2.1
      have same : c = d := UInt8.toNat_inj.1 (by omega)
      rw [same, ih h.2.2]

/-- No entry has a version in its attributes that get_xattr can read, nor has anything below
one. get_etag hashes forty bytes of such a version, for which get_xattr allocated 32. -/
def Unstored (entries : List (Bytes × Node)) : Prop := ∀ entry ∈ entries, Uncached entry.2

section Length
variable {sha1 : Bytes → Bytes} (hsha : ∀ m, (sha1 m).length = 20)
include hsha

theorem length_version (m : Bytes) : (version sha1 m).length = 40 := by
  rw [version, length_hexString, hsha]

theorem length_etagNode {n : Node} (h : Uncached n) : (etagNode sha1 n).1.length = 40 := by
  rcases etagNode_cases sha1 n with cached | ⟨m, hm⟩
  · have none := h [] n.kind (by cases n <;> rfl)
    rw [none] at cached
    cases cached
  · rw [hm, length_version hsha]

end Length

def entryEtags (sha1 : Bytes → Bytes) (entries : List (Bytes × Node)) : List Bytes :=
  entries.map fun entry => (etagNode sha1 entry.2).1

inductive EtagSource where
  | attribute (etag : Bytes)
  | children (etags : List Bytes)

def etagSource (sha1 : Bytes → Bytes) (entries : List (Bytes × Node)) (x : Xattrs) : EtagSource :=
  match getXattr x.etag 41 with
  | some etag => .attribute etag
  | none => .children (entryEtags sha1 entries)

def Collides (sha1 : Bytes → Bytes) (m m' : Bytes) : Prop := m ≠ m' ∧ sha1 m = sha1 m'

def hashedText (sha1 : Bytes → Bytes) (entries : List (Bytes × Node)) : Bytes :=
  (etagEntries sha1 entries).1

theorem etagNode_folder (sha1 : Bytes → Bytes) (entries : List (Bytes × Node)) (x : Xattrs) :
    (etagNode sha1 (.branch entries x)).1 =
      (getXattr x.etag 41).getD (version sha1 (hashedText sha1 entries)) := by
  rw [etagNode]
  cases getXattr x.etag 41 <;> rfl

section Entries
variable {sha1 : Bytes → Bytes} (hsha : ∀ m, (sha1 m).length = 20)
  {entries entries' : List (Bytes × Node)} (h : Unstored entries) (h' : Unstored entries')
include hsha h

theorem hashedText_eq : hashedText sha1 entries = (entryEtags sha1 entries).flatten := by
  induction entries with
  | nil => rfl
  | cons entry entries ih =>
    have rest := ih fun other hother => h other (List.mem_cons_of_mem _ hother)
    have len := length_etagNode hsha (h entry List.mem_cons_self)
    have whole : ((etagNode sha1 entry.2).1 ++ List.replicate 40 0).take 40 =
        (etagNode sha1 entry.2).1 := List.take_left' len
    rw [hashedText] at rest
    rw [hashedText, etagEntries, entryEtags, List.map_cons, List.flatten_cons, ← entryEtags]
    simp only [rest, whole]

theorem length_entryEtags : (entryEtags sha1 entries).map List.length =
    List.replicate entries.length 40 := by
  rw [List.eq_replicate_iff, List.length_map, entryEtags, List.length_map]
  refine ⟨rfl, fun n hn => ?_⟩
  simp only [List.mem_map, exists_exists_and_eq_and] at hn
  obtain ⟨entry, hentry, rfl⟩ := hn
  exact length_etagNode hsha (h entry hentry)

include h'

theorem entryEtags_eq_iff :
    hashedText sha1 entries = hashedText sha1 entries' ↔
      entryEtags sha1 entries = entryEtags sha1 entries' := by
  rw [List.eq_iff_flatten_eq, hashedText_eq hsha h, hashedText_eq hsha h',
    length_entryEtags hsha h, length_entryEtags hsha h']
  refine ⟨fun same => ⟨same, ?_⟩, And.left⟩
  have len := congrArg List.length same
  rw [List.length_flatten, List.length_flatten, length_entryEtags hsha h,
    length_entryEtags hsha h', List.sum_replicate_nat, List.sum_replicate_nat] at len
  rw [show entries.length = entries'.length by omega]

theorem etagSource_eq_iff {x x' : Xattrs}
    (hfree : ¬ Collides sha1 (hashedText sha1 entries) (hashedText sha1 entries')) :
    (etagNode sha1 (.branch entries x)).1 = (etagNode sha1 (.branch entries' x')).1 ↔
      etagSource sha1 entries x = etagSource sha1 entries' x' := by
  rw [etagNode_folder, etagNode_folder, etagSource, etagSource]
  cases hread : getXattr x.etag 41 with
  | some cached =>
    have short := length_getXattr hread
    cases hread' : getXattr x'.etag 41 with
    | some cached' => simp
    | none =>
      refine iff_of_false (fun same => ?_) (by simp)
      rw [Option.getD_some, Option.getD_none] at same
      rw [same, length_version hsha] at short
      omega
  | none =>
    cases hread' : getXattr x'.etag 41 with
    | some cached' =>
      have short := length_getXattr hread'
      refine iff_of_false (fun same => ?_) (by simp)
      rw [Option.getD_some, Option.getD_none] at same
      rw [← same, length_version hsha] at short
      omega
    | none =>
      simp only [Option.getD_none, EtagSource.children.injEq]
      rw [← entryEtags_eq_iff hsha h h']
      constructor
      · intro same
        have digests := hexString_injective same
        by_contra different
        exact hfree ⟨different, digests⟩
      · intro same
        rw [same]

end Entries

def FolderAt (tree : Node) (path : Bytes) (entries : List (Bytes × Node)) (x : Xattrs) : Prop :=
  (namei tree path).toOption.bind tree.get? = some (.branch entries x)

theorem getEtag_folder {sha1 : Bytes → Bytes} {tree : Node} {path : Bytes}
    {entries : List (Bytes × Node)} {x : Xattrs} (h : FolderAt tree path entries x) :
    (getEtag sha1 tree path).map Prod.fst = some (etagNode sha1 (.branch entries x)).1 := by
  unfold FolderAt at h
  unfold getEtag
  cases hnamei : namei tree path with
  | error e => simp [hnamei, Except.toOption] at h
  | ok loc =>
    rw [hnamei] at h
    have hn : tree.get? loc = some (.branch entries x) := h
    simp [hn]

/-- Two directories have the same version if and only if they have the same one in their
attributes, or none there and entries of the same versions in the same order. -/
theorem folderEtag_eq_iff (env : Env) {tree tree' : Node} {path path' : Bytes}
    {entries entries' : List (Bytes × Node)} {x x' : Xattrs}
    (h : FolderAt tree path entries x) (h' : FolderAt tree' path' entries' x')
    (hentries : Unstored entries) (hentries' : Unstored entries')
    (hfree : ¬ Collides env.sha1 (hashedText env.sha1 entries) (hashedText env.sha1 entries')) :
    (getEtag env.sha1 tree path).map Prod.fst = (getEtag env.sha1 tree' path').map Prod.fst ↔
      etagSource env.sha1 entries x = etagSource env.sha1 entries' x' := by
  rw [getEtag_folder h, getEtag_folder h', Option.some_inj]
  exact etagSource_eq_iff env.sha1_length hentries hentries' hfree

def firstTwenty (m : Bytes) : Bytes := (m ++ List.replicate 20 0).take 20

def firstEnv : Env where
  cfg := defaultConfig
  getpwnam := fun _ => .absent
  sha1 := firstTwenty
  sha1_length := by
    intro m
    simp [firstTwenty]
  magicFile := fun _ _ => none
  dirSize := fun _ => 4096

def document (content : String) : Node := .leaf ⟨str content, noXattrs⟩

def listed (sha1 : Bytes → Bytes) (entry : Bytes × Node) : Bytes × Bytes :=
  (entry.1 ++ (if entry.2.kind.isBranch then str "/" else []), (etagNode sha1 entry.2).1)

def listing (sha1 : Bytes → Bytes) : Node → List (Bytes × Bytes)
  | .branch entries _ => entries.map (listed sha1)
  | .leaf _ => []

/-- Two directories have the same version just when they have the same listing. -/
def Identified (env : Env) (d d' : Node) : Prop :=
  (getEtag env.sha1 d (str "/")).map Prod.fst = (getEtag env.sha1 d' (str "/")).map Prod.fst ↔
    ∀ member, member ∈ listing env.sha1 d ↔ member ∈ listing env.sha1 d'

theorem unstored_document (name content : String) : Unstored [(str name, document content)] := by
  intro entry hentry q kind hkind
  rw [List.mem_singleton.1 hentry] at hkind
  cases q with
  | nil =>
    rw [document, look_self, Option.some_inj] at hkind
    rw [← hkind]
    rfl
  | cons k q => cases hkind

theorem folderEtag_eq_iff_renamed :
    (getEtag firstEnv.sha1 (folder [(str "a", document "x")]) (str "/")).map Prod.fst =
        (getEtag firstEnv.sha1 (folder [(str "b", document "x")]) (str "/")).map Prod.fst ↔
      etagSource firstEnv.sha1 [(str "a", document "x")] noXattrs =
        etagSource firstEnv.sha1 [(str "b", document "x")] noXattrs :=
  folderEtag_eq_iff firstEnv rfl rfl (unstored_document "a" "x") (unstored_document "b" "x")
    fun collides => collides.1 rfl

theorem listing_not_identified :
    ¬ Identified firstEnv (folder [(str "a", document "x")]) (folder [(str "b", document "x")]) ∧
      ¬ Identified firstEnv (folder [(str "a", document "x"), (str "b", document "y")])
        (folder [(str "b", document "y"), (str "a", document "x")]) ∧
      ¬ Identified firstEnv (.branch [] ⟨none, none, some (str "1")⟩)
        (.branch [(str "a", document "x")] ⟨none, none, some (str "1")⟩) := by
  refine ⟨fun identified => ?_, fun identified => ?_, fun identified => ?_⟩
  · have same := (identified.1 (by decide +kernel) (listed firstTwenty (str "a", document "x"))).1
    exact absurd (same (by decide +kernel)) (by decide +kernel)
  · have different : ¬ (getEtag firstEnv.sha1
        (folder [(str "a", document "x"), (str "b", document "y")]) (str "/")).map Prod.fst =
      (getEtag firstEnv.sha1
        (folder [(str "b", document "y"), (str "a", document "x")]) (str "/")).map Prod.fst := by
      decide +kernel
    refine different (identified.2 fun member => ?_)
    simp only [folder, listing, List.map_cons, List.map_nil, List.mem_cons, List.not_mem_nil,
      or_false]
    exact or_comm
  · have same := (identified.1 (by decide +kernel) (listed firstTwenty (str "a", document "x"))).2
    exact absurd (same (by decide +kernel)) (by decide +kernel)

end RsServe.FolderVersions
