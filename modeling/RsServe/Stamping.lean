import RsServe.Attributes

/-! What get_etag leaves of a tree: all but the attributes that it could not read before and
cannot read afterwards. -/

namespace RsServe.Stamping
open CString NameTree Kernel Attributes AssocList

def legibleXattrs (x : Xattrs) : Xattrs := { x with etag := getXattr x.etag 41 }

mutual

def legible : Node → Node
  | .leaf f => .leaf { f with xattrs := legibleXattrs f.xattrs }
  | .branch entries x => .branch (legibleEntries entries) (legibleXattrs x)

def legibleEntries : List (Bytes × Node) → List (Bytes × Node)
  | [] => []
  | (name, child) :: entries => (name, legible child) :: legibleEntries entries

end

variable {sha1 : Bytes → Bytes}

theorem legibleXattrs_stamp (hsha : ∀ m, (sha1 m).length = 20) {x : Xattrs}
    (h : getXattr x.etag 41 = none) (content : Bytes) :
    legibleXattrs { x with etag := some (version sha1 content) } = legibleXattrs x := by
  unfold legibleXattrs
  rw [h, version, getXattr_hexString (hsha content)]

mutual

theorem legible_etagNode (hsha : ∀ m, (sha1 m).length = 20) (n : Node) :
    legible (etagNode sha1 n).2 = legible n := by
  cases n with
  | leaf f =>
    rw [etagNode]
    cases h : getXattr f.xattrs.etag 41 with
    | some cached => rfl
    | none =>
      simp only [legible]
      rw [legibleXattrs_stamp hsha h]
  | branch entries x =>
    rw [etagNode]
    cases h : getXattr x.etag 41 with
    | some cached => rfl
    | none =>
      simp only [legible]
      rw [legibleXattrs_stamp hsha h, legible_etagEntries hsha entries]

theorem legible_etagEntries (hsha : ∀ m, (sha1 m).length = 20) (entries : List (Bytes × Node)) :
    legibleEntries (etagEntries sha1 entries).2 = legibleEntries entries := by
  cases entries with
  | nil => rfl
  | cons entry entries =>
    rw [etagEntries, legibleEntries, legibleEntries, legible_etagNode hsha entry.2,
      legible_etagEntries hsha entries]

end

theorem legibleEntries_upsert {entries : List (Bytes × Node)} {name : Bytes} {child child' : Node}
    (hchild : entries.lookup name = some child) (h : legible child' = legible child) :
    legibleEntries (upsert entries name child') = legibleEntries entries := by
  induction entries with
  | nil => simp at hchild
  | cons entry entries ih =>
    rw [lookup_cons_eq] at hchild
    by_cases hname : name = entry.1
    · rw [if_pos hname, Option.some_inj] at hchild
      rw [upsert, if_pos hname.symm, legibleEntries, legibleEntries, h, hchild, hname]
    · rw [if_neg hname] at hchild
      rw [upsert, if_neg (Ne.symm hname), legibleEntries, legibleEntries, ih hchild]

theorem legible_modify {tree n n' : Node} {loc : Loc} (hn : tree.get? loc = some n)
    (h : legible n' = legible n) : legible (tree.modify (fun _ => n') loc) = legible tree := by
  induction loc generalizing tree with
  | nil =>
    rw [get?_nil, Option.some_inj] at hn
    rw [Tree.modify, h, hn]
  | cons name loc ih =>
    cases tree with
    | leaf f => rfl
    | branch entries x =>
      rw [Tree.modify]
      cases hchild : entries.lookup name with
      | none => rfl
      | some child =>
        rw [Tree.get?, hchild, Option.bind_some] at hn
        simp only [legible]
        rw [legibleEntries_upsert hchild (ih hn)]

theorem legible_getEtag (hsha : ∀ m, (sha1 m).length = 20) {tree : Node} {path : Bytes}
    {r : Bytes × Node} (h : getEtag sha1 tree path = some r) : legible r.2 = legible tree := by
  obtain ⟨loc, n, -, hn, rfl⟩ := getEtag_eq_some h
  exact legible_modify hn (legible_etagNode hsha n)

mutual

theorem etagNode_congr {n n' : Node} (h : legible n = legible n') :
    (etagNode sha1 n).1 = (etagNode sha1 n').1 := by
  cases n with
  | leaf f =>
    cases n' with
    | branch entries x => simp [legible] at h
    | leaf f' =>
      simp only [legible, Tree.leaf.injEq, FileData.mk.injEq, legibleXattrs, Xattrs.mk.injEq] at h
      rw [etagNode, etagNode, h.2.2.2, h.1]
      cases getXattr f'.xattrs.etag 41 <;> rfl
  | branch entries x =>
    cases n' with
    | leaf f => simp [legible] at h
    | branch entries' x' =>
      simp only [legible, Tree.branch.injEq, legibleXattrs, Xattrs.mk.injEq] at h
      have children := etagEntries_congr h.1
      rw [etagNode, etagNode, h.2.2.2]
      cases getXattr x'.etag 41 with
      | some cached => rfl
      | none =>
        simp only [children]

theorem etagEntries_congr {entries entries' : List (Bytes × Node)}
    (h : legibleEntries entries = legibleEntries entries') :
    (etagEntries sha1 entries).1 = (etagEntries sha1 entries').1 := by
  cases entries with
  | nil =>
    cases entries' with
    | nil => rfl
    | cons entry' entries' => simp [legibleEntries] at h
  | cons entry entries =>
    cases entries' with
    | nil => simp [legibleEntries] at h
    | cons entry' entries' =>
      simp only [legibleEntries, List.cons.injEq, Prod.mk.injEq] at h
      rw [etagEntries, etagEntries]
      simp only [etagNode_congr h.1.2, etagEntries_congr h.2]

end

theorem getXattr_kind (n : Node) :
    getXattr (kindXattrs n.kind).etag 41 = (kindXattrs (legible n).kind).etag := by
  cases n <;> rfl

theorem getXattr_of_legible {n n' : Node} (h : legible n = legible n') :
    getXattr (kindXattrs n.kind).etag 41 = getXattr (kindXattrs n'.kind).etag 41 := by
  rw [getXattr_kind, getXattr_kind, h]

theorem lookup_legibleEntries (entries : List (Bytes × Node)) (name : Bytes) :
    (legibleEntries entries).lookup name = (entries.lookup name).map legible := by
  induction entries with
  | nil => rfl
  | cons entry entries ih =>
    rw [legibleEntries, lookup_cons_eq, lookup_cons_eq, ih]
    by_cases h : name = entry.1
    · rw [if_pos h, if_pos h, Option.map_some]
    · rw [if_neg h, if_neg h]

theorem get?_legible (tree : Node) (loc : Loc) :
    (legible tree).get? loc = (tree.get? loc).map legible := by
  induction loc generalizing tree with
  | nil => rw [get?_nil, get?_nil, Option.map_some]
  | cons name loc ih =>
    cases tree with
    | leaf f => rfl
    | branch entries x =>
      rw [legible, Tree.get?, Tree.get?, lookup_legibleEntries]
      cases entries.lookup name with
      | none => rfl
      | some child => exact ih child

theorem plain_legible (tree : Node) : plain (legible tree) = plain tree := by
  funext loc
  rw [plain, plain, Tree.look, Tree.look, get?_legible]
  cases tree.get? loc with
  | none => rfl
  | some n => cases n <;> rfl

theorem plain_of_legible {tree tree' : Node} (h : legible tree = legible tree') :
    plain tree = plain tree' := by
  rw [← plain_legible, h, plain_legible]

theorem get?_of_legible {tree tree' : Node} (h : legible tree = legible tree') (loc : Loc) :
    (tree.get? loc).map legible = (tree'.get? loc).map legible := by
  rw [← get?_legible, h, get?_legible]

theorem getEtag_of_legible (sha1 : Bytes → Bytes) {tree tree' : Node}
    (h : legible tree = legible tree') (path : Bytes) :
    (getEtag sha1 tree path).map Prod.fst = (getEtag sha1 tree' path).map Prod.fst := by
  unfold getEtag
  rw [namei_congr (plain_of_legible h)]
  cases namei tree' path with
  | error e => rfl
  | ok loc =>
    have same := get?_of_legible h loc
    cases hn : tree.get? loc with
    | none =>
      rw [hn, Option.map_none, eq_comm, Option.map_eq_none_iff] at same
      simp only [hn, same]
    | some n =>
      rw [hn, Option.map_some, eq_comm, Option.map_eq_some_iff] at same
      obtain ⟨n', hn', hlegible⟩ := same
      simp only [hn, hn', Option.map_some, etagNode_congr hlegible]

end RsServe.Stamping
