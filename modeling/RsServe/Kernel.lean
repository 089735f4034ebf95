import RsServe.CString
import RsServe.TreeWalk

/-! The file system from `/` on: files and directories with extended attributes, and
the system calls on them. They fail only where the shape of the tree makes them fail;
there are no links, and no path or name is too long. -/

namespace RsServe.Kernel
open CString NameTree TreeWalk

/-- user.mime_type, user.charset and user.etag -/
structure Xattrs where
  mimeType : Option Bytes
  charset : Option Bytes
  etag : Option Bytes
deriving DecidableEq

def noXattrs : Xattrs := ⟨none, none, none⟩

structure FileData where
  content : Bytes
  xattrs : Xattrs
deriving DecidableEq

abbrev Node := Tree Bytes FileData Xattrs

abbrev Loc := List Bytes

abbrev Stat := Kind FileData Xattrs

inductive Errno where
  | ENOENT | ENOTDIR | EISDIR | EEXIST | ENOTEMPTY | EBUSY | EINVAL
deriving DecidableEq

def errnoOf : WalkError → Errno
  | .missing => .ENOENT
  | .notBranch => .ENOTDIR

def lookupAt (tree : Node) (dir : Loc) (names : List Bytes) : Except Errno Loc :=
  match walk (str ".") (str "..") (shape tree) dir names with
  | .ok loc => .ok loc
  | .error e => .error (errnoOf e)

/-- A trailing slash asks for a directory, as a last `.` does. -/
def pathNames (path : Bytes) : List Bytes :=
  components path ++ if path.getLast? = some slash then [str "."] else []

def namei (tree : Node) (path : Bytes) : Except Errno Loc := lookupAt tree [] (pathNames path)

def stat (tree : Node) (path : Bytes) : Except Errno Stat :=
  match namei tree path with
  | .error e => .error e
  | .ok loc =>
    match tree.look loc with
    | some kind => .ok kind
    | none => .error .ENOENT

/-- Neither PATH_MAX nor NAME_MAX is exceeded; other paths the kernel refuses with
ENAMETOOLONG. -/
def WithinLimits (path : Bytes) : Prop :=
  path.length < 4096 ∧ ∀ name ∈ components path, name.length ≤ 255

instance (path : Bytes) : Decidable (WithinLimits path) :=
  inferInstanceAs (Decidable (_ ∧ ∀ name ∈ components path, name.length ≤ 255))

def openRead (tree : Node) (path : Bytes) : Except Errno Loc := namei tree path

def openat (tree : Node) (dir : Loc) (name : Bytes) : Except Errno Loc := lookupAt tree dir [name]

def fstatat (tree : Node) (dir : Loc) (name : Bytes) : Except Errno Stat :=
  match openat tree dir name with
  | .error e => .error e
  | .ok loc =>
    match tree.look loc with
    | some kind => .ok kind
    | none => .error .ENOENT

/-- opendir, and the names that readdir gives besides `.` and `..` -/
def opendir (tree : Node) (path : Bytes) : Except Errno (List Bytes) :=
  match namei tree path with
  | .error e => .error e
  | .ok loc =>
    match tree.get? loc with
    | some (.branch entries _) => .ok (entries.map Prod.fst)
    | some (.leaf _) => .error .ENOTDIR
    | none => .error .ENOENT

theorem opendir_ok {tree : Node} {path : Bytes} {names : List Bytes} (h : opendir tree path = .ok names) :
    ∃ loc entries x, namei tree path = .ok loc ∧ tree.get? loc = some (.branch entries x) ∧
      names = entries.map Prod.fst := by
  unfold opendir at h
  cases hnamei : namei tree path with
  | error e => simp [hnamei] at h
  | ok loc =>
    cases hnode : tree.get? loc with
    | none => simp [hnamei, hnode] at h
    | some n =>
      cases n with
      | leaf f => simp [hnamei, hnode] at h
      | branch entries x =>
        simp only [hnamei, hnode, Except.ok.injEq] at h
        exact ⟨loc, entries, x, rfl, hnode, h.symm⟩

def setContent (content : Bytes) : Node → Node
  | .leaf f => .leaf { f with content := content }
  | .branch entries x => .branch entries x

def kindContent (content : Bytes) : Stat → Stat
  | .leaf f => .leaf { f with content := content }
  | .branch x => .branch x

def mapXattrs (f : Xattrs → Xattrs) : Node → Node
  | .leaf d => .leaf { d with xattrs := f d.xattrs }
  | .branch entries x => .branch entries (f x)

def mapKind (f : Xattrs → Xattrs) : Stat → Stat
  | .leaf d => .leaf { d with xattrs := f d.xattrs }
  | .branch x => .branch (f x)

/-- open with O_CREAT | O_WRONLY | O_TRUNC; a file that exists keeps its attributes. -/
def openCreate (tree : Node) (path : Bytes) : Except Errno (Loc × Node) :=
  match (components path).getLast? with
  | none => .error .EISDIR
  | some last =>
    match lookupAt tree [] (components path).dropLast with
    | .error e => .error e
    | .ok dir =>
      if path.getLast? = some slash ∨ last = str "." ∨ last = str ".." then .error .EISDIR
      else
        match tree.look dir, tree.look (dir ++ [last]) with
        | some (.branch _), none =>
          .ok (dir ++ [last], tree.link dir last (.leaf ⟨[], noXattrs⟩))
        | some (.branch _), some (.leaf _) =>
          .ok (dir ++ [last], tree.modify (setContent []) (dir ++ [last]))
        | some (.branch _), some (.branch _) => .error .EISDIR
        | _, _ => .error .ENOTDIR

def write (tree : Node) (file : Loc) (content : Bytes) : Node :=
  tree.modify (setContent content) file

/-- setxattr; what it returns is only logged. -/
def setxattr (tree : Node) (path : Bytes) (f : Xattrs → Xattrs) : Node :=
  match namei tree path with
  | .ok loc => tree.modify (mapXattrs f) loc
  | .error _ => tree

def getxattrs (tree : Node) (path : Bytes) : Option Xattrs :=
  match stat tree path with
  | .ok (.leaf f) => some f.xattrs
  | .ok (.branch x) => some x
  | .error _ => none

def mkdirat (tree : Node) (dir : Loc) (name : Bytes) : Except Errno Node :=
  match tree.look dir with
  | none => .error .ENOENT
  | some (.leaf _) => .error .ENOTDIR
  | some (.branch _) =>
    match lookupAt tree dir [name] with
    | .ok _ => .error .EEXIST
    | .error _ => .ok (tree.link dir name (.branch [] noXattrs))

def unlinkLast (tree : Node) (loc : Loc) : Node :=
  match loc.getLast? with
  | none => tree
  | some name => tree.unlink loc.dropLast name

def unlink (tree : Node) (path : Bytes) : Except Errno Node :=
  match stat tree path, namei tree path with
  | .ok (.leaf _), .ok loc => .ok (unlinkLast tree loc)
  | .ok (.branch _), _ => .error .EISDIR
  | .error e, _ => .error e
  | _, .error e => .error e

/-- unlinkat with AT_REMOVEDIR, from the directory of an open descriptor -/
def rmdirat (tree : Node) (dir : Loc) (path : Bytes) : Except Errno Node :=
  match (components path).getLast? with
  | none => .error .EBUSY
  | some last =>
    match lookupAt tree (if path.head? = some slash then [] else dir) (components path).dropLast with
    | .error e => .error e
    | .ok parent =>
      if last = str "." then .error .EINVAL
      else if last = str ".." then .error .ENOTEMPTY
      else
        match tree.look parent, tree.get? (parent ++ [last]) with
        | some (.branch _), some (.branch entries _) =>
          if entries = [] then .ok (tree.unlink parent last) else .error .ENOTEMPTY
        | some (.branch _), none => .error .ENOENT
        | _, _ => .error .ENOTDIR

abbrev View := Kind Bytes Unit

def plainKind : Stat → View
  | .leaf f => .leaf f.content
  | .branch _ => .branch ()

def plain (tree : Node) : Loc → Option View := fun loc => (tree.look loc).map plainKind

theorem shape_eq_plain (tree : Node) (loc : Loc) :
    shape tree loc = (plain tree loc).map Kind.isBranch := by
  rw [shape, plain, Option.map_map]
  cases tree.look loc with
  | none => rfl
  | some kind => cases kind <;> rfl

theorem shape_ne_none {tree : Node} {loc : Loc} : shape tree loc ≠ none ↔ plain tree loc ≠ none := by
  rw [shape_eq_plain, ne_eq, Option.map_eq_none_iff]

theorem shape_congr {tree tree' : Node} (h : plain tree = plain tree') :
    shape tree = shape tree' := by
  funext loc
  rw [shape_eq_plain, shape_eq_plain, h]

theorem lookupAt_congr {tree tree' : Node} (h : plain tree = plain tree') (dir : Loc)
    (names : List Bytes) : lookupAt tree dir names = lookupAt tree' dir names := by
  rw [lookupAt, lookupAt, shape_congr h]

theorem namei_congr {tree tree' : Node} (h : plain tree = plain tree') (path : Bytes) :
    namei tree path = namei tree' path := lookupAt_congr h [] _

theorem plain_eq_leaf {tree : Node} {loc : Loc} {content : Bytes} :
    plain tree loc = some (.leaf content) ↔ ∃ x, tree.look loc = some (.leaf ⟨content, x⟩) := by
  unfold plain
  cases tree.look loc with
  | none => simp
  | some kind =>
    cases kind with
    | leaf f =>
      simp only [Option.map_some, plainKind, Option.some_inj, Kind.leaf.injEq]
      constructor
      · intro h
        exact ⟨f.xattrs, by rw [← h]⟩
      · intro h
        obtain ⟨x, hx⟩ := h
        rw [hx]
    | branch x => simp [plainKind]

theorem plain_eq_branch {tree : Node} {loc : Loc} :
    plain tree loc = some (.branch ()) ↔ ∃ x, tree.look loc = some (.branch x) := by
  unfold plain
  cases tree.look loc with
  | none => simp
  | some kind => cases kind <;> simp [plainKind]

theorem plain_eq_none {tree : Node} {loc : Loc} : plain tree loc = none ↔ tree.look loc = none := by
  rw [plain, Option.map_eq_none_iff]

def viewAt (tree : Node) (path : Bytes) : Option View := (stat tree path).toOption.map plainKind

theorem viewAt_eq (tree : Node) (path : Bytes) :
    viewAt tree path = (namei tree path).toOption.bind (plain tree) := by
  unfold viewAt stat
  cases namei tree path with
  | error e => rfl
  | ok loc =>
    simp only [Except.toOption, Option.bind_some, plain]
    cases tree.look loc <;> rfl

theorem viewAt_congr {tree tree' : Node} (h : plain tree = plain tree') (path : Bytes) :
    viewAt tree path = viewAt tree' path := by
  rw [viewAt_eq, viewAt_eq, namei_congr h, h]

theorem viewAt_of_stat {tree : Node} {path : Bytes} {kind : Stat} (h : stat tree path = .ok kind) :
    viewAt tree path = some (plainKind kind) := by
  rw [viewAt, h]
  rfl

theorem viewAt_eq_leaf {tree : Node} {path content : Bytes} :
    viewAt tree path = some (.leaf content) ↔ ∃ x, stat tree path = .ok (.leaf ⟨content, x⟩) := by
  unfold viewAt
  cases stat tree path with
  | error e => simp [Except.toOption]
  | ok kind =>
    cases kind with
    | branch x => simp [Except.toOption, plainKind]
    | leaf f =>
      simp only [Except.toOption, Option.map_some, plainKind, Option.some_inj, Kind.leaf.injEq,
        Except.ok.injEq]
      constructor
      · intro h
        exact ⟨f.xattrs, by rw [← h]⟩
      · intro h
        obtain ⟨x, hx⟩ := h
        rw [hx]

theorem viewAt_eq_none {tree : Node} {path : Bytes} :
    viewAt tree path = none ↔ ∃ e, stat tree path = .error e := by
  unfold viewAt
  cases stat tree path with
  | error e => simp [Except.toOption]
  | ok kind => simp [Except.toOption]

theorem isBranch_plainKind (kind : Stat) : (plainKind kind).isBranch = kind.isBranch := by
  cases kind <;> rfl

theorem lookupAt_error_iff {tree : Node} {dir : Loc} {x : Xattrs} {name : Bytes}
    (hdir : tree.look dir = some (.branch x)) :
    (∃ e, lookupAt tree dir [name] = .error e) ↔
      name ≠ str "." ∧ name ≠ str ".." ∧ tree.look (dir ++ [name]) = none := by
  have hshape : shape tree dir = some true := by rw [shape, hdir]; rfl
  have hnext : shape tree (dir ++ [name]) = none ↔ tree.look (dir ++ [name]) = none := by
    rw [shape, Option.map_eq_none_iff]
  rw [lookupAt, walk, hshape]
  by_cases hhere : name = str "."
  · simp [hhere, walk]
  · by_cases hup : name = str ".."
    · have hne : str ".." ≠ str "." := by decide
      simp [hup, walk, hne]
    · by_cases habsent : tree.look (dir ++ [name]) = none
      · simp [hhere, hup, hnext.2 habsent, habsent]
      · have : ¬ shape tree (dir ++ [name]) = none := fun h => habsent (hnext.1 h)
        simp [hhere, hup, this, habsent, walk]

theorem look_modify_mapXattrs (tree : Node) (f : Xattrs → Xattrs) (loc q : Loc) :
    (tree.modify (mapXattrs f) loc).look q =
      if q = loc then (tree.look q).map (mapKind f) else tree.look q := by
  refine look_modify_here (fun n => ?_) (fun n k q => ?_) tree loc q
  · cases n <;> rfl
  · cases n <;> rfl

theorem plain_modify_mapXattrs (tree : Node) (f : Xattrs → Xattrs) (loc : Loc) :
    plain (tree.modify (mapXattrs f) loc) = plain tree := by
  funext q
  rw [plain, look_modify_mapXattrs]
  by_cases h : q = loc
  · rw [if_pos h, Option.map_map, plain]
    congr 1
    funext kind
    cases kind <;> rfl
  · rw [if_neg h, plain]

theorem plain_setxattr (tree : Node) (path : Bytes) (f : Xattrs → Xattrs) :
    plain (setxattr tree path f) = plain tree := by
  unfold setxattr
  cases namei tree path with
  | error e => rfl
  | ok loc => exact plain_modify_mapXattrs tree f loc

theorem look_below {tree : Node} {p q : Loc} (hp : ∀ x, tree.look p ≠ some (.branch x))
    (h : p <+: q) (hne : q ≠ p) : tree.look q = none := by
  by_contra some
  obtain ⟨x, hx⟩ := branch_of_proper_prefix some h (Ne.symm hne)
  exact hp x hx

def Bare (n : Node) : Prop := ∀ k q, n.look (k :: q) = none

theorem bare_leaf (f : FileData) : Bare (.leaf f) := fun _ _ => rfl

theorem bare_empty (x : Xattrs) : Bare (.branch [] x) := fun _ _ => rfl

theorem look_self (n : Node) : n.look [] = some n.kind := by
  rw [Tree.look, get?_nil]
  rfl

theorem look_link_bare {tree n : Node} {dir : Loc} {x : Xattrs} {name : Bytes}
    (hdir : tree.look dir = some (.branch x)) (hn : Bare n)
    (hold : ∀ x, tree.look (dir ++ [name]) ≠ some (.branch x)) (q : Loc) :
    (tree.link dir name n).look q =
      if q = dir ++ [name] then some n.kind else tree.look q := by
  rw [look_link hdir]
  by_cases h : dir ++ [name] <+: q
  · rw [if_pos h]
    by_cases hq : q = dir ++ [name]
    · rw [if_pos hq, hq]
      have all : (dir ++ [name]).drop (dir.length + 1) = [] := by simp
      rw [all, look_self]
    · rw [if_neg hq, look_below hold h hq]
      obtain ⟨r, rfl⟩ := h
      cases r with
      | nil => simp at hq
      | cons k r =>
        have below : (dir ++ [name] ++ k :: r).drop (dir.length + 1) = k :: r := by simp
        rw [below]
        exact hn k r
  · have hq : q ≠ dir ++ [name] := fun same => h (same ▸ List.prefix_refl _)
    rw [if_neg h, if_neg hq]

theorem look_modify_setContent (tree : Node) (content : Bytes) (loc q : Loc) :
    (tree.modify (setContent content) loc).look q =
      if q = loc then (tree.look q).map (kindContent content) else tree.look q := by
  refine look_modify_here (fun n => ?_) (fun n k q => ?_) tree loc q
  · cases n <;> rfl
  · cases n <;> rfl

theorem look_setContent {tree : Node} {loc : Loc} {f : FileData}
    (hloc : tree.look loc = some (.leaf f)) (content : Bytes) (q : Loc) :
    (tree.modify (setContent content) loc).look q =
      if q = loc then some (.leaf { f with content := content }) else tree.look q := by
  rw [look_modify_setContent]
  by_cases h : q = loc
  · rw [if_pos h, if_pos h, h, hloc]
    rfl
  · rw [if_neg h, if_neg h]

theorem openCreate_ok {tree tree' : Node} {path : Bytes} {loc : Loc}
    (h : openCreate tree path = .ok (loc, tree')) :
    ∃ dir last x, loc = dir ++ [last] ∧ (components path).getLast? = some last ∧
      lookupAt tree [] (components path).dropLast = .ok dir ∧
      path.getLast? ≠ some slash ∧ last ≠ str "." ∧ last ≠ str ".." ∧
      (∃ y, tree.look dir = some (.branch y)) ∧
      (tree.look loc = none ∧ x = noXattrs ∨ ∃ c, tree.look loc = some (.leaf ⟨c, x⟩)) ∧
      ∀ q, tree'.look q = if q = loc then some (.leaf ⟨[], x⟩) else tree.look q := by
  unfold openCreate at h
  cases hlast : (components path).getLast? with
  | none => simp [hlast] at h
  | some last =>
    cases hdir : lookupAt tree [] (components path).dropLast with
    | error e => simp [hlast, hdir] at h
    | ok dir =>
      simp only [hlast, hdir] at h
      by_cases hnorm : path.getLast? = some slash ∨ last = str "." ∨ last = str ".."
      · simp [hnorm] at h
      · rw [if_neg hnorm] at h
        simp only [not_or] at hnorm
        cases hbranch : tree.look dir with
        | none => simp [hbranch] at h
        | some kind =>
          cases kind with
          | leaf f => simp [hbranch] at h
          | branch y =>
            cases hold : tree.look (dir ++ [last]) with
            | none =>
              simp only [hbranch, hold, Except.ok.injEq, Prod.mk.injEq] at h
              obtain ⟨rfl, rfl⟩ := h
              refine ⟨dir, last, noXattrs, rfl, rfl, rfl, hnorm.1, hnorm.2.1, hnorm.2.2,
                ⟨y, hbranch⟩, Or.inl ⟨hold, rfl⟩, fun q => ?_⟩
              exact look_link_bare hbranch (bare_leaf _) (by simp [hold]) q
            | some old =>
              cases old with
              | branch z => simp [hbranch, hold] at h
              | leaf f =>
                simp only [hbranch, hold, Except.ok.injEq, Prod.mk.injEq] at h
                obtain ⟨rfl, rfl⟩ := h
                refine ⟨dir, last, f.xattrs, rfl, rfl, rfl, hnorm.1, hnorm.2.1, hnorm.2.2,
                  ⟨y, hbranch⟩, Or.inr ⟨f.content, hold⟩, fun q => ?_⟩
                exact look_setContent hold [] q

theorem mkdirat_ok {tree tree' : Node} {dir : Loc} {name : Bytes}
    (h : mkdirat tree dir name = .ok tree') :
    (∃ x, tree.look dir = some (.branch x)) ∧ name ≠ str "." ∧ name ≠ str ".." ∧
      tree.look (dir ++ [name]) = none ∧
      ∀ q, tree'.look q = if q = dir ++ [name] then some (.branch noXattrs) else tree.look q := by
  unfold mkdirat at h
  cases hdir : tree.look dir with
  | none => simp [hdir] at h
  | some kind =>
    cases kind with
    | leaf f => simp [hdir] at h
    | branch x =>
      cases hnext : lookupAt tree dir [name] with
      | ok loc => simp [hdir, hnext] at h
      | error e =>
        simp only [hdir, hnext, Except.ok.injEq] at h
        subst h
        have fresh := (lookupAt_error_iff hdir).1 ⟨e, hnext⟩
        refine ⟨⟨x, rfl⟩, fresh.1, fresh.2.1, fresh.2.2, fun q => ?_⟩
        exact look_link_bare hdir (bare_empty _) (by simp [fresh.2.2]) q

theorem lookupAt_root {tree : Node} {name : Bytes} {names : List Bytes} {loc : Loc}
    (h : lookupAt tree [] (name :: names) = .ok loc) : ∃ x, tree.look [] = some (.branch x) := by
  unfold lookupAt at h
  cases hwalk : walk (str ".") (str "..") (shape tree) [] (name :: names) with
  | error e => simp [hwalk] at h
  | ok l =>
    have start := (walk_cons hwalk).1
    rw [shape_eq_plain, Option.map_eq_some_iff] at start
    obtain ⟨view, hview, hbranch⟩ := start
    cases view with
    | leaf c => simp [Kind.isBranch] at hbranch
    | branch u => exact plain_eq_branch.1 hview

theorem look_unlinkLast {tree : Node} {loc : Loc} (hne : loc ≠ [])
    (hbare : ∀ q, loc <+: q → q ≠ loc → tree.look q = none) (q : Loc) :
    (unlinkLast tree loc).look q = if q = loc then none else tree.look q := by
  have split := List.dropLast_append_getLast hne
  unfold unlinkLast
  rw [List.getLast?_eq_getLast_of_ne_nil hne]
  simp only
  rw [look_unlink, split]
  by_cases h : loc <+: q
  · rw [if_pos h]
    by_cases hq : q = loc
    · rw [if_pos hq]
    · rw [if_neg hq, hbare q h hq]
  · have hq : q ≠ loc := fun same => h (same ▸ List.prefix_refl _)
    rw [if_neg h, if_neg hq]

theorem look_unlink_empty {tree : Node} {dir : Loc} {name : Bytes} {x : Xattrs}
    (h : tree.get? (dir ++ [name]) = some (.branch [] x)) (q : Loc) :
    (tree.unlink dir name).look q = if q = dir ++ [name] then none else tree.look q := by
  have bare : ∀ q, dir ++ [name] <+: q → q ≠ dir ++ [name] → tree.look q = none := by
    intro q hq hne
    obtain ⟨r, rfl⟩ := hq
    rw [look_append, h, Option.bind_some]
    cases r with
    | nil => simp at hne
    | cons k r => exact bare_empty x k r
  have unlinked := look_unlinkLast (by simp) bare q
  simpa [unlinkLast] using unlinked

theorem stat_eq_ok {tree : Node} {path : Bytes} {kind : Stat} :
    stat tree path = .ok kind ↔ ∃ loc, namei tree path = .ok loc ∧ tree.look loc = some kind := by
  unfold stat
  cases namei tree path with
  | error e => simp
  | ok loc => cases hlook : tree.look loc <;> simp [hlook]

theorem unlink_eq {tree tree' : Node} {path : Bytes} (h : unlink tree path = .ok tree') :
    ∃ loc f, namei tree path = .ok loc ∧ tree.look loc = some (.leaf f) ∧
      tree' = unlinkLast tree loc := by
  unfold unlink at h
  cases hstat : stat tree path with
  | error e => simp [hstat] at h
  | ok kind =>
    obtain ⟨loc, hnamei, hlook⟩ := stat_eq_ok.1 hstat
    cases kind with
    | branch x => simp [hstat] at h
    | leaf f =>
      simp only [hstat, hnamei, Except.ok.injEq] at h
      exact ⟨loc, f, hnamei, hlook, h.symm⟩

theorem unlink_look {tree tree' : Node} {path : Bytes} (h : unlink tree path = .ok tree') :
    ∃ loc f, namei tree path = .ok loc ∧ tree.look loc = some (.leaf f) ∧
      ∀ q, tree'.look q = tree.look q ∨ q = loc ∧ tree'.look q = none := by
  obtain ⟨loc, f, hnamei, hlook, rfl⟩ := unlink_eq h
  refine ⟨loc, f, hnamei, hlook, fun q => ?_⟩
  by_cases hroot : loc = []
  · subst hroot
    exact Or.inl rfl
  · rw [look_unlinkLast hroot fun q => look_below (by simp [hlook])]
    by_cases hq : q = loc
    · exact Or.inr ⟨hq, if_pos hq⟩
    · exact Or.inl (if_neg hq)

theorem unlink_ok {tree tree' : Node} {path : Bytes} (hpath : components path ≠ [])
    (h : unlink tree path = .ok tree') :
    ∃ loc f, namei tree path = .ok loc ∧ tree.look loc = some (.leaf f) ∧
      ∀ q, tree'.look q = if q = loc then none else tree.look q := by
  obtain ⟨loc, f, hnamei, hlook, rfl⟩ := unlink_eq h
  refine ⟨loc, f, hnamei, hlook, look_unlinkLast ?_ fun q => look_below (by simp [hlook])⟩
  intro hroot
  subst hroot
  obtain ⟨name, names, hnames⟩ := List.exists_cons_of_ne_nil hpath
  unfold namei pathNames at hnamei
  rw [hnames] at hnamei
  obtain ⟨x, hx⟩ := lookupAt_root hnamei
  simp [hx] at hlook

theorem rmdirat_ok {tree tree' : Node} {dir : Loc} {path : Bytes}
    (h : rmdirat tree dir path = .ok tree') :
    ∃ parent last x, (components path).getLast? = some last ∧
      lookupAt tree (if path.head? = some slash then [] else dir) (components path).dropLast =
        .ok parent ∧
      tree.get? (parent ++ [last]) = some (.branch [] x) ∧
      ∀ q, tree'.look q = if q = parent ++ [last] then none else tree.look q := by
  unfold rmdirat at h
  cases hlast : (components path).getLast? with
  | none => simp [hlast] at h
  | some last =>
    cases hparent : lookupAt tree (if path.head? = some slash then [] else dir)
        (components path).dropLast with
    | error e => simp [hlast, hparent] at h
    | ok parent =>
      simp only [hlast, hparent] at h
      by_cases hhere : last = str "."
      · simp [hhere] at h
      · by_cases hup : last = str ".."
        · rw [if_neg hhere, if_pos hup] at h
          simp at h
        · rw [if_neg hhere, if_neg hup] at h
          cases hbranch : tree.look parent with
          | none => simp [hbranch] at h
          | some kind =>
            cases kind with
            | leaf f => simp [hbranch] at h
            | branch y =>
              cases hnode : tree.get? (parent ++ [last]) with
              | none => simp [hbranch, hnode] at h
              | some n =>
                cases n with
                | leaf f => simp [hbranch, hnode] at h
                | branch entries x =>
                  by_cases hempty : entries = []
                  · subst hempty
                    simp only [hbranch, hnode, if_true, Except.ok.injEq] at h
                    subst h
                    exact ⟨parent, last, x, rfl, rfl, hnode, look_unlink_empty hnode⟩
                  · simp [hbranch, hnode, hempty] at h

end RsServe.Kernel
