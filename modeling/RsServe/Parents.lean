import RsServe.ChildPaths
import RsServe.StorageRules

/-! The parents that a PUT makes and the file that it opens, read as functions of the tree. -/

namespace RsServe.Parents
open CString NameTree TreeWalk Kernel Attributes DiskPath Dirname EarlyExit Storage StorageRules
open ChildPaths

/-- What the walk along the parents leaves, and whether it got to the end: a name that is
missing becomes a directory, and one that is not a directory ends it. -/
def made : Node → Loc → List Bytes → Node × Bool
  | tree, _, [] => (tree, true)
  | tree, dir, name :: names =>
    match lookupAt tree dir [name] with
    | .ok next => if shape tree next = some true then made tree next names else (tree, false)
    | .error _ =>
      match mkdirat tree dir name with
      | .error _ => (tree, false)
      | .ok tree' => made tree' (dir ++ [name]) names

theorem lookupAt_made {tree tree' : Node} {dir : Loc} {name : Bytes}
    (h : mkdirat tree dir name = .ok tree') : lookupAt tree' dir [name] = .ok (dir ++ [name]) := by
  obtain ⟨⟨x, hx⟩, hhere, hup, -, hlook⟩ := mkdirat_ok h
  have hne : dir ≠ dir ++ [name] := by simp
  have above : shape tree' dir = some true := by rw [shape, hlook, if_neg hne, hx]; rfl
  have next : shape tree' (dir ++ [name]) ≠ none := by rw [shape, hlook, if_pos rfl]; simp
  rw [lookupAt, walk_down above hhere hup next]
  rfl

theorem look_of_lookupAt {tree : Node} {dir loc : Loc} {name : Bytes}
    (h : lookupAt tree dir [name] = .ok loc) : ∃ kind, tree.look loc = some kind := by
  unfold lookupAt at h
  cases hwalk : walk (str ".") (str "..") (shape tree) dir [name] with
  | error e => simp [hwalk] at h
  | ok l =>
    rw [hwalk, Except.ok.injEq] at h
    subst h
    have start : shape tree dir ≠ none := by simp [(walk_cons hwalk).1]
    have ends := walk_ne_none (shape_closed tree) start hwalk
    cases hlook : tree.look l with
    | none => simp [shape, hlook] at ends
    | some kind => exact ⟨kind, rfl⟩

theorem lookupAt_through {tree : Node} {dir : Loc} {name : Bytes} (names : List Bytes)
    (h : shape tree dir = some false) : lookupAt tree dir (name :: names) = .error .ENOTDIR := by
  rw [lookupAt, walk, h]
  rfl

def within (fd : Nat) (w : World) : World := { w with fds := fd :: w.fds }

@[simp] theorem within_tree (fd : Nat) (w : World) : (within fd w).tree = w.tree := rfl

theorem closing_within (fd : Nat) (w : World) : closing fd (within fd w) = w := by
  rw [closing, within, List.erase_cons_head]

theorem makeParents_step {dirfd : Nat} {dir next : Loc} {name : Bytes} {w w' : World}
    (hensure : ensureDirectory dirfd dir name (within dirfd w) = .next () (within dirfd w'))
    (hnext : lookupAt w'.tree dir [name] = .ok next) (names : List Bytes) :
    ∃ fd, makeParents dirfd dir (name :: names) (within dirfd w) =
      makeParents fd next names (within fd w') := by
  have hopen : openat w'.tree dir name = .ok next := hnext
  have hopenFd : openFd (within dirfd w') = .next (Descriptors.freshFd (within dirfd w').fds)
    (within (Descriptors.freshFd (within dirfd w').fds) (within dirfd w')) := rfl
  have fresh := Descriptors.freshFd_not_mem (within dirfd w').fds
  refine ⟨Descriptors.freshFd (within dirfd w').fds, ?_⟩
  generalize Descriptors.freshFd (within dirfd w').fds = fd at hopenFd fresh
  have other : fd ≠ dirfd := fun same => fresh (by simp [same, within])
  have moved : closing dirfd (within fd (within dirfd w')) = within fd w' := by
    simp [closing, within, other, List.erase_cons_tail]
  rw [makeParents, bind_of_next hensure]
  simp only [attempt_bind, within_tree, hopen]
  rw [bind_of_next hopenFd]
  simp only [closeFd, update_bind, moved]

theorem makeParents_stop {dirfd status : Nat} {dir : Loc} {name : Bytes} {w w' : World}
    (hensure : ensureDirectory dirfd dir name w = .stop status w') (names : List Bytes) :
    makeParents dirfd dir (name :: names) w = .stop status w' := by
  rw [makeParents, bind_of_stop hensure]

section EnsureDirectory
variable {dirfd : Nat} {dir : Loc} {name : Bytes} {w : World}

theorem ensureDirectory_file {f : FileData} (hstat : fstatat w.tree dir name = .ok (.leaf f)) :
    ensureDirectory dirfd dir name (within dirfd w) = .stop 400 w := by
  unfold ensureDirectory
  simp only [read_bind, within, hstat, closeFd, update_bind]
  rw [← within, closing_within]
  rfl

theorem ensureDirectory_directory {x : Xattrs}
    (hstat : fstatat w.tree dir name = .ok (.branch x)) :
    ensureDirectory dirfd dir name (within dirfd w) = .next () (within dirfd w) := by
  unfold ensureDirectory
  simp only [read_bind, within, hstat]
  rfl

theorem ensureDirectory_refused {e e' : Errno} (hstat : fstatat w.tree dir name = .error e)
    (hmade : mkdirat w.tree dir name = .error e') :
    ensureDirectory dirfd dir name (within dirfd w) = .stop 500 w := by
  unfold ensureDirectory
  simp only [read_bind, within, hstat, attempt_bind, hmade]
  rw [← within, closing_within]

theorem ensureDirectory_made {e : Errno} {tree' : Node}
    (hstat : fstatat w.tree dir name = .error e) (hmade : mkdirat w.tree dir name = .ok tree') :
    ensureDirectory dirfd dir name (within dirfd w) =
      .next () (within dirfd { w with tree := tree' }) := by
  unfold ensureDirectory
  simp only [read_bind, within, hstat, attempt_bind, hmade]
  rfl

end EnsureDirectory

/-- The walk of the code leaves what `made` says, and no descriptor open. -/
theorem makeParents_run (dirfd : Nat) (dir : Loc) (names : List Bytes) (w : World) :
    ((made w.tree dir names).2 = true ∧ makeParents dirfd dir names (within dirfd w) =
        .next () { w with tree := (made w.tree dir names).1 }) ∨
    ((made w.tree dir names).2 = false ∧ ∃ status, IsError status ∧
      makeParents dirfd dir names (within dirfd w) =
        .stop status { w with tree := (made w.tree dir names).1 }) := by
  induction names generalizing dirfd dir w with
  | nil =>
    refine Or.inl ⟨rfl, ?_⟩
    rw [makeParents, closeFd, update, closing_within, made]
  | cons name names ih =>
    rw [made]
    cases hlookup : lookupAt w.tree dir [name] with
    | ok next =>
      obtain ⟨kind, hkind⟩ := look_of_lookupAt hlookup
      have hstat : fstatat w.tree dir name = .ok kind := by
        simp only [fstatat, openat, hlookup, hkind]
      cases kind with
      | leaf f =>
        have notBranch : ¬ shape w.tree next = some true := by simp [shape, hkind, Kind.isBranch]
        refine Or.inr ⟨by simp [notBranch], 400, Or.inl rfl, ?_⟩
        rw [makeParents_stop (ensureDirectory_file hstat)]
        simp only [if_neg notBranch]
      | branch x =>
        have branch : shape w.tree next = some true := by simp [shape, hkind, Kind.isBranch]
        have hensure : ensureDirectory dirfd dir name (within dirfd w) =
            .next () (within dirfd w) := ensureDirectory_directory hstat
        obtain ⟨fd, hstep⟩ := makeParents_step hensure hlookup names
        simp only [hstep, if_pos branch]
        exact ih fd next w
    | error e =>
      have hstat : fstatat w.tree dir name = .error e := by simp only [fstatat, openat, hlookup]
      cases hmade : mkdirat w.tree dir name with
      | error e' =>
        refine Or.inr ⟨rfl, 500, by simp [IsError], ?_⟩
        rw [makeParents_stop (ensureDirectory_refused hstat hmade)]
      | ok tree' =>
        have hensure : ensureDirectory dirfd dir name (within dirfd w) =
            .next () (within dirfd { w with tree := tree' }) := ensureDirectory_made hstat hmade
        obtain ⟨fd, hstep⟩ := makeParents_step hensure (lookupAt_made hmade) names
        simp only [hstep]
        exact ih fd (dir ++ [name]) { w with tree := tree' }

theorem plain_mkdirat {tree tree' : Node} {dir : Loc} {name : Bytes}
    (h : mkdirat tree dir name = .ok tree') (q : Loc) :
    plain tree' q = if q = dir ++ [name] then some (.branch ()) else plain tree q := by
  obtain ⟨-, -, -, -, hlook⟩ := mkdirat_ok h
  rw [plain, hlook, plain]
  by_cases hq : q = dir ++ [name]
  · rw [if_pos hq, if_pos hq]
    rfl
  · rw [if_neg hq, if_neg hq]

theorem mkdirat_eq_ok {tree : Node} {dir : Loc} {name : Bytes} :
    (∃ tree', mkdirat tree dir name = .ok tree') ↔
      plain tree dir = some (.branch ()) ∧ ∃ e, lookupAt tree dir [name] = .error e := by
  rw [plain_eq_branch]
  unfold mkdirat
  cases tree.look dir with
  | none => simp
  | some kind =>
    cases kind with
    | leaf f => simp
    | branch x => cases lookupAt tree dir [name] <;> simp

theorem lookupAt_error_append {tree : Node} {dir : Loc} {name : Bytes} {e : Errno}
    (h : lookupAt tree dir [name] = .error e) (names : List Bytes) :
    lookupAt tree dir (name :: names) = .error e := by
  have split : name :: names = [name] ++ names := rfl
  unfold lookupAt at h ⊢
  rw [split, walk_append]
  cases hwalk : walk (str ".") (str "..") (shape tree) dir [name] with
  | ok l => simp [hwalk] at h
  | error e' => simpa [hwalk, Except.bind] using h

theorem lookupAt_missing {tree : Node} {dir : Loc} {name : Bytes} {e : Errno}
    (hdir : plain tree dir = some (.branch ())) (h : lookupAt tree dir [name] = .error e) :
    e = .ENOENT := by
  obtain ⟨x, hx⟩ := plain_eq_branch.1 hdir
  have hshape : shape tree dir = some true := by rw [shape, hx]; rfl
  have missing := (lookupAt_error_iff hx).1 ⟨e, h⟩
  have hnext : shape tree (dir ++ [name]) = none := by rw [shape, missing.2.2]; rfl
  rw [lookupAt, walk, hshape] at h
  simp only [missing.1, missing.2.1, hnext, if_false, if_true, errnoOf] at h
  exact (Except.error.inj h).symm

def Grows (tree tree' : Node) : Prop := ∀ q view, plain tree q = some view → plain tree' q = some view

theorem grows_mkdirat {tree tree' : Node} {dir : Loc} {name : Bytes}
    (h : mkdirat tree dir name = .ok tree') : Grows tree tree' := by
  intro q view hq
  have fresh := (mkdirat_ok h).2.2.2.1
  rw [plain_mkdirat h]
  by_cases hloc : q = dir ++ [name]
  · rw [hloc, plain_eq_none.2 fresh] at hq
    cases hq
  · rw [if_neg hloc, hq]

theorem made_grows (names : List Bytes) (tree : Node) (dir : Loc) :
    Grows tree (made tree dir names).1 := by
  induction names generalizing tree dir with
  | nil => exact fun q view hq => hq
  | cons name names ih =>
    rw [made]
    cases lookupAt tree dir [name] with
    | ok next =>
      by_cases hbranch : shape tree next = some true
      · simp only [if_pos hbranch]
        exact ih tree next
      · simp only [if_neg hbranch]
        exact fun q view hq => hq
    | error e =>
      cases hmade : mkdirat tree dir name with
      | error e' => exact fun q view hq => hq
      | ok tree' => exact fun q view hq => ih tree' _ q view (grows_mkdirat hmade q view hq)

theorem lookupAt_no_directory {tree : Node} {dir : Loc} (hdir : plain tree dir ≠ none)
    (hbranch : plain tree dir ≠ some (.branch ())) (name : Bytes) (names : List Bytes) :
    lookupAt tree dir (name :: names) = .error .ENOTDIR := by
  cases hview : plain tree dir with
  | none => exact absurd hview hdir
  | some view =>
    cases view with
    | branch u => exact absurd hview hbranch
    | leaf c =>
      refine lookupAt_through names ?_
      rw [shape_eq_plain, hview]
      rfl

theorem plain_made_iff (names : List Bytes) (tree : Node) {dir : Loc} (hdir : plain tree dir ≠ none) :
    plain (made tree dir names).1 = plain tree ↔ lookupAt tree dir names ≠ .error .ENOENT := by
  induction names generalizing dir with
  | nil => exact iff_of_true rfl (by simp [lookupAt, walk])
  | cons name names ih =>
    rw [made]
    cases hlookup : lookupAt tree dir [name] with
    | ok next =>
      have hnext : plain tree next ≠ none := by
        obtain ⟨kind, hkind⟩ := look_of_lookupAt hlookup
        rw [ne_eq, plain_eq_none, hkind]
        simp
      have hrest : lookupAt tree dir (name :: names) = lookupAt tree next names :=
        lookupAt_append hlookup
      rw [hrest]
      by_cases hbranch : shape tree next = some true
      · simp only [if_pos hbranch]
        exact ih hnext
      · simp only [if_neg hbranch, true_iff]
        cases names with
        | nil => simp [lookupAt, walk]
        | cons c names =>
          have notBranch : plain tree next ≠ some (.branch ()) := by
            intro hplain
            rw [shape_eq_plain, hplain] at hbranch
            exact hbranch rfl
          rw [lookupAt_no_directory hnext notBranch]
          simp
    | error e =>
      rw [lookupAt_error_append hlookup]
      cases hmade : mkdirat tree dir name with
      | error e' =>
        refine iff_of_true rfl ?_
        have notBranch : plain tree dir ≠ some (.branch ()) := by
          intro hbranch
          obtain ⟨tree', hok⟩ := mkdirat_eq_ok.2 ⟨hbranch, e, hlookup⟩
          simp [hmade] at hok
        rw [lookupAt_no_directory hdir notBranch] at hlookup
        rw [← Except.error.inj hlookup]
        simp
      | ok tree' =>
        have hbranch := (mkdirat_eq_ok.1 ⟨tree', hmade⟩).1
        refine iff_of_false (fun same => ?_) ?_
        · have there : plain tree' (dir ++ [name]) = some (.branch ()) := by
            rw [plain_mkdirat hmade, if_pos rfl]
          have later := made_grows names tree' (dir ++ [name]) _ _ there
          have before := plain_eq_none.2 (mkdirat_ok hmade).2.2.2.1
          simp only [same, before] at later
          cases later
        · rw [lookupAt_missing hbranch hlookup]
          simp

theorem made_congr (names : List Bytes) {tree tree' : Node} (h : plain tree = plain tree')
    (dir : Loc) :
    plain (made tree dir names).1 = plain (made tree' dir names).1 ∧
      (made tree dir names).2 = (made tree' dir names).2 := by
  induction names generalizing tree tree' dir with
  | nil => exact ⟨h, rfl⟩
  | cons name names ih =>
    rw [made, made, ← lookupAt_congr h, ← shape_congr h]
    cases hlookup : lookupAt tree dir [name] with
    | ok next =>
      by_cases hbranch : shape tree next = some true
      · simp only [if_pos hbranch]
        exact ih h next
      · simp only [if_neg hbranch]
        exact ⟨h, trivial⟩
    | error e =>
      have both : (∃ t, mkdirat tree dir name = .ok t) ↔ ∃ t, mkdirat tree' dir name = .ok t := by
        rw [mkdirat_eq_ok, mkdirat_eq_ok, h, lookupAt_congr h]
      cases hmade : mkdirat tree dir name with
      | error e' =>
        cases hmade' : mkdirat tree' dir name with
        | error e'' => exact ⟨h, rfl⟩
        | ok t => simp [hmade, hmade'] at both
      | ok t =>
        cases hmade' : mkdirat tree' dir name with
        | error e'' => simp [hmade, hmade'] at both
        | ok t' =>
          refine ih ?_ _
          funext q
          rw [plain_mkdirat hmade, plain_mkdirat hmade', h]

def parentsMade (tree : Node) (target : Target) : Node × Bool :=
  if dirname target.path = str "." then (tree, true)
  else
    match openRead tree target.storageRoot with
    | .error _ => (tree, false)
    | .ok root => made tree root (components (dirname target.path))

def MissesParent (tree : Node) (target : Target) : Prop :=
  dirname target.path ≠ str "." ∧ ∃ root, openRead tree target.storageRoot = .ok root ∧
    lookupAt tree root (components (dirname target.path)) = .error .ENOENT

theorem createParents_run (target : Target) (w : World) :
    ((parentsMade w.tree target).2 = true ∧ createParents target w =
        .next () { w with tree := (parentsMade w.tree target).1 }) ∨
    ((parentsMade w.tree target).2 = false ∧ ∃ status, IsError status ∧
      createParents target w = .stop status { w with tree := (parentsMade w.tree target).1 }) := by
  unfold parentsMade createParents
  by_cases hdot : dirname target.path = str "."
  · simp only [if_pos hdot]
    exact Or.inl ⟨trivial, rfl⟩
  · simp only [if_neg hdot, attempt_bind]
    cases hroot : openRead w.tree target.storageRoot with
    | error e => exact Or.inr ⟨rfl, 500, by simp [IsError], rfl⟩
    | ok root => exact makeParents_run (Descriptors.freshFd w.fds) root _ w

theorem plain_of_openRead {tree : Node} {path : Bytes} {loc : Loc}
    (h : openRead tree path = .ok loc) : plain tree loc ≠ none := by
  have hnamei : namei tree path = .ok loc := h
  unfold namei lookupAt at hnamei
  cases hwalk : walk (str ".") (str "..") (shape tree) [] (pathNames path) with
  | error e => simp [hwalk] at hnamei
  | ok l =>
    rw [hwalk, Except.ok.injEq] at hnamei
    subst hnamei
    have start : shape tree [] ≠ none := by simp [shape, look_self]
    have ends := walk_ne_none (shape_closed tree) start hwalk
    intro none
    rw [shape_eq_plain, none] at ends
    exact ends rfl

theorem plain_parentsMade_iff (tree : Node) (target : Target) :
    plain (parentsMade tree target).1 = plain tree ↔ ¬ MissesParent tree target := by
  unfold parentsMade MissesParent
  by_cases hdot : dirname target.path = str "."
  · simp [hdot]
  · rw [if_neg hdot]
    cases hroot : openRead tree target.storageRoot with
    | error e => simp
    | ok root =>
      rw [plain_made_iff _ tree (plain_of_openRead hroot)]
      simp [hdot]

theorem parentsMade_congr {tree tree' : Node} (h : plain tree = plain tree') (target : Target) :
    plain (parentsMade tree target).1 = plain (parentsMade tree' target).1 ∧
      (parentsMade tree target).2 = (parentsMade tree' target).2 := by
  have hread : openRead tree target.storageRoot = openRead tree' target.storageRoot :=
    namei_congr h _
  unfold parentsMade
  by_cases hdot : dirname target.path = str "."
  · rw [if_pos hdot, if_pos hdot]
    exact ⟨h, rfl⟩
  · rw [if_neg hdot, if_neg hdot, hread]
    cases openRead tree' target.storageRoot with
    | error e => exact ⟨h, rfl⟩
    | ok root => exact made_congr _ h root

theorem namei_of_openCreate {tree tree' : Node} {path : Bytes} {loc : Loc}
    (h : openCreate tree path = .ok (loc, tree')) : namei tree' path = .ok loc := by
  obtain ⟨dir, last, x, rfl, hlast, hdir, hslash, hhere, hup, ⟨y, hy⟩, hold, hlook⟩ := openCreate_ok h
  have extends' : Extends (shape tree) (shape tree') := by
    intro p
    have fresh : p ≠ dir ++ [last] → shape tree' p = shape tree p := by
      intro hp
      rw [shape, shape, hlook, if_neg hp]
    by_cases hp : p = dir ++ [last]
    · have now : shape tree' p = some false := by
        rw [shape, hlook, if_pos hp]
        rfl
      refine ⟨fun hbranch => ?_, fun _ => by simp [now]⟩
      rcases hold with ⟨hnone, -⟩ | ⟨c, hc⟩
      · simp [shape, hp, hnone] at hbranch
      · simp [shape, hp, hc, Kind.isBranch] at hbranch
    · rw [fresh hp]
      exact ⟨id, id⟩
  have split : components path = (components path).dropLast ++ [last] :=
    (List.dropLast_append_getLast? last hlast).symm
  have there : shape tree' (dir ++ [last]) ≠ none := by
    rw [shape, hlook, if_pos rfl]
    simp
  have above : shape tree' dir = some true := (extends' dir).1 (by rw [shape, hy]; rfl)
  have hwalk : walk (str ".") (str "..") (shape tree) [] (components path).dropLast = .ok dir := by
    unfold lookupAt at hdir
    cases hw : walk (str ".") (str "..") (shape tree) [] (components path).dropLast with
    | error e => simp [hw] at hdir
    | ok l => simpa [hw] using hdir
  rw [namei, pathNames, if_neg hslash, List.append_nil, split, lookupAt, walk_append,
    walk_mono extends' hwalk]
  simp only [Except.bind]
  rw [walk_down above hhere hup there]
  rfl

theorem openCreate_eq_ok {tree : Node} {path : Bytes} :
    (∃ r, openCreate tree path = .ok r) ↔
      ∃ dir last, (components path).getLast? = some last ∧
        lookupAt tree [] (components path).dropLast = .ok dir ∧
        ¬ (path.getLast? = some slash ∨ last = str "." ∨ last = str "..") ∧
        plain tree dir = some (.branch ()) ∧ plain tree (dir ++ [last]) ≠ some (.branch ()) := by
  constructor
  · intro h
    obtain ⟨r, hr⟩ := h
    obtain ⟨dir, last, x, hloc, hlast, hdir, hslash, hhere, hup, hbranch, hold, -⟩ := openCreate_ok hr
    refine ⟨dir, last, hlast, hdir, by simp [hslash, hhere, hup], plain_eq_branch.2 hbranch, ?_⟩
    rw [hloc] at hold
    rcases hold with ⟨hnone, -⟩ | ⟨c, hc⟩
    · simp [plain_eq_none.2 hnone]
    · simp [plain_eq_leaf.2 ⟨x, hc⟩]
  · intro h
    obtain ⟨dir, last, hlast, hdir, hplain, hbranch, hold⟩ := h
    obtain ⟨x, hx⟩ := plain_eq_branch.1 hbranch
    unfold openCreate
    simp only [hlast, hdir, if_neg hplain, hx]
    cases hlook : tree.look (dir ++ [last]) with
    | none => exact ⟨_, rfl⟩
    | some kind =>
      cases kind with
      | leaf f => exact ⟨_, rfl⟩
      | branch y => exact absurd (plain_eq_branch.2 ⟨y, hlook⟩) hold

theorem openCreate_congr {tree tree' : Node} (h : plain tree = plain tree') (path : Bytes) :
    (∃ r, openCreate tree path = .ok r) ↔ ∃ r, openCreate tree' path = .ok r := by
  rw [openCreate_eq_ok, openCreate_eq_ok, h]
  simp only [lookupAt_congr h]

theorem openCreate_same {tree tree' : Node} (h : plain tree = plain tree') {path : Bytes}
    {r r' : Loc × Node} (hr : openCreate tree path = .ok r) (hr' : openCreate tree' path = .ok r') :
    r.1 = r'.1 ∧ plain r.2 = plain r'.2 := by
  obtain ⟨dir, last, x, hloc, hlast, hdir, -, -, -, -, -, hlook⟩ := openCreate_ok hr
  obtain ⟨dir', last', x', hloc', hlast', hdir', -, -, -, -, -, hlook'⟩ := openCreate_ok hr'
  rw [hlast, Option.some_inj] at hlast'
  rw [← lookupAt_congr h, hdir, Except.ok.injEq] at hdir'
  have same : r.1 = r'.1 := by rw [hloc, hloc', hlast', hdir']
  refine ⟨same, ?_⟩
  funext q
  have hq := congrFun h q
  rw [plain, plain] at hq
  rw [plain, plain, hlook, hlook', ← same]
  by_cases here : q = r.1
  · rw [if_pos here, if_pos here]
    rfl
  · rw [if_neg here, if_neg here, hq]

theorem plain_openCreate {tree : Node} {path : Bytes} {r : Loc × Node}
    (h : openCreate tree path = .ok r) (q : Loc) :
    Kernel.plain r.2 q = if q = r.1 then some (.leaf []) else Kernel.plain tree q := by
  obtain ⟨dir, last, x, -, -, -, -, -, -, -, -, hlook⟩ := openCreate_ok h
  rw [Kernel.plain, Kernel.plain, hlook]
  by_cases hq : q = r.1
  · rw [if_pos hq, if_pos hq]
    rfl
  · rw [if_neg hq, if_neg hq]

def Opens (tree : Node) (target : Target) : Prop :=
  (parentsMade tree target).2 = true ∧ ∃ r, openCreate (parentsMade tree target).1 target.diskPath = .ok r

theorem Grows.extends {tree tree' : Node} (h : Grows tree tree') :
    Extends (shape tree) (shape tree') := by
  intro q
  rw [shape_eq_plain, shape_eq_plain]
  cases hq : plain tree q with
  | none => simp
  | some view =>
    rw [h q view hq]
    exact ⟨id, id⟩

theorem Grows.namei_eq {tree tree' : Node} (h : Grows tree tree') {path : Bytes} {loc : Loc}
    (hnamei : namei tree path = .ok loc) : namei tree' path = .ok loc := by
  unfold namei lookupAt at hnamei ⊢
  cases hwalk : walk (str ".") (str "..") (shape tree) [] (pathNames path) with
  | error e => simp [hwalk] at hnamei
  | ok l =>
    rw [walk_mono h.extends hwalk]
    simpa [hwalk] using hnamei

theorem Grows.viewAt_eq {tree tree' : Node} (h : Grows tree tree') {path : Bytes} {view : View}
    (hview : viewAt tree path = some view) : viewAt tree' path = some view := by
  rw [Kernel.viewAt_eq] at hview ⊢
  cases hnamei : namei tree path with
  | error e => simp [hnamei, Except.toOption] at hview
  | ok loc =>
    rw [hnamei] at hview
    rw [h.namei_eq hnamei]
    exact h loc view hview

theorem parentsMade_grows (tree : Node) (target : Target) :
    Grows tree (parentsMade tree target).1 := by
  unfold parentsMade
  by_cases hdot : dirname target.path = str "."
  · rw [if_pos hdot]
    exact fun q view hq => hq
  · rw [if_neg hdot]
    cases openRead tree target.storageRoot with
    | error e => exact fun q view hq => hq
    | ok root => exact made_grows _ tree root

theorem viewAt_of_openCreate {tree : Node} {path : Bytes} {r : Loc × Node}
    (h : openCreate tree path = .ok r) : viewAt tree path ≠ some (.branch ()) := by
  rcases openCreate_ok h with
    ⟨dir, last, x, hloc, hlast, hdir, hslash, hhere, hup, ⟨y, hy⟩, hold, -⟩
  have split : components path = (components path).dropLast ++ [last] :=
    (List.dropLast_append_getLast? last hlast).symm
  have hnamei : namei tree path = lookupAt tree dir [last] := by
    rw [namei, pathNames, if_neg hslash, List.append_nil, split]
    exact lookupAt_append hdir
  rw [Kernel.viewAt_eq, hnamei]
  cases hlookup : lookupAt tree dir [last] with
  | error e => simp [Except.toOption]
  | ok loc =>
    have there : ¬ ∃ e, lookupAt tree dir [last] = .error e := by simp [hlookup]
    rw [lookupAt_error_iff hy] at there
    have hbranch : shape tree dir = some true := by rw [shape, hy]; rfl
    have hnext : shape tree (dir ++ [last]) ≠ none := by
      rw [shape, ne_eq, Option.map_eq_none_iff]
      exact fun none => there ⟨hhere, hup, none⟩
    have same : lookupAt tree dir [last] = .ok r.1 := by
      rw [hloc, lookupAt, walk_down hbranch hhere hup hnext]
      rfl
    rw [hlookup, Except.ok.injEq] at same
    subst same
    simp only [Except.toOption, Option.bind_some, ne_eq, plain_eq_branch]
    rcases hold with ⟨hnone, -⟩ | ⟨c, hc⟩
    · simp [hnone]
    · simp [hc]

theorem not_opens_of_branch {tree : Node} {target : Target}
    (h : viewAt tree target.diskPath = some (.branch ())) : ¬ Opens tree target := by
  intro opens
  obtain ⟨r, hr⟩ := opens.2
  exact viewAt_of_openCreate hr ((parentsMade_grows tree target).viewAt_eq h)

theorem shape_write (tree : Node) (loc : Loc) (content : Bytes) :
    shape (write tree loc content) = shape tree := by
  funext q
  rw [shape, shape, Kernel.write, look_modify_setContent]
  by_cases hq : q = loc
  · rw [if_pos hq]
    cases tree.look q with
    | none => rfl
    | some kind => cases kind <;> rfl
  · rw [if_neg hq]

theorem look_write {tree : Node} {loc : Loc} {f : FileData}
    (h : tree.look loc = some (.leaf f)) (content : Bytes) :
    (write tree loc content).look loc = some (.leaf { f with content := content }) := by
  rw [Kernel.write, look_modify_setContent, if_pos rfl, h]
  rfl

theorem plain_write {tree : Node} {loc : Loc} {f : FileData} (h : tree.look loc = some (.leaf f))
    (content : Bytes) (q : Loc) :
    Kernel.plain (write tree loc content) q =
      if q = loc then some (.leaf content) else Kernel.plain tree q := by
  rw [Kernel.plain, Kernel.plain, Kernel.write, look_modify_setContent]
  by_cases hq : q = loc
  · rw [if_pos hq, if_pos hq, hq, h]
    rfl
  · rw [if_neg hq, if_neg hq]

theorem look_setxattr {tree : Node} {path : Bytes} {loc : Loc} {f : FileData}
    (hnamei : namei tree path = .ok loc) (h : tree.look loc = some (.leaf f))
    (g : Xattrs → Xattrs) :
    (setxattr tree path g).look loc = some (.leaf { f with xattrs := g f.xattrs }) := by
  simp only [setxattr, hnamei]
  rw [look_modify_mapXattrs, if_pos rfl, h]
  rfl

end RsServe.Parents
