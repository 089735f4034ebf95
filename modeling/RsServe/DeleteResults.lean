import RsServe.PutResults

/-! What a DELETE leaves behind, and when the removal of the empty parents ends well. -/

namespace RsServe.DeleteResults
open CString NameTree TreeWalk Kernel Attributes Stamping Descriptors DiskPath Dirname EarlyExit
open Storage StorageRules Dispatch Parents PutResults

variable {env : Env}

/-- From `dirPath` outwards every directory is removed, up to one that is not empty or to the
storage root. -/
inductive Clears (root : Loc) : Node → Bytes → Prop where
  | top (tree : Node) : Clears root tree (str ".")
  | full {tree : Node} {dirPath : Bytes} {e : Errno} (hcall : rmdirat tree root dirPath = .error e)
      (hfull : e = .ENOTEMPTY ∨ e = .EEXIST) : Clears root tree dirPath
  | empty {tree tree' : Node} {dirPath : Bytes} (hcall : rmdirat tree root dirPath = .ok tree')
      (hclears : Clears root tree' (dirname dirPath)) : Clears root tree dirPath

theorem not_clears {root : Loc} {tree : Node} {dirPath : Bytes} {e : Errno}
    (hdir : dirPath ≠ str ".") (hcall : rmdirat tree root dirPath = .error e)
    (hother : ¬ (e = .ENOTEMPTY ∨ e = .EEXIST)) : ¬ Clears root tree dirPath := by
  intro clears
  cases clears with
  | top => exact hdir rfl
  | full hcall' hfull =>
    rw [hcall, Except.error.injEq] at hcall'
    exact hother (hcall' ▸ hfull)
  | empty hcall' => simp [hcall] at hcall'

theorem removeParents_iff (root : Loc) (dirPath : Bytes) (tree : Node) :
    (removeParents root dirPath tree).2 = 200 ↔ Clears root tree dirPath := by
  fun_induction removeParents root dirPath tree with
  | case1 tree => exact iff_of_true rfl (Clears.top tree)
  | case2 dirPath tree hdir e hcall hfull => exact iff_of_true rfl (Clears.full hcall hfull)
  | case3 dirPath tree hdir e hcall hother =>
    exact iff_of_false (by simp) (not_clears hdir hcall hother)
  | case4 dirPath tree hdir tree' hcall ih =>
    rw [ih]
    refine ⟨fun clears => Clears.empty hcall clears, fun clears => ?_⟩
    cases clears with
    | top => exact absurd rfl hdir
    | full hcall' => simp [hcall] at hcall'
    | empty hcall' hclears =>
      rw [hcall, Except.ok.injEq] at hcall'
      exact hcall' ▸ hclears

def sameResult : Except Errno Node → Except Errno Node → Prop
  | .ok tree, .ok tree' => plain tree = plain tree'
  | .error e, .error e' => e = e'
  | _, _ => False

theorem get?_kind {tree : Node} {loc : Loc} {n : Node} (h : tree.get? loc = some n) :
    tree.look loc = some n.kind := by
  rw [Tree.look, h]
  rfl

theorem entries_congr {tree tree' : Node} (h : plain tree = plain tree') {loc : Loc}
    {entries entries' : List (Bytes × Node)} {x x' : Xattrs}
    (hn : tree.get? loc = some (.branch entries x))
    (hn' : tree'.get? loc = some (.branch entries' x')) (hempty : entries = []) : entries' = [] := by
  refine entries_eq_nil hn' fun k => ?_
  rw [← plain_eq_none, ← h, plain_eq_none, look_append, hn, Option.bind_some, hempty]
  rfl

theorem plain_of_get {tree : Node} {loc : Loc} {n : Node} (h : tree.get? loc = some n) :
    plain tree loc = some (plainKind n.kind) := by
  rw [plain, get?_kind h]
  rfl

theorem get_of_plain {tree : Node} {loc : Loc} {view : View} (h : plain tree loc = some view) :
    ∃ n, tree.get? loc = some n ∧ plainKind n.kind = view := by
  rw [plain, Tree.look, Option.map_map, Option.map_eq_some_iff] at h
  exact h

theorem plain_unlink {tree : Node} {loc : Loc} {name : Bytes} {x : Xattrs}
    (h : tree.get? (loc ++ [name]) = some (.branch [] x)) (q : Loc) :
    plain (tree.unlink loc name) q = if q = loc ++ [name] then none else plain tree q := by
  rw [plain, plain, look_unlink_empty h]
  by_cases hq : q = loc ++ [name]
  · rw [if_pos hq, if_pos hq]
    rfl
  · rw [if_neg hq, if_neg hq]

theorem get?_congr {tree tree' : Node} (h : plain tree = plain tree') (loc : Loc) :
    (tree.get? loc = none ∧ tree'.get? loc = none) ∨
      (∃ f f', tree.get? loc = some (.leaf f) ∧ tree'.get? loc = some (.leaf f')) ∨
      ∃ entries entries' x x', tree.get? loc = some (.branch entries x) ∧
        tree'.get? loc = some (.branch entries' x') ∧ (entries = [] ↔ entries' = []) := by
  have hloc := congrFun h loc
  cases hn : tree.get? loc with
  | none =>
    have none : plain tree' loc = none := by
      rw [← hloc, plain, Tree.look, hn]
      rfl
    rw [plain, Option.map_eq_none_iff, Tree.look, Option.map_eq_none_iff] at none
    exact Or.inl ⟨rfl, none⟩
  | some n =>
    obtain ⟨n', hn', hkind⟩ := get_of_plain (hloc.symm.trans (plain_of_get hn))
    cases n with
    | leaf f =>
      cases n' with
      | leaf f' => exact Or.inr (Or.inl ⟨f, f', rfl, hn'⟩)
      | branch entries' x' => cases hkind
    | branch entries x =>
      cases n' with
      | leaf f' => cases hkind
      | branch entries' x' =>
        exact Or.inr (Or.inr ⟨entries, entries', x, x', rfl, hn',
          entries_congr h hn hn', entries_congr h.symm hn' hn⟩)

theorem rmdirat_congr {tree tree' : Node} (h : plain tree = plain tree') (root : Loc)
    (dirPath : Bytes) : sameResult (rmdirat tree root dirPath) (rmdirat tree' root dirPath) := by
  unfold rmdirat
  cases (components dirPath).getLast? with
  | none => rfl
  | some last =>
    simp only [← lookupAt_congr h]
    cases lookupAt tree (if dirPath.head? = some slash then [] else root)
        (components dirPath).dropLast with
    | error e => rfl
    | ok parent =>
      by_cases hhere : last = str "."
      · simp only [if_pos hhere]
        rfl
      by_cases hup : last = str ".."
      · simp only [if_neg hhere, if_pos hup]
        rfl
      simp only [if_neg hhere, if_neg hup, Tree.look]
      rcases get?_congr h parent with ⟨hp, hp'⟩ | ⟨f, f', hp, hp'⟩ | ⟨_, _, x, x', hp, hp', -⟩
      · rw [hp, hp']
        rfl
      · rw [hp, hp']
        rfl
      · rw [hp, hp']
        rcases get?_congr h (parent ++ [last]) with
          ⟨hn, hn'⟩ | ⟨f, f', hn, hn'⟩ | ⟨entries, entries', y, y', hn, hn', same⟩
        · rw [hn, hn']
          rfl
        · rw [hn, hn']
          rfl
        · rw [hn, hn']
          by_cases hempty : entries = []
          · have hempty' := same.1 hempty
            subst hempty hempty'
            simp only [Option.map_some, Tree.kind, if_true, sameResult]
            funext q
            rw [plain_unlink hn, plain_unlink hn', h]
          · have hempty' : ¬ entries' = [] := fun e => hempty (same.2 e)
            simp only [Option.map_some, Tree.kind, if_neg hempty, if_neg hempty', sameResult]

theorem clears_congr {root : Loc} {tree tree' : Node} {dirPath : Bytes}
    (clears : Clears root tree dirPath) (h : plain tree = plain tree') :
    Clears root tree' dirPath := by
  induction clears generalizing tree' with
  | top tree => exact Clears.top tree'
  | @full tree dirPath e hcall hfull =>
    have same := rmdirat_congr h root dirPath
    rw [hcall] at same
    cases hcall' : rmdirat tree' root dirPath with
    | ok t => simp [hcall', sameResult] at same
    | error e' =>
      simp only [hcall', sameResult] at same
      exact Clears.full hcall' (same ▸ hfull)
  | @empty tree next dirPath hcall hclears ih =>
    have same := rmdirat_congr h root dirPath
    rw [hcall] at same
    cases hcall' : rmdirat tree' root dirPath with
    | error e => simp [hcall', sameResult] at same
    | ok t =>
      simp only [hcall', sameResult] at same
      exact Clears.empty hcall' (ih same)

def Tidies (tree : Node) (target : Target) : Prop :=
  ∃ root, openRead tree target.storageRoot = .ok root ∧
    Clears root tree (dirname (target.path.drop 1))

theorem tidies_congr {tree tree' : Node} (h : plain tree = plain tree') (target : Target) :
    Tidies tree target ↔ Tidies tree' target := by
  have hread : openRead tree target.storageRoot = openRead tree' target.storageRoot :=
    namei_congr h _
  unfold Tidies
  rw [hread]
  constructor
  · intro tidies
    obtain ⟨root, hroot, clears⟩ := tidies
    exact ⟨root, hroot, clears_congr clears h⟩
  · intro tidies
    obtain ⟨root, hroot, clears⟩ := tidies
    exact ⟨root, hroot, clears_congr clears h.symm⟩

def Shrinks (tree tree' : Node) : Prop := ∀ q, plain tree q = none → plain tree' q = none

theorem shrinks_rmdirat {start tree tree' : Node} {root : Loc} {dirPath : Bytes}
    (h : Shrinks start tree) (hcall : rmdirat tree root dirPath = .ok tree') :
    Shrinks start tree' := by
  obtain ⟨parent, last, x, -, -, -, hlook⟩ := rmdirat_ok hcall
  intro q hq
  rw [plain_eq_none, hlook]
  by_cases hloc : q = parent ++ [last]
  · rw [if_pos hloc]
  · rw [if_neg hloc]
    exact plain_eq_none.1 (h q hq)

theorem removeEmptyParents_run (target : Target) (w : World) :
    (Tidies w.tree target ∧ ∃ w', removeEmptyParents target w = .next 200 w' ∧
      Shrinks w.tree w'.tree ∧ w'.fds = w.fds ∧ ∀ root, openRead w.tree target.storageRoot =
        .ok root → w'.tree = (removeParents root (dirname (target.path.drop 1)) w.tree).1) ∨
    (¬ Tidies w.tree target ∧ ∃ status w', IsError status ∧
      removeEmptyParents target w = .stop status w' ∧ Shrinks w.tree w'.tree ∧
      Leaves (∃ root, openRead w.tree target.storageRoot = .ok root) w.fds w'.fds) := by
  unfold removeEmptyParents
  simp only [attempt_bind]
  cases hroot : openRead w.tree target.storageRoot with
  | error e =>
    refine Or.inr ⟨fun tidies => ?_, 500, w, by simp [IsError], rfl, fun q hq => hq,
      (leaves_none _).congr (by simp)⟩
    obtain ⟨root, hroot', -⟩ := tidies
    simp [hroot] at hroot'
  | ok root =>
    let removed := removeParents root (dirname (target.path.drop 1)) w.tree
    have start : Shrinks w.tree w.tree := fun q hq => hq
    have kept : (removed.2 = 200 ∨ IsError removed.2) ∧ Shrinks w.tree removed.1 :=
      removeParents_kept (fun _ _ _ _ h hcall => shrinks_rmdirat h hcall) root _ start
    have hclears := removeParents_iff root (dirname (target.path.drop 1)) w.tree
    have hopen : openFd w = .next (freshFd w.fds)
      { w with fds := freshFd w.fds :: w.fds } := rfl
    simp only
    rw [bind_of_next hopen]
    simp only [read_bind, setTree, update_bind]
    by_cases h200 : removed.2 = 200
    · refine Or.inl ⟨⟨root, hroot, hclears.1 h200⟩, ?_⟩
      rw [if_neg (not_not.2 h200)]
      refine ⟨_, rfl, kept.2, by simp [closing], fun root' hroot' => ?_⟩
      rw [← Except.ok.inj hroot']
      rfl
    · let left : World := { w with tree := removed.1, fds := freshFd w.fds :: w.fds }
      refine Or.inr ⟨fun tidies => ?_, removed.2, left, kept.1.resolve_left h200, ?_, kept.2,
        (leaves_fresh w.fds).congr (by simp)⟩
      · obtain ⟨root', hroot', clears⟩ := tidies
        rw [hroot, Except.ok.injEq] at hroot'
        subst hroot'
        exact h200 (hclears.2 clears)
      · rw [if_pos h200]
        rfl

def Deletable (env : Env) (req : Request) (tree : Node) : Prop :=
  (∃ content, viewAt tree (targetOf env req).diskPath = some (.leaf content)) ∧
    ∀ e, req.headersIn.ifMatch = some e →
      (getEtag env.sha1 tree (targetOf env req).diskPath).map Prod.fst = some e

theorem components_diskPath_ne_nil (env : Env) (req : Request) :
    components (targetOf env req).diskPath ≠ [] := by
  have located := components_diskPath env.cfg req.user req.path
  rw [targetOf, located, location]
  simp

theorem unlink_congr {tree tree' t : Node} (h : plain tree = plain tree') {path : Bytes}
    (hpath : components path ≠ []) (hcall : unlink tree path = .ok t) :
    ∃ t', unlink tree' path = .ok t' ∧ plain t' = plain t := by
  obtain ⟨loc, f, hnamei, hlook, hlook'⟩ := unlink_ok hpath hcall
  have hnamei' : namei tree' path = .ok loc := (namei_congr h path).symm.trans hnamei
  have hleaf : plain tree' loc = some (.leaf f.content) := by
    rw [← h]
    exact plain_eq_leaf.2 ⟨f.xattrs, hlook⟩
  obtain ⟨x, hx⟩ := plain_eq_leaf.1 hleaf
  have hstat : stat tree' path = .ok (.leaf ⟨f.content, x⟩) := stat_eq_ok.2 ⟨loc, hnamei', hx⟩
  have hcall' : unlink tree' path = .ok (unlinkLast tree' loc) := by
    simp only [unlink, hstat, hnamei']
  refine ⟨_, hcall', ?_⟩
  obtain ⟨loc', f', hnamei'', -, hlook''⟩ := unlink_ok hpath hcall'
  rw [hnamei', Except.ok.injEq] at hnamei''
  subst hnamei''
  funext q
  have hq := congrFun h q
  rw [plain, plain] at hq
  rw [plain, plain, hlook', hlook'']
  by_cases here : q = loc
  · rw [if_pos here, if_pos here]
  · rw [if_neg here, if_neg here, hq]

def ComparesDocument (env : Env) (req : Request) (tree : Node) : Prop :=
  (∃ content, viewAt tree (targetOf env req).diskPath = some (.leaf content)) ∧
    Computes tree (targetOf env req).diskPath

def refusal : Option View → Nat
  | none => 404
  | some (.branch _) => 400
  | some (.leaf _) => 412

theorem isError_refusal (view : Option View) : IsError (refusal view) := by
  cases view with
  | none => simp [refusal, IsError]
  | some view => cases view <;> simp [refusal, IsError]

theorem storageHandleDelete_cases {req : Request} (hfile : req.file ≠ none) (w : World) :
    (¬ Deletable env req w.tree ∧ ∃ w', storageHandleDelete env req w =
        .stop (refusal (viewAt w.tree (targetOf env req).diskPath)) w' ∧
      plain w'.tree = plain w.tree ∧ w'.headersOut = w.headersOut ∧
      Leaves (ComparesDocument env req w.tree) w.fds w'.fds) ∨
    (Deletable env req w.tree ∧ ∃ t etag w', unlink w.tree (targetOf env req).diskPath = .ok t ∧
      plain w'.tree = plain t ∧
      (getEtag env.sha1 w.tree (targetOf env req).diskPath).map Prod.fst = some etag ∧
      w'.headersOut = w.headersOut ++ [(str "ETag", etag)] ∧
      Leaves (ComparesDocument env req w.tree) w.fds w'.fds ∧
      storageHandleDelete env req w = removeEmptyParents (targetOf env req) w') := by
  have hpath := components_diskPath_ne_nil env req
  unfold storageHandleDelete Deletable ComparesDocument targetOf at *
  simp only [if_neg hfile, attempt_bind]
  cases hstat : stat w.tree (makeDiskPath env.cfg req.user req.path).diskPath with
  | error e =>
    rw [viewAt_eq_none.2 ⟨e, hstat⟩]
    refine Or.inl ⟨fun deletable => ?_, w, rfl, rfl, rfl, (leaves_none _).congr (by simp)⟩
    obtain ⟨content, hview⟩ := deletable.1
    simp at hview
  | ok statBuf =>
    rw [viewAt_of_stat hstat]
    cases statBuf with
    | branch x =>
      refine Or.inl ⟨fun deletable => ?_, w, rfl, rfl, rfl,
        (leaves_none _).congr (by simp [plainKind])⟩
      obtain ⟨content, hview⟩ := deletable.1
      simp [plainKind] at hview
    | leaf f =>
      obtain ⟨r, hetag⟩ := getEtag_ne_none env.sha1 hstat
      have hplain := plain_getEtag hetag
      let stamped : World := { w with
        tree := r.2, fds := getEtagFds w.tree
          (makeDiskPath env.cfg req.user req.path).diskPath w.fds }
      have leaves : Leaves ((∃ content, some (plainKind (.leaf f)) = some (.leaf content)) ∧
          Computes w.tree (makeDiskPath env.cfg req.user req.path).diskPath) w.fds stamped.fds :=
        (leaves_getEtagFds _ _ _).congr (by simp [plainKind])
      have hfound : etagOf env (makeDiskPath env.cfg req.user req.path).diskPath w =
          .next (some r.1) stamped := etagOf_of_getEtag env hetag
      have hleaf : ¬ (Kind.leaf f : Stat).isBranch = true := by simp [Kind.isBranch]
      simp only [if_neg hleaf]
      rw [bind_of_next hfound]
      simp only [deref, pure_bind_apply, hetag, Option.map_some]
      by_cases hmatch : req.headersIn.ifMatch.any (· ≠ r.1)
      · rw [if_pos hmatch]
        refine Or.inl ⟨fun deletable => ?_, stamped, rfl, hplain, rfl, leaves⟩
        obtain ⟨e, he, hne⟩ := (Option.any_eq_true _ _).1 hmatch
        have same := deletable.2 e he
        rw [Option.some_inj] at same
        simp [same] at hne
      · rw [if_neg hmatch]
        obtain ⟨loc, hnamei, -⟩ := stat_eq_ok.1 hstat
        have hunlink : unlink w.tree (makeDiskPath env.cfg req.user req.path).diskPath =
            .ok (unlinkLast w.tree loc) := by simp only [unlink, hstat, hnamei]
        obtain ⟨t, ht, hsame⟩ := unlink_congr hplain.symm hpath hunlink
        refine Or.inr ⟨⟨⟨f.content, rfl⟩, fun e he => ?_⟩, _, r.1, { stamped with
          tree := t, headersOut := w.headersOut ++ [(str "ETag", r.1)] }, hunlink, hsame, rfl, rfl,
          leaves, ?_⟩
        · rw [Option.some_inj]
          by_contra hne
          exact hmatch ((Option.any_eq_true _ _).2 ⟨e, he, by simpa using Ne.symm hne⟩)
        · have ht' : unlink { stamped with headersOut := w.headersOut ++ [(str "ETag", r.1)] }.tree
              (makeDiskPath env.cfg req.user req.path).diskPath = .ok t := ht
          simp only [addRespHeader, update_bind, attempt_bind]
          rw [ht']
          rfl

theorem storageHandleDelete_folder {req : Request} (hfile : req.file = none) (w : World) :
    storageHandleDelete env req w = .stop 400 w := by
  unfold storageHandleDelete
  rw [if_pos hfile]
  rfl

def FailedDeleteKeeps (env : Env) (req : Request) (tree : Node) (fds : List Nat) : Prop :=
  ∀ status, (storageHandleDelete env req (arrival tree fds)).result? = some status →
    IsError status → plain (storageHandleDelete env req (arrival tree fds)).state.tree = plain tree

theorem failedDeleteKeeps_of_unlink {env : Env} {req : Request} (hfile : req.file ≠ none)
    {tree t : Node} (hdeletable : Deletable env req tree)
    (hunlink : unlink tree (targetOf env req).diskPath = .ok t) (fds : List Nat) :
    FailedDeleteKeeps env req tree fds ↔ Tidies t (targetOf env req) := by
  unfold FailedDeleteKeeps
  rcases storageHandleDelete_cases hfile (arrival tree fds) with
    ⟨refused, -⟩ | ⟨-, t', etag, w', hunlink', hplain, -, -, -, hrun⟩
  · exact absurd hdeletable refused
  · have same : t' = t := Except.ok.inj (hunlink'.symm.trans hunlink)
    subst same
    obtain ⟨loc, f, -, hlook, hlook'⟩ := unlink_ok (components_diskPath_ne_nil env req) hunlink
    have gone : plain w'.tree loc = none := by
      rw [hplain, plain_eq_none, hlook', if_pos rfl]
    rw [hrun, ← tidies_congr hplain]
    rcases removeEmptyParents_run (targetOf env req) w' with
      ⟨tidies, w'', htidy, -⟩ | ⟨untidy, status, w'', herror, htidy, shrinks, -⟩
    · rw [htidy]
      refine iff_of_true (fun status hstatus herror => ?_) tidies
      rw [← Option.some.inj hstatus] at herror
      simp [IsError] at herror
    · rw [htidy]
      refine iff_of_false (fun keeps => ?_) untidy
      have unchanged : plain w''.tree = plain tree := keeps status rfl herror
      have absent := shrinks loc gone
      rw [unchanged, plain_eq_none, hlook] at absent
      cases absent

/-- A failed DELETE changes nothing if and only if the one that removes its file can also
remove the empty parents. -/
theorem failedDeleteKeeps_iff (env : Env) (req : Request) (tree : Node) (fds : List Nat) :
    FailedDeleteKeeps env req tree fds ↔
      (req.file ≠ none → Deletable env req tree →
        ∀ t, unlink tree (targetOf env req).diskPath = .ok t → Tidies t (targetOf env req)) := by
  by_cases hfile : req.file = none
  · unfold FailedDeleteKeeps
    rw [storageHandleDelete_folder hfile]
    exact iff_of_true (fun _ _ _ => rfl) fun hsome => absurd hfile hsome
  · by_cases hdeletable : Deletable env req tree
    · constructor
      · intro keeps _ _ t hunlink
        exact (failedDeleteKeeps_of_unlink hfile hdeletable hunlink fds).1 keeps
      · intro holds
        rcases storageHandleDelete_cases hfile (arrival tree fds) with
          ⟨refused, -⟩ | ⟨-, t, etag, w', hunlink, -⟩
        · exact absurd hdeletable refused
        · exact (failedDeleteKeeps_of_unlink hfile hdeletable hunlink fds).2
            (holds hfile hdeletable t hunlink)
    · refine iff_of_true ?_ fun _ deletable => absurd deletable hdeletable
      rcases storageHandleDelete_cases hfile (arrival tree fds) with
        ⟨-, w', hrun, hplain, -⟩ | ⟨deletable, -⟩
      · unfold FailedDeleteKeeps
        rw [hrun]
        exact fun _ _ _ => hplain
      · exact absurd deletable hdeletable

def sampleDelete : Request :=
  { samplePut (str "/a/./b") (str "b") with method := .DELETE, bufferIn := [] }

def oneDocument : Node :=
  homeOf (str "me") [(str "storage", folder [(str "a", folder
    [(str "b", .leaf ⟨str "hello", noXattrs⟩)])])]

theorem dot_delete_fails : ¬ FailedDeleteKeeps sampleEnv sampleDelete oneDocument [0, 1, 2] := by
  have hdeletable : Deletable sampleEnv sampleDelete oneDocument :=
    ⟨⟨str "hello", by decide +kernel⟩, fun e he => by cases he⟩
  have hstat : stat oneDocument (str "/home/me/storage/a/./b") =
    .ok (.leaf ⟨str "hello", noXattrs⟩) := by decide +kernel
  have hnamei : namei oneDocument (str "/home/me/storage/a/./b") =
    .ok [str "home", str "me", str "storage", str "a", str "b"] := by decide +kernel
  have hunlink : unlink oneDocument (targetOf sampleEnv sampleDelete).diskPath =
      .ok (homeOf (str "me") [(str "storage", folder [(str "a", folder [])])]) := by
    have hpath : (targetOf sampleEnv sampleDelete).diskPath = str "/home/me/storage/a/./b" := by
      decide +kernel
    rw [hpath]
    simp only [unlink, hstat, hnamei]
    rfl
  rw [failedDeleteKeeps_of_unlink (by decide) hdeletable hunlink]
  intro tidies
  obtain ⟨root, hroot, clears⟩ := tidies
  have hroot' : openRead (homeOf (str "me") [(str "storage", folder [(str "a", folder [])])])
      (str "/home/me/storage") = .ok [str "home", str "me", str "storage"] := by decide +kernel
  have hdir : dirname ((targetOf sampleEnv sampleDelete).path.drop 1) = str "a/." := by
    decide +kernel
  have same := Except.ok.inj (hroot'.symm.trans hroot)
  subst same
  rw [hdir] at clears
  have names : components (str "a/.") = [str "a", str "."] := by decide
  have parent : lookupAt (homeOf (str "me") [(str "storage", folder [(str "a", folder [])])])
      [str "home", str "me", str "storage"] [str "a"] =
        .ok [str "home", str "me", str "storage", str "a"] := by decide +kernel
  have relative : (str "a/.").head? ≠ some slash := by decide
  have refused : rmdirat (homeOf (str "me") [(str "storage", folder [(str "a", folder [])])])
      [str "home", str "me", str "storage"] (str "a/.") = .error .EINVAL := by
    simp [rmdirat, names, if_neg relative, parent]
  exact not_clears (by decide) refused (by simp) clears

end RsServe.DeleteResults
