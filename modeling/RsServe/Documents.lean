import RsServe.CanonicalPaths
import RsServe.DeleteResults
import RsServe.DocumentMap
import RsServe.Responses

/-! The files below a storage root as a map of documents. -/

namespace RsServe.Documents
open CString NameTree TreeWalk Kernel Attributes DiskPath Dirname EarlyExit Storage StorageRules
open Users Dispatch ChildPaths Parents PutResults DeleteResults Responses CanonicalPaths DocumentMap

variable {env : Env} {start tree : Node} {root : Loc} {docs : Docs Bytes Bytes}

theorem storageRoot_getLast (cfg : Config) (user : Bytes) :
    (storageRoot cfg user).getLast? ≠ some slash := by
  have split : storageRoot cfg user = (str "/home/" ++ user ++ [slash]) ++ cfg.homeServeRoot := by
    simp [storageRoot]
  rw [split, List.getLast?_append_of_ne_nil _ cfg.plainRoot.ne_nil]
  exact getLast_name cfg.plainRoot

theorem namei_root (cfg : Config) (user : Bytes) (tree : Node) :
    namei tree (storageRoot cfg user) = lookupAt tree [] (components (storageRoot cfg user)) := by
  rw [namei, pathNames, if_neg (storageRoot_getLast cfg user), List.append_nil]

theorem diskPath_canonical {path : Bytes} (h : Canonical path) (cfg : Config) (user : Bytes) :
    makeDiskPath cfg user path = ⟨storageRoot cfg user ++ path, storageRoot cfg user, path⟩ := by
  rw [makeDiskPath, h.rewritePath_eq]

theorem pathNames_canonical {path : Bytes} (h : Canonical path) (cfg : Config) (user : Bytes) :
    pathNames (makeDiskPath cfg user path).diskPath =
      components (storageRoot cfg user) ++ components path := by
  have hne : path ≠ [] := by
    intro nil
    have first := h.starts
    rw [nil] at first
    cases first
  have last : (storageRoot cfg user ++ path).getLast? ≠ some slash := by
    rw [List.getLast?_append_of_ne_nil _ hne]
    exact h.ends
  rw [diskPath_canonical h, pathNames, if_neg last, List.append_nil, components_append h.starts]

theorem namei_canonical {path : Bytes} (h : Canonical path) {cfg : Config} {user : Bytes}
    (hroot : namei tree (storageRoot cfg user) = .ok root) :
    namei tree (makeDiskPath cfg user path).diskPath = lookupAt tree root (components path) := by
  rw [namei_root] at hroot
  rw [namei, pathNames_canonical h, lookupAt_append hroot]

theorem lookupAt_ok {names : List Bytes} (h : ∀ name ∈ names, PlainName name)
    (hthere : plain tree (root ++ names) ≠ none) :
    lookupAt tree root names = .ok (root ++ names) := by
  rw [lookupAt, walk_plain (shape_closed tree)
    (fun name hname => ⟨(h name hname).ne_here, (h name hname).ne_up⟩) (shape_ne_none.2 hthere)]

theorem eq_of_lookupAt {names : List Bytes} (h : ∀ name ∈ names, PlainName name)
    (hroot : plain tree root ≠ none) {loc : Loc} (hlookup : lookupAt tree root names = .ok loc) :
    loc = root ++ names ∧ plain tree loc ≠ none := by
  unfold lookupAt at hlookup
  cases hwalk : walk (str ".") (str "..") (shape tree) root names with
  | error e => simp [hwalk] at hlookup
  | ok l =>
    have ends := walk_plain_inv (fun name hname => ⟨(h name hname).ne_here, (h name hname).ne_up⟩)
      (shape_ne_none.2 hroot) hwalk
    rw [hwalk, Except.ok.injEq] at hlookup
    rw [← hlookup]
    exact ⟨ends.1, shape_ne_none.1 ends.2⟩

theorem lookupAt_plain {names : List Bytes} (h : ∀ name ∈ names, PlainName name)
    (hroot : plain tree root ≠ none) :
    (lookupAt tree root names).toOption.bind (plain tree) = plain tree (root ++ names) := by
  cases hlookup : lookupAt tree root names with
  | ok loc =>
    rw [(eq_of_lookupAt h hroot hlookup).1]
    rfl
  | error e =>
    by_contra there
    rw [lookupAt_ok h (Ne.symm there)] at hlookup
    cases hlookup

theorem viewAt_canonical {path : Bytes} (h : Canonical path) {cfg : Config} {user : Bytes}
    (hroot : namei tree (storageRoot cfg user) = .ok root) (hthere : plain tree root ≠ none) :
    viewAt tree (makeDiskPath cfg user path).diskPath = plain tree (root ++ components path) := by
  rw [viewAt_eq, namei_canonical h hroot]
  exact lookupAt_plain (fun name hname => h.plainName hname) hthere

theorem between_cons {root q : Loc} {name : Bytes} {dirs : List Bytes} :
    (root <+: q ∧ q ≠ root ∧ q <+: root ++ name :: dirs) ↔
      q = root ++ [name] ∨
        (root ++ [name] <+: q ∧ q ≠ root ++ [name] ∧ q <+: root ++ [name] ++ dirs) := by
  have whole : root ++ name :: dirs = root ++ [name] ++ dirs := by simp
  rw [whole]
  constructor
  · intro h
    obtain ⟨⟨a, rfl⟩, hne, hq⟩ := h
    cases a with
    | nil => simp at hne
    | cons c a =>
      have below := hq
      rw [List.append_assoc, List.singleton_append, List.prefix_append_right_inj,
        List.cons_prefix_cons] at below
      rw [below.1] at hq ⊢
      by_cases ha : a = []
      · exact Or.inl (by rw [ha])
      · exact Or.inr ⟨⟨a, by simp⟩, by simpa using ha, hq⟩
  · intro h
    rcases h with rfl | ⟨hbelow, hne, hq⟩
    · exact ⟨List.prefix_append _ _, by simp, List.prefix_append _ _⟩
    · refine ⟨(List.prefix_append root [name]).trans hbelow, fun same => ?_, hq⟩
      have short := hbelow.length_le
      rw [same, List.length_append, List.length_singleton] at short
      omega

theorem made_all (dirs : List Bytes) (tree : Node) {root : Loc}
    (hnames : ∀ name ∈ dirs, PlainName name) (hroot : plain tree root = some (.branch ()))
    (hway : ∀ q, q ≠ [] → q <+: dirs →
      plain tree (root ++ q) = none ∨ plain tree (root ++ q) = some (.branch ())) :
    (made tree root dirs).2 = true ∧ ∀ q, plain (made tree root dirs).1 q =
      if root <+: q ∧ q ≠ root ∧ q <+: root ++ dirs then some (.branch ()) else plain tree q := by
  induction dirs generalizing tree root with
  | nil =>
    refine ⟨rfl, fun q => ?_⟩
    rw [made, if_neg]
    intro between
    rw [List.append_nil] at between
    exact between.2.1 (between.2.2.eq_of_length_le between.1.length_le)
  | cons name dirs ih =>
    have hname := hnames name (by simp)
    have rest : ∀ n ∈ dirs, PlainName n := fun n hn => hnames n (List.mem_cons_of_mem name hn)
    have single : plain tree (root ++ [name]) = none ∨
        plain tree (root ++ [name]) = some (.branch ()) := hway [name] (by simp) (by simp)
    have later : ∀ q, q ≠ [] → q <+: dirs → plain tree (root ++ [name] ++ q) = none ∨
        plain tree (root ++ [name] ++ q) = some (.branch ()) := by
      intro q _ hq
      have next := hway (name :: q) (by simp) (List.cons_prefix_cons.2 ⟨rfl, hq⟩)
      rwa [List.append_assoc, List.singleton_append]
    rw [made]
    cases hlookup : lookupAt tree root [name] with
    | ok next =>
      obtain ⟨hnext, hthere⟩ := eq_of_lookupAt (by simpa using hname) (by simp [hroot]) hlookup
      subst hnext
      have hbranch := single.resolve_left hthere
      have hshape : shape tree (root ++ [name]) = some true := by
        rw [shape_eq_plain, hbranch]
        rfl
      simp only [if_pos hshape]
      have run := ih tree rest hbranch later
      refine ⟨run.1, fun q => ?_⟩
      rw [run.2 q]
      by_cases hq : q = root ++ [name]
      · rw [hq, hbranch]
        split <;> simp
      · simp only [between_cons, hq, false_or]
    | error e =>
      obtain ⟨tree', hmade⟩ := mkdirat_eq_ok.2 ⟨hroot, e, hlookup⟩
      simp only [hmade]
      have hplain := plain_mkdirat hmade
      have run := ih tree' rest (by rw [hplain, if_pos rfl]) fun q hne hq => by
        rw [hplain, if_neg (by simpa using hne)]
        exact later q hne hq
      refine ⟨run.1, fun q => ?_⟩
      rw [run.2 q, hplain]
      by_cases hq : q = root ++ [name]
      · rw [if_pos hq]
        simp [hq]
      · rw [if_neg hq]
        simp only [between_cons, hq, false_or]

theorem ne_of_outside {q : Loc} (hq : ¬ (root <+: q ∧ q ≠ root)) (dirs : List Bytes) (last : Bytes) :
    q ≠ root ++ (dirs ++ [last]) := by
  intro same
  refine hq ?_
  rw [same]
  exact ⟨List.prefix_append _ _, by simp⟩

structure EmptyRoot (cfg : Config) (user : Bytes) (start : Node) (root : Loc) : Prop where
  namei : Kernel.namei start (storageRoot cfg user) = .ok root
  empty : ∃ x, start.get? root = some (.branch [] x)

/-- Below the root the tree shows the documents, elsewhere it is that of the start. -/
structure Refines (start : Node) (root : Loc) (docs : Docs Bytes Bytes) (tree : Node) : Prop where
  outside : ∀ q, ¬ (root <+: q ∧ q ≠ root) → plain tree q = plain start q
  inside : Shows docs [] fun names => plain tree (root ++ names)

section
variable {cfg : Config} {user : Bytes} (hstart : EmptyRoot cfg user start root)
include hstart

theorem EmptyRoot.branch : plain start root = some (.branch ()) := by
  obtain ⟨x, hx⟩ := hstart.empty
  exact plain_eq_branch.2 ⟨x, by rw [Tree.look, hx]; rfl⟩

theorem EmptyRoot.below {q : Loc} (h : root <+: q ∧ q ≠ root) : plain start q = none := by
  obtain ⟨x, hx⟩ := hstart.empty
  obtain ⟨⟨names, rfl⟩, hne⟩ := h
  rw [plain_eq_none, look_append, hx, Option.bind_some]
  cases names with
  | nil => simp at hne
  | cons name names => rfl

theorem top_of_outside (h : ∀ q, ¬ (root <+: q ∧ q ≠ root) → plain tree q = plain start q) :
    plain tree root = some (.branch ()) := by
  rw [h root fun below => below.2 rfl, hstart.branch]

theorem namei_of_outside (h : ∀ q, ¬ (root <+: q ∧ q ≠ root) → plain tree q = plain start q) :
    Kernel.namei tree (storageRoot cfg user) = .ok root := by
  have grows : Grows start tree := by
    intro q view hq
    by_cases below : root <+: q ∧ q ≠ root
    · rw [hstart.below below] at hq
      cases hq
    · rw [h q below, hq]
  exact grows.namei_eq hstart.namei

theorem refines_start : Refines start root (fun _ => none) start where
  outside := fun _ _ => rfl
  inside := by
    refine shows_empty (fun names hne => ?_) fun content => ?_
    · exact hstart.below ⟨List.prefix_append _ _, by simpa using hne⟩
    · rw [List.append_nil, hstart.branch]
      simp

variable (htree : Refines start root docs tree)
include htree

theorem Refines.top : plain tree root = some (.branch ()) :=
  top_of_outside hstart htree.outside

theorem Refines.namei : Kernel.namei tree (storageRoot cfg user) = .ok root :=
  namei_of_outside hstart htree.outside

theorem Refines.viewAt {path : Bytes} (h : Canonical path) :
    Kernel.viewAt tree (makeDiskPath cfg user path).diskPath =
      plain tree (root ++ components path) := by
  refine viewAt_canonical h (htree.namei hstart) ?_
  rw [htree.top hstart]
  simp

omit hstart in
theorem Refines.congr {tree' : Node} (h : plain tree' = plain tree) :
    Refines start root docs tree' where
  outside := fun q hq => by rw [h, htree.outside q hq]
  inside := htree.inside.congr fun names => by rw [h]

theorem parentsMade_canonical {path last : Bytes} {dirs : List Bytes} (h : Canonical path)
    (hsplit : components path = dirs ++ [last]) :
    parentsMade tree (makeDiskPath cfg user path) = made tree root dirs ∧
      (MissesParent tree (makeDiskPath cfg user path) ↔
        lookupAt tree root dirs = .error .ENOENT) := by
  have hroot : openRead tree (storageRoot cfg user) = .ok root := htree.namei hstart
  have names : ∀ name ∈ dirs ++ [last], PlainName name :=
    fun name hname => h.plainName (hsplit ▸ hname)
  have hdir := dirname_pathOf names
  rw [← hsplit, h.pathOf_components] at hdir
  rw [diskPath_canonical h]
  constructor
  · simp only [parentsMade, if_neg hdir.1, hroot, hdir.2]
  · simp [MissesParent, hdir.1, hroot, hdir.2]

theorem openCreate_canonical {tree' : Node} (hgrows : Grows tree tree') {path last : Bytes}
    {dirs : List Bytes} (h : Canonical path) (hsplit : components path = dirs ++ [last]) :
    ((∃ r, openCreate tree' (makeDiskPath cfg user path).diskPath = .ok r) ↔
      plain tree' (root ++ dirs) = some (.branch ()) ∧
        plain tree' (root ++ (dirs ++ [last])) ≠ some (.branch ())) ∧
    ∀ r, openCreate tree' (makeDiskPath cfg user path).diskPath = .ok r →
      r.1 = root ++ (dirs ++ [last]) := by
  have names : ∀ name ∈ dirs ++ [last], PlainName name :=
    fun name hname => h.plainName (hsplit ▸ hname)
  have above : ∀ name ∈ dirs, PlainName name := fun name hname => names name (by simp [hname])
  have hlast := names last (by simp)
  have hroot : Kernel.namei tree' (storageRoot cfg user) = .ok root :=
    hgrows.namei_eq (htree.namei hstart)
  have htop : plain tree' root ≠ none := by simp [hgrows root _ (htree.top hstart)]
  have path' : (makeDiskPath cfg user path).diskPath.getLast? ≠ some slash := by
    rw [diskPath_canonical h]
    have hne : path ≠ [] := fun nil => by simpa [nil] using h.starts
    rw [List.getLast?_append_of_ne_nil _ hne]
    exact h.ends
  have whole : components (makeDiskPath cfg user path).diskPath =
      components (storageRoot cfg user) ++ dirs ++ [last] := by
    rw [diskPath_canonical h, components_append h.starts, hsplit, List.append_assoc]
  have lookup : lookupAt tree' [] (components (makeDiskPath cfg user path).diskPath).dropLast =
      lookupAt tree' root dirs := by
    rw [namei_root] at hroot
    rw [whole, List.dropLast_concat, lookupAt_append hroot]
  constructor
  · rw [openCreate_eq_ok, lookup, whole]
    constructor
    · intro opens
      obtain ⟨dir, last', hlast', hdir, -, hbranch, hfree⟩ := opens
      rw [List.getLast?_concat, Option.some_inj] at hlast'
      have same := (eq_of_lookupAt above htop hdir).1
      subst same hlast'
      exact ⟨hbranch, by rwa [List.append_assoc] at hfree⟩
    · intro opens
      refine ⟨root ++ dirs, last, by simp, lookupAt_ok above (by simp [opens.1]), ?_, opens.1, ?_⟩
      · simp [path', hlast.ne_here, hlast.ne_up]
      · rw [List.append_assoc]
        exact opens.2
  · intro r hr
    obtain ⟨dir, last', x, hloc, hlast', hdir, -, -, -, ⟨y, hy⟩, -⟩ := openCreate_ok hr
    rw [whole, List.getLast?_concat, Option.some_inj] at hlast'
    rw [lookup] at hdir
    rw [hloc, (eq_of_lookupAt above htop hdir).1, hlast', List.append_assoc]

omit hstart in
theorem lookupAt_below {q dirs : List Bytes} {content : Bytes}
    (hnames : ∀ name ∈ dirs, PlainName name) (hq : q <+: dirs) (hdoc : docs q = some content) :
    lookupAt tree root dirs ≠ .error .ENOENT ∧
      ∀ dir, lookupAt tree root dirs = .ok dir → plain tree dir ≠ some (.branch ()) := by
  obtain ⟨rest, rfl⟩ := hq
  have leaf : plain tree (root ++ q) = some (.leaf content) := (htree.inside.leaf q content).2 hdoc
  have reach : lookupAt tree root q = .ok (root ++ q) :=
    lookupAt_ok (fun name hname => hnames name (by simp [hname])) (by simp [leaf])
  rw [lookupAt_append reach]
  cases rest with
  | nil =>
    refine ⟨by simp [lookupAt, walk], fun dir hdir => ?_⟩
    simp only [lookupAt, walk, Except.ok.injEq] at hdir
    rw [← hdir, leaf]
    simp
  | cons name rest =>
    rw [lookupAt_no_directory (by simp [leaf]) (by simp [leaf])]
    exact ⟨by simp, by simp⟩

theorem blocked_of_not_free {path : Bytes} (h : Canonical path)
    (hfree : ¬ Free docs (components path)) :
    ¬ MissesParent tree (makeDiskPath cfg user path) ∧ ¬ Opens tree (makeDiskPath cfg user path) := by
  obtain ⟨dirs, last, hsplit⟩ := h.split
  have parents := parentsMade_canonical hstart htree h hsplit
  have above : ∀ name ∈ dirs, PlainName name :=
    fun name hname => h.plainName (by rw [hsplit]; simp [hname])
  by_cases hbelow : Ancestor docs (components path)
  · -- a directory stands where the document is to go
    have hbranch := (htree.inside.branch _ h.components_ne_nil).2 (Or.inl hbelow)
    have hdirs : plain tree (root ++ dirs) ≠ none := by
      by_cases hnil : dirs = []
      · rw [hnil, List.append_nil, htree.top hstart]
        simp
      · obtain ⟨q, habove, hq⟩ := hbelow
        have ancestor : Ancestor docs dirs :=
          ⟨q, above_trans (hsplit ▸ above_concat.2 (List.prefix_refl dirs)) habove, hq⟩
        have branch := (htree.inside.branch dirs hnil).2 (Or.inl ancestor)
        simp [branch]
    refine ⟨?_, not_opens_of_branch ?_⟩
    · rw [parents.2, lookupAt_ok above hdirs]
      simp
    · rw [htree.viewAt hstart h, hbranch]
  · -- a document stands on the way
    have through : ∃ q content, q <+: dirs ∧ docs q = some content := by
      by_contra none
      refine hfree ⟨fun q habove => ?_, hbelow⟩
      rw [hsplit, above_concat] at habove
      by_contra some
      obtain ⟨content, hdoc⟩ := Option.ne_none_iff_exists'.1 some
      exact none ⟨q, content, habove, hdoc⟩
    obtain ⟨q, content, hq, hdoc⟩ := through
    have ends := lookupAt_below htree above hq hdoc
    have misses : ¬ MissesParent tree (makeDiskPath cfg user path) := by
      rw [parents.2]
      exact ends.1
    refine ⟨misses, fun opens => ?_⟩
    have same := (plain_parentsMade_iff tree _).2 misses
    have open' := (openCreate_congr same _).1 opens.2
    have branch := ((openCreate_canonical hstart htree (fun _ _ hq => hq) h hsplit).1.1 open').1
    exact ends.2 _ (lookupAt_ok above (by simp [branch])) branch

theorem opens_of_free {path last : Bytes} {dirs : List Bytes} (h : Canonical path)
    (hsplit : components path = dirs ++ [last]) (hfree : Free docs (components path)) :
    Opens tree (makeDiskPath cfg user path) ∧
      (Shows docs dirs fun names =>
        plain (parentsMade tree (makeDiskPath cfg user path)).1 (root ++ names)) ∧
      ∀ q, ¬ (root <+: q ∧ q ≠ root) →
        plain (parentsMade tree (makeDiskPath cfg user path)).1 q = plain tree q := by
  have names : ∀ name ∈ dirs ++ [last], PlainName name :=
    fun name hname => h.plainName (hsplit ▸ hname)
  have above : ∀ name ∈ dirs, PlainName name := fun name hname => names name (by simp [hname])
  rw [hsplit] at hfree
  have way : ∀ q, q ≠ [] → q <+: dirs →
      plain tree (root ++ q) = none ∨ plain tree (root ++ q) = some (.branch ()) := by
    intro q hne hq
    have absent := hfree.1 q (above_concat.2 hq)
    by_cases hanc : Ancestor docs q
    · exact Or.inr ((htree.inside.branch q hne).2 (Or.inl hanc))
    · exact Or.inl ((htree.inside.none_iff hne).2 ⟨absent, hanc⟩)
  have run := made_all dirs tree above (htree.top hstart) way
  have parents := (parentsMade_canonical hstart htree h hsplit).1
  have relative : ∀ q, plain (parentsMade tree (makeDiskPath cfg user path)).1 (root ++ q) =
      if q ≠ [] ∧ q <+: dirs then some (.branch ()) else plain tree (root ++ q) := by
    intro q
    rw [parents, run.2]
    simp
  have shows' := htree.inside.branches hfree relative
  refine ⟨⟨by rw [parents]; exact run.1, ?_⟩, shows', fun q hq => ?_⟩
  swap
  · rw [parents, run.2, if_neg fun between => hq ⟨between.1, between.2.1⟩]
  refine (openCreate_canonical hstart htree (parentsMade_grows tree _) h hsplit).1.2 ⟨?_, ?_⟩
  · by_cases hnil : dirs = []
    · rw [hnil, List.append_nil]
      exact parentsMade_grows tree _ _ _ (htree.top hstart)
    · exact (shows'.branch dirs hnil).2 (Or.inr (List.prefix_refl _))
  · intro branch
    rcases (shows'.branch (dirs ++ [last]) (by simp)).1 branch with hanc | hbelow
    · exact hfree.2 hanc
    · exact not_prefix_of_above ⟨[last], by simp, rfl⟩ hbelow

theorem isOk_canonical {path : Bytes} (h : Canonical path) (hfree : Free docs (components path)) :
    (stat tree (makeDiskPath cfg user path).diskPath).isOk = true ↔
      docs (components path) ≠ none := by
  have absent := htree.inside.none_iff h.components_ne_nil
  rw [isOk_eq_true, htree.viewAt hstart h, ne_eq, absent]
  simp [hfree.2]

end

variable {req : Request} {w : World}

def Unconditional (req : Request) : Prop :=
  req.headersIn.ifMatch = none ∧ req.headersIn.ifNoneMatch = none

theorem answers_refines (hstart : EmptyRoot env.cfg req.user start root)
    (htree : Refines start root docs w.tree) (hpath : Canonical req.path)
    (hfree : Free docs (components req.path)) {written status : Nat} {w' : World}
    (answers : Answers env written req w w' status) :
    status = (if docs (components req.path) = none then 201 else 200) ∧
      Refines start root
        (Function.update docs (components req.path) (some (req.bufferIn.take written))) w'.tree := by
  obtain ⟨dirs, last, hsplit⟩ := hpath.split
  have opens := opens_of_free hstart htree hpath hsplit hfree
  constructor
  · rw [answers.status]
    have existed : (stat w.tree (targetOf env req).diskPath).isOk = true ↔
        docs (components req.path) ≠ none := isOk_canonical hstart htree hpath hfree
    by_cases hdoc : docs (components req.path) = none
    · rw [if_pos hdoc, if_neg fun found => existed.1 found hdoc]
    · rw [if_neg hdoc, if_pos (existed.2 hdoc)]
  · obtain ⟨r, hr, -⟩ := answers.headers
    have files := answers.files r hr
    have loc := (openCreate_canonical hstart htree (parentsMade_grows _ _) hpath hsplit).2 r hr
    rw [hsplit] at hfree ⊢
    refine ⟨fun q hq => ?_, ?_⟩
    · rw [files, loc, if_neg (ne_of_outside hq dirs last)]
      exact (opens.2.2 q hq).trans (htree.outside q hq)
    · refine opens.2.1.stored hfree fun names => ?_
      rw [files, loc]
      simp only [List.append_right_inj]
      rfl

theorem put_refines (hstart : EmptyRoot env.cfg req.user start root)
    (htree : Refines start root docs w.tree) (hverify : verifyUser env.getpwnam req.user = 0)
    (hpath : Canonical req.path) (hfile : req.file ≠ none) (hheaders : Unconditional req)
    (htyped : ¬ NoMediaType req) (written : Nat) :
    (Free docs (components req.path) → ∃ w', storageHandlePut env written req w =
        .next (if docs (components req.path) = none then 201 else 200) w' ∧
      Refines start root
        (Function.update docs (components req.path) (some (req.bufferIn.take written))) w'.tree) ∧
    (¬ Free docs (components req.path) → ∃ status w', IsError status ∧
      storageHandlePut env written req w = .stop status w' ∧ plain w'.tree = plain w.tree) := by
  have admitted : Admitted env req (targetOf env req).diskPath w.tree := by
    refine ⟨fun e he => ?_, fun hstar => ?_⟩
    · rw [hheaders.1] at he
      cases he
    · rw [hheaders.2] at hstar
      cases hstar
  have cases' := storageHandlePut_cases hfile hverify written w
  constructor
  · intro hfree
    obtain ⟨dirs, last, hsplit⟩ := hpath.split
    have opens := opens_of_free hstart htree hpath hsplit hfree
    rcases cases' with ⟨refused, -⟩ | ⟨-, hclosed, -⟩ | ⟨-, -, hcrash | ⟨status, w', hrun, answers⟩⟩
    · exact absurd admitted refused
    · exact absurd opens.1 hclosed
    · exact absurd hcrash.1 htyped
    · have stored := answers_refines hstart htree hpath hfree answers
      exact ⟨w', by rw [hrun, stored.1], stored.2⟩
  · intro hblocked
    have blocked := blocked_of_not_free hstart htree hpath hblocked
    rcases cases' with ⟨refused, -⟩ | ⟨-, -, status, w', herror, hrun, hplain, -⟩ | ⟨-, opens, -⟩
    · exact absurd admitted refused
    · exact ⟨status, w', herror, hrun, hplain.trans ((plain_parentsMade_iff _ _).2 blocked.1)⟩
    · exact absurd opens blocked.2

theorem rmdirat_relative {dirs : List Bytes} {last : Bytes}
    (hnames : ∀ name ∈ dirs ++ [last], PlainName name)
    (hparent : plain tree (root ++ dirs) = some (.branch ())) {entries : List (Bytes × Node)}
    {x : Xattrs} (hget : tree.get? (root ++ (dirs ++ [last])) = some (.branch entries x)) :
    rmdirat tree root (relativeOf (dirs ++ [last])) =
      if entries = [] then .ok (tree.unlink (root ++ dirs) last) else .error .ENOTEMPTY := by
  have hlast := hnames last (by simp)
  have above : ∀ name ∈ dirs, PlainName name := fun name hname => hnames name (by simp [hname])
  have reach : lookupAt tree root dirs = .ok (root ++ dirs) := lookupAt_ok above (by simp [hparent])
  obtain ⟨y, hy⟩ := plain_eq_branch.1 hparent
  rw [← List.append_assoc] at hget
  unfold rmdirat
  simp only [components_relativeOf hnames, List.getLast?_concat, List.dropLast_concat,
    if_neg (relativeOf_relative hnames), reach, if_neg hlast.ne_here, if_neg hlast.ne_up, hy, hget]

theorem removeParents_ok {dirPath : Bytes} {tree' : Node} (hdir : dirPath ≠ str ".")
    (h : rmdirat tree root dirPath = .ok tree') :
    removeParents root dirPath tree = removeParents root (dirname dirPath) tree' := by
  rw [removeParents, if_neg hdir]
  split
  · rename_i e herror
    rw [h] at herror
    cases herror
  · rename_i tree'' hok
    rw [Except.ok.inj (h.symm.trans hok)]

theorem removeParents_full {dirPath : Bytes} (hdir : dirPath ≠ str ".")
    (h : rmdirat tree root dirPath = .error .ENOTEMPTY) :
    removeParents root dirPath tree = (tree, 200) := by
  rw [removeParents, if_neg hdir]
  split
  · rename_i e herror
    rw [← Except.error.inj (h.symm.trans herror)]
    simp
  · rename_i tree'' hok
    rw [h] at hok
    cases hok

def lowest (dirs : List Bytes) : Bytes := if dirs = [] then str "." else relativeOf dirs

theorem entries_eq_nil_iff {dirs : List Bytes} {tree : Node}
    (hshows : Shows docs dirs fun names => plain tree (root ++ names))
    {entries : List (Bytes × Node)} {x : Xattrs}
    (hn : tree.get? (root ++ dirs) = some (.branch entries x)) :
    entries = [] ↔ ¬ Ancestor docs dirs := by
  constructor
  · intro hempty hanc
    obtain ⟨q, ⟨rest, hrest, rfl⟩, hq⟩ := hanc
    obtain ⟨content, hdoc⟩ := Option.ne_none_iff_exists'.1 hq
    have leaf := (hshows.leaf _ content).2 hdoc
    obtain ⟨name, rest, rfl⟩ := List.exists_cons_of_ne_nil hrest
    have gone : plain tree (root ++ (dirs ++ name :: rest)) = none := by
      rw [← List.append_assoc, plain_eq_none, look_append, hn, hempty]
      rfl
    rw [gone] at leaf
    cases leaf
  · intro hanc
    refine entries_eq_nil hn fun name => ?_
    rw [← plain_eq_none, List.append_assoc]
    exact hshows.none_below hanc ⟨[name], by simp, rfl⟩

theorem removeParents_refines {cfg : Config} {user : Bytes} (hstart : EmptyRoot cfg user start root)
    (dirs : List Bytes) (tree : Node) (hnames : ∀ name ∈ dirs, PlainName name)
    (hout : ∀ q, ¬ (root <+: q ∧ q ≠ root) → plain tree q = plain start q)
    (hshows : Shows docs dirs fun names => plain tree (root ++ names)) :
    (removeParents root (lowest dirs) tree).2 = 200 ∧
      Refines start root docs (removeParents root (lowest dirs) tree).1 := by
  induction dirs using List.reverseRecOn generalizing tree with
  | nil =>
    rw [lowest, if_pos rfl, removeParents, if_pos rfl]
    exact ⟨rfl, hout, hshows⟩
  | append_singleton dirs last ih =>
    have above : ∀ name ∈ dirs, PlainName name := fun name hname => hnames name (by simp [hname])
    have hbranch := (hshows.branch (dirs ++ [last]) (by simp)).2 (Or.inr (List.prefix_refl _))
    obtain ⟨n, hn, hkind⟩ := get_of_plain hbranch
    cases n with
    | leaf f => cases hkind
    | branch entries x =>
      have hparent : plain tree (root ++ dirs) = some (.branch ()) := by
        by_cases hnil : dirs = []
        · rw [hnil, List.append_nil]
          exact top_of_outside hstart hout
        · exact (hshows.branch dirs hnil).2 (Or.inr (List.prefix_append _ _))
      have call := rmdirat_relative hnames hparent hn
      have hdir : relativeOf (dirs ++ [last]) ≠ str "." := by
        intro same
        have names := components_relativeOf hnames
        rw [same, show components (str ".") = [str "."] by decide] at names
        exact (hnames (str ".") (by simp [← names])).ne_here rfl
      rw [lowest, if_neg (by simp)]
      by_cases hanc : Ancestor docs (dirs ++ [last])
      · have full : ¬ entries = [] := fun hempty => (entries_eq_nil_iff hshows hn).1 hempty hanc
        rw [if_neg full] at call
        rw [removeParents_full hdir call]
        exact ⟨rfl, hout, hshows.kept hanc⟩
      · have empty := (entries_eq_nil_iff hshows hn).2 hanc
        rw [if_pos empty] at call
        rw [removeParents_ok hdir call, dirname_relativeOf hnames]
        rw [empty, ← List.append_assoc] at hn
        have gone := plain_unlink hn
        refine ih _ above (fun q hq => ?_) (hshows.pruned hanc fun names => ?_)
        · rw [gone, List.append_assoc, if_neg (ne_of_outside hq dirs last)]
          exact hout q hq
        · rw [gone]
          simp only [List.append_assoc, List.append_right_inj]

theorem plain_unlink_canonical {cfg : Config} {user path last : Bytes} {dirs : List Bytes}
    {tree' : Node} (hstart : EmptyRoot cfg user start root) (htree : Refines start root docs tree)
    (h : Canonical path) (hsplit : components path = dirs ++ [last])
    (hunlink : unlink tree (makeDiskPath cfg user path).diskPath = .ok tree') (q : Loc) :
    plain tree' q = if q = root ++ (dirs ++ [last]) then none else plain tree q := by
  have names : ∀ name ∈ components path, PlainName name := fun name hname => h.plainName hname
  have hne : components (makeDiskPath cfg user path).diskPath ≠ [] := by
    rw [diskPath_canonical h, components_append h.starts]
    simp [h.components_ne_nil]
  obtain ⟨loc, f, hnamei, -, hlook⟩ := unlink_ok hne hunlink
  rw [namei_canonical h (htree.namei hstart)] at hnamei
  have hloc := (eq_of_lookupAt names (by simp [htree.top hstart]) hnamei).1
  rw [plain, hlook, ← hsplit, ← hloc]
  by_cases hq : q = loc
  · rw [if_pos hq, if_pos hq]
    rfl
  · rw [if_neg hq, if_neg hq, plain]

theorem removeEmptyParents_refines {cfg : Config} {user path last : Bytes} {dirs : List Bytes}
    (hstart : EmptyRoot cfg user start root) (h : Canonical path)
    (hsplit : components path = dirs ++ [last])
    (hout : ∀ q, ¬ (root <+: q ∧ q ≠ root) → plain w.tree q = plain start q)
    (hshows : Shows docs dirs fun names => plain w.tree (root ++ names)) :
    ∃ w', removeEmptyParents (makeDiskPath cfg user path) w = .next 200 w' ∧
      Refines start root docs w'.tree := by
  have names : ∀ name ∈ dirs ++ [last], PlainName name :=
    fun name hname => h.plainName (hsplit ▸ hname)
  have above : ∀ name ∈ dirs, PlainName name := fun name hname => names name (by simp [hname])
  have removed := removeParents_refines hstart dirs w.tree above hout hshows
  have hdir : dirname ((makeDiskPath cfg user path).path.drop 1) = lowest dirs := by
    rw [diskPath_canonical h, lowest, ← dirname_relativeOf names, ← hsplit, relativeOf,
      h.pathOf_components]
  have hroot : openRead w.tree (makeDiskPath cfg user path).storageRoot = .ok root :=
    namei_of_outside hstart hout
  have tidies : Tidies w.tree (makeDiskPath cfg user path) :=
    ⟨root, hroot, by rw [hdir]; exact (removeParents_iff root _ _).1 removed.1⟩
  rcases removeEmptyParents_run (makeDiskPath cfg user path) w with
    ⟨-, w', hrun, -, -, htree'⟩ | ⟨untidy, -⟩
  · refine ⟨w', hrun, ?_⟩
    rw [htree' root hroot, hdir]
    exact removed.2
  · exact absurd tidies untidy

theorem unlinked_refines {tree' : Node} (hstart : EmptyRoot env.cfg req.user start root)
    (htree : Refines start root docs tree) (hpath : Canonical req.path)
    (hdoc : docs (components req.path) ≠ none)
    (hunlink : unlink tree (targetOf env req).diskPath = .ok tree')
    (hplain : plain w.tree = plain tree') :
    ∃ w', removeEmptyParents (targetOf env req) w = .next 200 w' ∧
      Refines start root (Function.update docs (components req.path) none) w'.tree := by
  obtain ⟨dirs, last, hsplit⟩ := hpath.split
  have gone := plain_unlink_canonical hstart htree hpath hsplit hunlink
  rw [hsplit] at hdoc ⊢
  refine removeEmptyParents_refines hstart hpath hsplit (fun q hq => ?_) ?_
  · rw [hplain, gone, if_neg (ne_of_outside hq dirs last), htree.outside q hq]
  · refine htree.inside.removed hdoc fun names => ?_
    rw [hplain, gone]
    simp only [List.append_right_inj]

theorem delete_refines (hstart : EmptyRoot env.cfg req.user start root)
    (htree : Refines start root docs w.tree) (hpath : Canonical req.path) (hfile : req.file ≠ none)
    (hheaders : Unconditional req) :
    (docs (components req.path) ≠ none → ∃ w', storageHandleDelete env req w = .next 200 w' ∧
      Refines start root (Function.update docs (components req.path) none) w'.tree) ∧
    (docs (components req.path) = none → ∃ status w', IsError status ∧
      storageHandleDelete env req w = .stop status w' ∧ plain w'.tree = plain w.tree) := by
  have hview := htree.viewAt hstart hpath
  constructor
  · intro hdoc
    obtain ⟨content, hcontent⟩ := Option.ne_none_iff_exists'.1 hdoc
    have leaf := (htree.inside.leaf _ content).2 hcontent
    have deletable : Deletable env req w.tree :=
      ⟨⟨content, hview.trans leaf⟩, fun e he => by rw [hheaders.1] at he; cases he⟩
    rcases storageHandleDelete_cases hfile w with
      ⟨refused, -⟩ | ⟨-, t, etag, w₁, hunlink, hplain, -, -, -, hrun⟩
    · exact absurd deletable refused
    · rw [hrun]
      exact unlinked_refines hstart htree hpath hdoc hunlink hplain
  · intro hdoc
    rcases storageHandleDelete_cases hfile w with ⟨-, w', hrun, hplain, -⟩ | ⟨deletable, -⟩
    · exact ⟨_, w', isError_refusal _, hrun, hplain⟩
    · obtain ⟨content, hleaf⟩ := deletable.1
      have stored := (htree.inside.leaf _ content).1 (hview.symm.trans hleaf)
      rw [hdoc] at stored
      cases stored

theorem statFailed_stat {tree : Node} {path : Bytes} {e : Errno} (h : stat tree path = .error e) :
    statFailed e = 404 := by
  have named : ∀ error, namei tree path = .error error → statFailed error = 404 := by
    intro error herror
    unfold namei lookupAt at herror
    cases hwalk : walk (str ".") (str "..") (shape tree) [] (pathNames path) with
    | ok l => simp [hwalk] at herror
    | error failure =>
      rw [hwalk, Except.error.injEq] at herror
      rw [← herror]
      cases failure <;> rfl
  unfold stat at h
  cases hnamei : namei tree path with
  | error error =>
    rw [hnamei, Except.error.injEq] at h
    rw [← h]
    exact named error hnamei
  | ok loc =>
    cases hlook : tree.look loc with
    | some kind => simp [hnamei, hlook] at h
    | none =>
      simp only [hnamei, hlook, Except.error.injEq] at h
      rw [← h]
      rfl

theorem get_absent (hstart : EmptyRoot env.cfg req.user start root)
    (htree : Refines start root docs tree) (hpath : Canonical req.path) (hfile : req.file ≠ none)
    (fds : List Nat) (hdoc : docs (components req.path) = none) :
    ∃ reply, answer (storageHandleGet env req) tree fds = some reply ∧ reply.status = 404 := by
  have hview := htree.viewAt hstart hpath
  have other : ∀ content, plain tree (root ++ components req.path) ≠ some (.leaf content) := by
    intro content leaf
    have stored := (htree.inside.leaf _ content).1 leaf
    rw [hdoc] at stored
    cases stored
  cases hstat : stat tree (makeDiskPath env.cfg req.user req.path).diskPath with
  | error e => exact ⟨_, answer_error req fds hstat true, statFailed_stat hstat⟩
  | ok kind =>
    cases kind with
    | branch x => exact ⟨_, answer_document_mismatch req hfile fds hstat true, rfl⟩
    | leaf f => exact absurd (hview.symm.trans (viewAt_of_stat hstat)) (other f.content)

theorem get_keeps (req : Request) (tree : Node) (fds : List Nat) :
    plain (storageHandleGet env req (arrival tree fds)).state.tree = plain tree := by
  have kept := triple_handleGetOrHead (stampable_plain env (plain tree)) true req
    (arrival tree fds) ⟨rfl, trivial⟩
  unfold storageHandleGet
  cases hrun : handleGetOrHead env true req (arrival tree fds) with
  | next status w' =>
    rw [hrun] at kept
    exact kept.2.1
  | stop status w' =>
    rw [hrun] at kept
    exact kept.2.1
  | crash w' =>
    rw [hrun] at kept
    exact kept.1

theorem get_refines (hstart : EmptyRoot env.cfg req.user start root)
    (htree : Refines start root docs tree) (hpath : Canonical req.path) (hfile : req.file ≠ none)
    (hheaders : Unconditional req) (fds : List Nat) :
    (∀ content, docs (components req.path) = some content → ∃ reply,
      answer (storageHandleGet env req) tree fds = some reply ∧ reply.status = 200 ∧
        reply.body = content) ∧
    (docs (components req.path) = none → ∃ reply,
      answer (storageHandleGet env req) tree fds = some reply ∧ reply.status = 404) ∧
    plain (storageHandleGet env req (arrival tree fds)).state.tree = plain tree := by
  have hview := htree.viewAt hstart hpath
  refine ⟨fun content hdoc => ?_, get_absent hstart htree hpath hfile fds, get_keeps req tree fds⟩
  obtain ⟨x, hstat⟩ := viewAt_eq_leaf.1 (hview.trans ((htree.inside.leaf _ content).2 hdoc))
  obtain ⟨r, hetag⟩ := getEtag_ne_none env.sha1 hstat
  have reply := answer_document req hfile fds hstat hetag true
  rw [if_neg (by simp [hheaders.2])] at reply
  exact ⟨_, reply, rfl, rfl⟩

end RsServe.Documents
