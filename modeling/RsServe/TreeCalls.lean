import RsServe.ChildPaths
import RsServe.SystemCalls

/-! get_etag, call by call, over a tree where nothing fails: what it finds and what it leaves open
are what the tree alone tells. -/

namespace RsServe.TreeCalls
open CString NameTree TreeWalk Kernel ChildPaths Descriptors EarlyExit
open SystemCalls (System Syscall Process Sys Caller Opening ask newFd openFd openDir closeFd alloc
  check hashEntries hashDirectory hashFile hashPieces hashNode computeEtag getEtag)

def storedEtag (tree : Node) (path : Bytes) : Option Bytes :=
  (getxattrs tree path).bind fun x => Attributes.getXattr x.etag 41

/-- Every call of get_etag is answered as the tree has it. Versions that are stored meanwhile make
no difference: they are too long for getxattr to give them. -/
structure AnswersAs (system : System) (tree : Node) : Prop where
  alloc : ∀ h, system h .alloc = true
  sha1Init : ∀ h, system h .sha1Init = true
  sha1Update : ∀ h, system h .sha1Update = true
  sha1Final : ∀ h, system h .sha1Final ≠ none
  read : ∀ h, (system h .read).2 = true
  etag : ∀ h path, (system h (.getxattr path (str "user.etag") 32)).1 = [] ↔
    storedEtag tree path = none
  opens : ∀ h path, system h (.opens (.file path)) = .ok () ↔ ∃ kind, stat tree path = .ok kind
  stat : ∀ h path kind, stat tree path = .ok kind → system h (.stat path) = .ok kind.isBranch
  opendir : ∀ h path names, opendir tree path = .ok names → system h (.opendir path) = .ok names

def Open (fds : List Nat) (p : Process) : Prop := p.fds = fds

variable {system : System} {tree : Node} {fds : List Nat} {ε α : Type}

abbrev Ends (fds : List Nat) (prog : Sys ε α) (Q : α → Process → Prop) : Prop :=
  Triple (Open fds) prog Q (fun _ _ => False) fun _ => False

theorem ends_ask (caller : Caller) (c : Syscall) :
    Ends fds (ask system caller c : Sys ε c.Answer) fun a p =>
      Open fds p ∧ ∃ h, system h c = a :=
  fun _ hp => ⟨hp, _, rfl⟩

theorem Ends.call {prog : Sys α α} {Q : α → Process → Prop} (hprog : Ends fds prog Q) :
    Ends fds (EarlyExit.call prog : Sys ε α) Q :=
  triple_call (hprog.mono (fun _ => id) (fun _ _ => id) (fun _ _ => False.elim) fun _ => id)

theorem ends_alloc (answers : AnswersAs system tree) (caller : Caller) (e : ε) :
    Ends fds (alloc system caller e) fun _ => Open fds := by
  refine triple_bind (ends_ask caller .alloc) fun ok => triple_of_fact fun hok => ?_
  obtain ⟨h, rfl⟩ := hok
  rw [answers.alloc]
  exact triple_pure fun _ hp => hp

theorem ends_check (e : ε) : Ends fds (check e true) fun _ => Open fds := triple_pure fun _ hp => hp

theorem ends_newFd : Ends fds (newFd : Sys ε Nat) fun fd p =>
    Open (freshFd fds :: fds) p ∧ fd = freshFd fds := by
  intro _ hp
  rw [← hp]
  exact ⟨rfl, rfl⟩

theorem ends_closeFd (fd : Nat) : Ends fds (closeFd fd : Sys ε Unit) fun _ => Open (fds.erase fd) :=
  triple_update fun _ hp => congrArg (List.erase · fd) hp

theorem ends_openFd (answers : AnswersAs system tree) (caller : Caller) {path : Bytes}
    {kind : Stat} (hstat : stat tree path = .ok kind) :
    Ends fds (openFd system caller (.file path) : Sys ε (Option Nat)) fun fd p =>
      Open (freshFd fds :: fds) p ∧ fd = some (freshFd fds) := by
  refine triple_bind (ends_ask caller (.opens (.file path))) fun a => triple_of_fact fun ha => ?_
  obtain ⟨h, rfl⟩ := ha
  rw [(answers.opens h path).2 ⟨kind, hstat⟩]
  exact triple_bind ends_newFd fun fd => triple_pure fun p hp => ⟨hp.1, congrArg some hp.2⟩

theorem ends_openFd_missing (answers : AnswersAs system tree) (caller : Caller) {path : Bytes}
    (hstat : ∀ kind, stat tree path ≠ .ok kind) :
    Ends fds (openFd system caller (.file path) : Sys ε (Option Nat)) fun fd p =>
      Open fds p ∧ fd = none := by
  refine triple_bind (ends_ask caller (.opens (.file path))) fun a => triple_of_fact fun ha => ?_
  obtain ⟨h, rfl⟩ := ha
  cases hopen : system h (.opens (.file path)) with
  | ok done =>
    obtain ⟨kind, found⟩ := (answers.opens h path).1 hopen
    exact absurd found (hstat kind)
  | error e => exact triple_pure fun p hp => ⟨hp, rfl⟩

theorem ends_openDir (answers : AnswersAs system tree) (caller : Caller) {path : Bytes}
    {names : List Bytes} (hdir : opendir tree path = .ok names) :
    Ends fds (openDir system caller path : Sys ε (Option (Nat × List Bytes))) fun dir p =>
      Open (freshFd fds :: fds) p ∧ dir = some (freshFd fds, names) := by
  refine triple_bind (ends_ask caller (.opendir path)) fun a => triple_of_fact fun ha => ?_
  obtain ⟨h, rfl⟩ := ha
  rw [answers.opendir h path names hdir]
  refine triple_bind ends_newFd fun fd => triple_pure fun p hp => ?_
  exact ⟨hp.1, by rw [hp.2]⟩

theorem ends_getXattr (answers : AnswersAs system tree) (path : Bytes) :
    Ends fds (SystemCalls.getXattr system path (str "user.etag") 41 : Sys ε (Option Bytes))
      fun etag p => Open fds p ∧ (etag = none ↔ storedEtag tree path = none) := by
  have sizes : List.range' 32 ((41 - 16) / 16) 16 = [32] := by decide
  rw [SystemCalls.getXattr, sizes]
  refine Ends.call (triple_bind (ends_alloc answers _ _) fun _ => ?_)
  refine triple_bind (ends_ask _ _) fun a => triple_of_fact fun ha => ?_
  obtain ⟨h, rfl⟩ := ha
  have found := answers.etag h path
  refine triple_ite (fun given => ?_) fun nothing => ?_
  · exact triple_pure fun p hp => ⟨hp, iff_of_false (by simp) (found.not.1 given)⟩
  · have none := found.1 (not_not.1 nothing)
    refine triple_ite (fun _ => ?_) fun _ => ?_
    · exact triple_bind (ends_ask _ _) fun _ => triple_pure fun p hp => ⟨hp.1, iff_of_true rfl none⟩
    · exact triple_pure fun p hp => ⟨hp, iff_of_true rfl none⟩

/-- What get_etag is to end with for a node. -/
def Leaves (system : System) (tree : Node) (n : Node) (depth : Nat) : Prop :=
  ∀ path loc, namei tree path = .ok loc → tree.get? loc = some n → ∀ fds,
    Ends fds (getEtag system depth path) fun etag p => Open (etagFds n fds) p ∧ etag ≠ none

theorem stat_of_get {path : Bytes} {loc : Loc} {n : Node} (hnamei : namei tree path = .ok loc)
    (hn : tree.get? loc = some n) : stat tree path = .ok n.kind :=
  stat_eq_ok.2 ⟨loc, hnamei, by rw [Tree.look, hn]; rfl⟩

theorem etagFds_cached {n : Node} {version : Bytes}
    (h : Attributes.getXattr (Attributes.kindXattrs n.kind).etag 41 = some version) :
    etagFds n fds = fds := by
  cases n with
  | leaf f =>
    have own : Attributes.getXattr f.xattrs.etag 41 = some version := h
    rw [etagFds, own]
  | branch entries x =>
    have own : Attributes.getXattr x.etag 41 = some version := h
    rw [etagFds, own]

theorem etagFds_leaf {f : FileData} (h : Attributes.getXattr f.xattrs.etag 41 = none) :
    etagFds (.leaf f) fds = freshFd fds :: fds := by
  rw [etagFds, h]

theorem etagFds_branch {entries : List (Bytes × Node)} {x : Xattrs}
    (h : Attributes.getXattr x.etag 41 = none) :
    etagFds (.branch entries x) fds =
      (etagEntriesFds entries (freshFd (freshFd fds :: fds) :: freshFd fds :: fds)).erase
        (freshFd (freshFd fds :: fds)) := by
  rw [etagFds, h]

theorem storedEtag_eq {path : Bytes} {kind : Stat} (h : stat tree path = .ok kind) :
    storedEtag tree path = Attributes.getXattr (Attributes.kindXattrs kind).etag 41 := by
  rw [storedEtag, getxattrs, h]
  cases kind <;> rfl

theorem namei_slash {path : Bytes} {loc : Loc} (hlast : path.getLast? ≠ some slash)
    (h : namei tree path = .ok loc) (hloc : shape tree loc = some true) :
    namei tree (path ++ [slash]) = .ok loc := by
  rw [namei, pathNames, if_neg hlast, List.append_nil] at h
  have same : components (path ++ [slash]) = components path := by
    rw [components_append_slash]
    simp [components]
  rw [namei, pathNames, List.getLast?_concat, if_pos rfl, same, lookupAt_append h]
  exact lookupAt_here hloc

/-- The path that get_etag makes for an entry leads to the entry. -/
theorem namei_entry {path name : Bytes} {loc : Loc} {entries : List (Bytes × Node)} {x : Xattrs}
    (hname : PlainName name) (h : namei tree path = .ok loc)
    (hdir : tree.get? loc = some (.branch entries x)) (hentry : name ∈ entries.map Prod.fst) :
    namei tree (if path.getLast? = some slash then path ++ name else path ++ slash :: name) =
      .ok (loc ++ [name]) := by
  have there := look_entry_ne_none hdir hentry
  by_cases hlast : path.getLast? = some slash
  · rw [if_pos hlast]
    exact namei_child hlast hname h there
  · have hloc : shape tree loc = some true := by
      rw [shape, Tree.look, hdir]
      rfl
    have slashed : path ++ slash :: name = path ++ [slash] ++ name := by simp
    rw [if_neg hlast, slashed]
    exact namei_child List.getLast?_concat hname (namei_slash hlast h hloc) there

theorem ends_hashFile (answers : AnswersAs system tree) :
    Ends fds (hashFile system) fun _ => Open fds := by
  refine triple_bind (ends_ask _ _) fun a => triple_of_fact fun ha => ?_
  obtain ⟨h, rfl⟩ := ha
  have pieces : ∀ pieces : List Bytes, Ends fds (hashPieces system pieces) fun _ => Open fds := by
    intro pieces
    induction pieces with
    | nil => exact triple_pure fun _ hp => hp
    | cons piece pieces ih =>
      refine triple_bind (ends_ask _ _) fun ok => triple_of_fact fun hok => ?_
      obtain ⟨h, rfl⟩ := hok
      rw [answers.sha1Update]
      exact ih
  refine triple_bind (pieces _) fun _ => ?_
  rw [answers.read]
  exact triple_pure fun _ hp => hp

section Directory
variable {depth : Nat} {path : Bytes} {loc : Loc} {all entries : List (Bytes × Node)} {x : Xattrs}

theorem ends_hashEntries (named : WellNamed tree)
    (hnamei : namei tree path = .ok loc) (hdir : tree.get? loc = some (.branch all x))
    (hentries : ∀ entry ∈ entries, all.lookup entry.1 = some entry.2)
    (hbelow : ∀ entry ∈ entries, Leaves system tree entry.2 depth) :
    Ends fds (hashEntries system (getEtag system depth) path (entries.map Prod.fst))
      fun _ => Open (etagEntriesFds entries fds) := by
  induction entries generalizing fds with
  | nil => exact triple_pure fun _ hp => hp
  | cons entry entries ih =>
    have found := hentries entry (by simp)
    have mem : entry.1 ∈ all.map Prod.fst := List.mem_map_of_mem (AssocList.mem_of_lookup found)
    have leads := namei_entry ((named loc all x hdir).2 _ mem) hnamei hdir mem
    have child : tree.get? (loc ++ [entry.1]) = some entry.2 := by rw [get_entry hdir, found]
    refine triple_bind (Ends.call (hbelow entry (by simp) _ _ leads child fds)) fun etag => ?_
    refine triple_of_fact fun hetag => ?_
    obtain ⟨version, rfl⟩ := Option.ne_none_iff_exists'.1 hetag
    refine triple_bind (M := fun _ => Open _) (triple_pure fun _ hp => hp) fun _ => ?_
    refine triple_bind (ends_ask _ _) fun _ => triple_of_fact fun _ => ?_
    exact ih (fun e he => hentries e (by simp [he])) fun e he => hbelow e (by simp [he])

theorem ends_hashDirectory (answers : AnswersAs system tree) (named : WellNamed tree)
    (hnamei : namei tree path = .ok loc) (hdir : tree.get? loc = some (.branch entries x))
    (hbelow : ∀ entry ∈ entries, Leaves system tree entry.2 depth) :
    Ends fds (hashDirectory system (getEtag system depth) path) fun _ =>
      Open ((etagEntriesFds entries (freshFd fds :: fds)).erase (freshFd fds)) := by
  have names : opendir tree path = .ok (entries.map Prod.fst) := by
    simp only [opendir, hnamei, hdir]
  refine triple_bind (ends_openDir answers _ names) fun dir => triple_of_fact fun hdir' => ?_
  rw [hdir']
  refine triple_bind (M := fun given p => Open (freshFd fds :: fds) p ∧
    given = (freshFd fds, entries.map Prod.fst)) (triple_pure fun _ hp => ⟨hp, rfl⟩) fun given =>
      triple_of_fact fun hgiven => ?_
  rw [hgiven]
  refine triple_bind (ends_alloc answers _ _) fun _ => ?_
  have distinct := (named loc entries x hdir).1
  refine triple_bind (ends_hashEntries named hnamei hdir (fun entry hentry => ?_) hbelow)
    fun _ => ends_closeFd _
  exact AssocList.lookup_of_mem distinct hentry

end Directory

theorem ends_computeEtag (answers : AnswersAs system tree)
    {etagOf : Bytes → Sys (Option Bytes) (Option Bytes)} {path : Bytes} {kind : Stat}
    {fds' : List Nat} (hstat : stat tree path = .ok kind)
    (hnode : Ends (freshFd fds :: fds) (hashNode system etagOf path kind.isBranch)
      fun _ => Open fds') :
    Ends fds (computeEtag system etagOf path) fun etag p => Open fds' p ∧ etag ≠ none := by
  refine triple_bind (ends_alloc answers _ _) fun _ => ?_
  refine triple_bind (ends_ask _ _) fun ok => triple_of_fact fun hok => ?_
  obtain ⟨h, rfl⟩ := hok
  rw [answers.sha1Init]
  refine triple_bind (ends_check _) fun _ => ?_
  refine triple_bind (ends_openFd answers _ hstat) fun fd => triple_of_fact fun hfd => ?_
  rw [hfd]
  refine triple_bind (M := fun _ => Open _) (triple_pure fun _ hp => hp) fun _ => ?_
  refine triple_bind (ends_ask _ _) fun answer => triple_of_fact fun hanswer => ?_
  obtain ⟨h', rfl⟩ := hanswer
  rw [answers.stat h' path kind hstat]
  refine triple_bind hnode fun _ => ?_
  refine triple_bind (ends_ask _ _) fun digest => triple_of_fact fun hdigest => ?_
  obtain ⟨h'', rfl⟩ := hdigest
  obtain ⟨digest, hdigest⟩ := Option.ne_none_iff_exists'.1 (answers.sha1Final h'')
  rw [hdigest]
  refine triple_bind (M := fun _ => Open _) (triple_pure fun _ hp => hp) fun _ => ?_
  refine triple_bind (ends_ask _ _) fun _ => triple_of_fact fun _ => ?_
  exact triple_pure fun p hp => ⟨hp, by simp⟩

theorem missing_of_ends {prog : Sys ε α} {Q : α → Process → Prop} {R : ε → Process → Prop}
    (h : Ends fds prog Q) : Triple (Open fds) prog Q R fun _ => False :=
  h.mono (fun _ => id) (fun _ _ => id) (fun _ _ => False.elim) fun _ => id

theorem computeEtag_missing (answers : AnswersAs system tree)
    {etagOf : Bytes → Sys (Option Bytes) (Option Bytes)} {path : Bytes}
    (hstat : ∀ kind, stat tree path ≠ .ok kind) :
    Triple (Open fds) (computeEtag system etagOf path) (fun _ _ => False)
      (fun etag p => Open fds p ∧ etag = none) fun _ => False := by
  refine triple_bind (missing_of_ends (ends_alloc answers _ _)) fun _ => ?_
  refine triple_bind (missing_of_ends (ends_ask _ _)) fun ok => triple_of_fact fun hok => ?_
  obtain ⟨h, rfl⟩ := hok
  rw [answers.sha1Init]
  refine triple_bind (missing_of_ends (ends_check _)) fun _ => ?_
  refine triple_bind (missing_of_ends (ends_openFd_missing answers _ hstat)) fun fd =>
    triple_of_fact fun hfd => ?_
  rw [hfd]
  exact triple_bind (M := fun _ _ => False) (fun p hp => ⟨hp, rfl⟩) fun _ _ => False.elim

theorem ends_getEtag (answers : AnswersAs system tree) {depth : Nat} {path : Bytes} {kind : Stat}
    {fds' : List Nat} (hstat : stat tree path = .ok kind)
    (hcached : ∀ version,
      Attributes.getXattr (Attributes.kindXattrs kind).etag 41 = some version → fds' = fds)
    (hmade : Attributes.getXattr (Attributes.kindXattrs kind).etag 41 = none →
      Ends fds (computeEtag system (getEtag system depth) path) fun etag p =>
        Open fds' p ∧ etag ≠ none) :
    Ends fds (getEtag system (depth + 1) path) fun etag p => Open fds' p ∧ etag ≠ none := by
  refine triple_bind (ends_getXattr answers path) fun etag => triple_of_fact fun hetag => ?_
  rw [storedEtag_eq hstat] at hetag
  cases etag with
  | some version =>
    obtain ⟨stored, hstored⟩ := Option.ne_none_iff_exists'.1 (hetag.not.1 (by simp))
    exact triple_pure fun p hp => ⟨hp.trans (hcached stored hstored).symm, by simp⟩
  | none => exact hmade (hetag.1 rfl)

mutual

theorem leaves_node (answers : AnswersAs system tree) (named : WellNamed tree) (n : Node) :
    ∃ d, ∀ depth ≥ d, Leaves system tree n depth := by
  cases n with
  | leaf f =>
    refine ⟨1, fun depth hdepth path loc hnamei hn fds => ?_⟩
    obtain ⟨depth, rfl⟩ := Nat.exists_eq_add_of_le' hdepth
    have hstat := stat_of_get hnamei hn
    refine ends_getEtag answers hstat (fun version cached => ?_) fun missing => ?_
    · exact etagFds_cached cached
    · rw [etagFds_leaf (f := f) missing]
      exact ends_computeEtag answers hstat (ends_hashFile answers)
  | branch entries x =>
    obtain ⟨d, below⟩ := leaves_entries answers named entries
    refine ⟨d + 1, fun depth hdepth path loc hnamei hn fds => ?_⟩
    obtain ⟨more, rfl⟩ := Nat.exists_eq_add_of_le' hdepth
    have hstat := stat_of_get hnamei hn
    refine ends_getEtag answers hstat (fun version cached => ?_) fun missing => ?_
    · exact etagFds_cached cached
    · rw [etagFds_branch (x := x) missing]
      refine ends_computeEtag answers hstat ?_
      exact ends_hashDirectory answers named hnamei hn (below (more + d) (by omega))

theorem leaves_entries (answers : AnswersAs system tree) (named : WellNamed tree)
    (entries : List (Bytes × Node)) :
    ∃ d, ∀ depth ≥ d, ∀ entry ∈ entries, Leaves system tree entry.2 depth := by
  cases entries with
  | nil => exact ⟨0, by simp⟩
  | cons entry entries =>
    obtain ⟨d, first⟩ := leaves_node answers named entry.2
    obtain ⟨d', later⟩ := leaves_entries answers named entries
    refine ⟨max d d', fun depth hdepth => List.forall_mem_cons.2 ⟨first depth ?_, later depth ?_⟩⟩
    · exact (le_max_left d d').trans hdepth
    · exact (le_max_right d d').trans hdepth

end

theorem getEtagFds_eq {path : Bytes} {loc : Loc} {n : Node} (hnamei : namei tree path = .ok loc)
    (hn : tree.get? loc = some n) : getEtagFds tree path fds = etagFds n fds := by
  simp [getEtagFds, hnamei, Except.toOption, hn]

theorem getEtagFds_missing {path : Bytes} (hstat : ∀ kind, stat tree path ≠ .ok kind) :
    getEtagFds tree path fds = fds := by
  cases hlook : (namei tree path).toOption.bind tree.get? with
  | none => rw [getEtagFds, hlook]
  | some n =>
    obtain ⟨loc, hloc, hn⟩ := Option.bind_eq_some_iff.1 hlook
    cases hnamei : namei tree path with
    | ok found =>
      rw [hnamei] at hloc
      cases hloc
      exact absurd (stat_of_get hnamei hn) (hstat _)
    | error e => simp [hnamei, Except.toOption] at hloc

theorem getEtag_missing (answers : AnswersAs system tree) {depth : Nat} {path : Bytes}
    (hstat : ∀ kind, stat tree path ≠ .ok kind) :
    Triple (Open fds) (getEtag system (depth + 1) path) (fun etag p => Open fds p ∧ etag = none)
      (fun etag p => Open fds p ∧ etag = none) fun _ => False := by
  have nothing : storedEtag tree path = none := by
    rw [storedEtag, getxattrs]
    cases found : stat tree path with
    | ok kind => exact absurd found (hstat kind)
    | error e => rfl
  refine triple_bind (missing_of_ends (ends_getXattr answers path)) fun etag =>
    triple_of_fact fun hetag => ?_
  rw [hetag.2 nothing]
  exact (computeEtag_missing answers hstat).mono (fun _ => id) (fun _ _ => False.elim)
    (fun _ _ => id) fun _ => id

/-- Where no call fails, get_etag returns, given stack enough, with a version of what `path`
leads to and NULL for nothing, and leaves open what `getEtagFds` says. -/
theorem getEtag_agrees (answers : AnswersAs system tree) (named : WellNamed tree) (path : Bytes) :
    ∃ d, ∀ depth ≥ d, ∀ fds : List Nat,
      Ends fds (call (getEtag system depth path) : Sys ε (Option Bytes)) fun etag p =>
        Open (getEtagFds tree path fds) p ∧ (etag = none ↔ ∀ kind, stat tree path ≠ .ok kind) := by
  by_cases found : ∃ kind, stat tree path = .ok kind
  · obtain ⟨kind, hstat⟩ := found
    obtain ⟨loc, hnamei, hlook⟩ := stat_eq_ok.1 hstat
    rw [Tree.look, Option.map_eq_some_iff] at hlook
    obtain ⟨n, hn, -⟩ := hlook
    obtain ⟨d, leaves⟩ := leaves_node answers named n
    refine ⟨d, fun depth hdepth fds => ?_⟩
    rw [getEtagFds_eq hnamei hn]
    refine Ends.call ((leaves depth hdepth path loc hnamei hn fds).mono (fun _ => id)
      (fun etag p hp => ⟨hp.1, ?_⟩) (fun _ _ => id) fun _ => id)
    exact iff_of_false hp.2 fun missing => missing kind hstat
  · have missing : ∀ kind, stat tree path ≠ .ok kind := fun kind h => found ⟨kind, h⟩
    refine ⟨1, fun depth hdepth fds => ?_⟩
    obtain ⟨depth, rfl⟩ := Nat.exists_eq_add_of_le' hdepth
    rw [getEtagFds_missing missing]
    refine triple_call ((getEtag_missing answers missing).mono (fun _ => id) ?_ ?_ fun _ => id)
    · exact fun etag p hp => ⟨hp.1, iff_of_true hp.2 missing⟩
    · exact fun etag p hp => ⟨hp.1, iff_of_true hp.2 missing⟩

def errnum : Kernel.Errno → SystemCalls.Errno
  | .ENOENT => 2
  | .EBUSY => 16
  | .EEXIST => 17
  | .ENOTDIR => 20
  | .EISDIR => 21
  | .EINVAL => 22
  | .ENOTEMPTY => 39

def readAttr (attr : Option Bytes) (len : Nat) : Bytes × SystemCalls.Errno :=
  match attr with
  | none => ([], 61)
  | some value => if value.length ≤ len then (value, 0) else ([], SystemCalls.ERANGE)

def readEtag (tree : Node) (path key : Bytes) (len : Nat) (other : Bytes × SystemCalls.Errno) :
    Bytes × SystemCalls.Errno :=
  if key = str "user.etag" then readAttr ((getxattrs tree path).bind (·.etag)) len else other

/-- What get_etag asks is answered from the tree, the rest by `others`. -/
def treeSystem (others : System) (tree : Node) : System := fun history c =>
  match c with
  | .alloc => true
  | .sha1Init => true
  | .sha1Update => true
  | .sha1Final => some ((others history .sha1Final).getD [])
  | .read => ((others history .read).1, true)
  | .getxattr path key len =>
    readEtag tree path key len (others history (.getxattr path key len))
  | .opens (.file path) => ((stat tree path).mapError errnum).map fun _ => ()
  | .opendir path => (opendir tree path).mapError errnum
  | .stat path => ((stat tree path).mapError errnum).map Kind.isBranch
  | c => others history c

theorem readAttr_nil (attr : Option Bytes) :
    (readAttr attr 32).1 = [] ↔ Attributes.getXattr attr 41 = none := by
  have sizes : List.range' 32 ((41 - 16) / 16) 16 = [32] := by decide
  rw [Attributes.getXattr, sizes]
  cases attr with
  | none => exact iff_of_true rfl rfl
  | some value =>
    by_cases hfits : value.length ≤ 32 <;> simp [readAttr, Attributes.getXattrLoop, hfits]

theorem readEtag_etag (tree : Node) (path : Bytes) (len : Nat)
    (other : Bytes × SystemCalls.Errno) : readEtag tree path (str "user.etag") len other =
      readAttr ((getxattrs tree path).bind (·.etag)) len := if_pos rfl

theorem treeSystem_answers (others : System) (tree : Node) :
    AnswersAs (treeSystem others tree) tree where
  alloc _ := rfl
  sha1Init _ := rfl
  sha1Update _ := rfl
  sha1Final _ := Option.some_ne_none _
  read _ := rfl
  etag h path := by
    have reads : treeSystem others tree h (.getxattr path (str "user.etag") 32) =
        readAttr ((getxattrs tree path).bind (·.etag)) 32 := readEtag_etag tree path 32 _
    rw [reads, readAttr_nil, storedEtag]
    cases getxattrs tree path <;> rfl
  opens h path := by
    change ((Kernel.stat tree path).mapError errnum).map (fun _ => ()) = .ok () ↔ _
    cases Kernel.stat tree path <;> simp [Except.mapError, Except.map]
  stat h path kind hstat := by
    change ((Kernel.stat tree path).mapError errnum).map Kind.isBranch = _
    rw [hstat]
    rfl
  opendir h path names hdir := by
    change (Kernel.opendir tree path).mapError errnum = _
    rw [hdir]
    rfl

end RsServe.TreeCalls
