import RsServe.StoreRuns

/-! The listing of a folder after a run: it has the documents in the folder with the versions that
were reported last, and the folders on the way to the others. -/

namespace RsServe.FolderContents
open CString SegmentGluing NameTree Kernel Attributes DiskPath JsonWriter Storage StorageRules Users
open Authorize Dispatch ChildPaths FolderRequests Listings PutResults Responses CanonicalPaths
open DocumentMap Documents ConditionalWrites Histories EntryNames DocumentRequests
open UserStores hiding Agrees
open StoreRuns
open TreeWalk (shape)
open ConditionalStore (after key_of_after)

variable {folder name : Bytes}

def ChildOf (folder name : Bytes) : Prop := Canonical (folder ++ name) ∧ slash ∉ name

theorem canonical_pathOf {names : List Bytes} (hne : names ≠ [])
    (h : ∀ name ∈ names, PlainName name ∧ ¬ str ".." <+: name) : Canonical (pathOf names) where
  starts := by
    obtain ⟨name, names, rfl⟩ := List.exists_cons_of_ne_nil hne
    rfl
  ends := by
    have nonempty : pathOf names ≠ [] := by
      obtain ⟨name, names, rfl⟩ := List.exists_cons_of_ne_nil hne
      simp [pathOf]
    rw [List.getLast?_eq_some_getLast nonempty, ne_eq, Option.some_inj]
    exact getLast_pathOf (fun name hname => (h name hname).1) nonempty
  segments := by
    have separated : (⟨[], names⟩ : Segmented UInt8).Separated slash :=
      ⟨List.not_mem_nil, fun name hname => (h name hname).1.not_mem⟩
    have word : (⟨[], names⟩ : Segmented UInt8).word slash = pathOf names := rfl
    rw [← word, cut_word separated]
    exact fun name hname => ⟨(h name hname).1.ne_nil, (h name hname).1.ne_here, (h name hname).2⟩

theorem undotted_of_canonical {path : Bytes} (h : Canonical path) {name : Bytes}
    (hname : name ∈ components path) : PlainName name ∧ ¬ str ".." <+: name := by
  refine ⟨h.plainName hname, ?_⟩
  rw [h.components_eq] at hname
  exact (h.segments name hname).2.2

theorem components_slash (path : Bytes) : components (path ++ [slash]) = components path := by
  rw [components_append_slash]
  simp [components]

section Paths
variable (hfolder : FolderPath folder)
include hfolder

theorem folder_eq : folder = pathOf (components folder) ++ [slash] := by
  rcases hfolder with rfl | ⟨doc, hdoc, rfl⟩
  · decide
  · rw [components_slash, hdoc.pathOf_components]

theorem folder_names : ∀ name ∈ components folder, PlainName name ∧ ¬ str ".." <+: name := by
  rcases hfolder with rfl | ⟨doc, hdoc, rfl⟩
  · have none : components [slash] = [] := by decide
    rw [none]
    simp
  · rw [components_slash]
    exact fun name hname => undotted_of_canonical hdoc hname

theorem head_folder : folder.head? = some slash := by
  rcases hfolder with rfl | ⟨doc, hdoc, rfl⟩
  · rfl
  · rw [List.head?_append, hdoc.starts]
    rfl

theorem folder_append (names : List Bytes) (name : Bytes) :
    pathOf (components folder ++ name :: names) = folder ++ name ++ pathOf names := by
  conv_rhs => rw [folder_eq hfolder]
  simp [pathOf]

theorem childOf_iff {name : Bytes} :
    ChildOf folder name ↔ PlainName name ∧ ¬ str ".." <+: name := by
  have whole := folder_append hfolder [] name
  rw [show pathOf [] = [] by rfl, List.append_nil] at whole
  constructor
  · intro h
    have nonempty : name ≠ [] := by
      intro nil
      have ends := h.1.ends
      rw [nil, List.append_nil, getLast_folder hfolder] at ends
      exact ends rfl
    have split : components (folder ++ name) = components folder ++ [name] := by
      obtain ⟨start, hstart⟩ := exists_of_getLast (getLast_folder hfolder)
      rw [hstart, components_slash, List.append_assoc, List.singleton_append,
        components_append_slash, components_of_not_mem h.2 nonempty]
    exact undotted_of_canonical h.1 (by rw [split]; simp)
  · intro h
    refine ⟨?_, h.1.not_mem⟩
    rw [← whole]
    refine canonical_pathOf (by simp) fun n hn => ?_
    rcases List.mem_append.1 hn with above | here
    · exact folder_names hfolder n above
    · rw [List.mem_singleton.1 here]
      exact h

end Paths

section Related
variable {α β γ : Type} {R : α → β → Prop} {l : List α} {u : List β}

theorem nodup_right (h : List.Forall₂ R l u) (f : β → γ) (hl : l.Nodup)
    (hf : ∀ a ∈ l, ∀ a' ∈ l, ∀ b b', R a b → R a' b' → f b = f b' → a = a') : (u.map f).Nodup := by
  induction h with
  | nil => exact List.nodup_nil
  | @cons a b l u first rest ih =>
    rw [List.nodup_cons] at hl
    refine List.nodup_cons.2 ⟨fun again => ?_, ih hl.2 fun a ha a' ha' =>
      hf a (List.mem_cons_of_mem _ ha) a' (List.mem_cons_of_mem _ ha')⟩
    obtain ⟨b', hb', same⟩ := List.mem_map.1 again
    obtain ⟨a', ha', related⟩ := exists_left rest hb'
    have equal := hf a List.mem_cons_self a' (List.mem_cons_of_mem _ ha') b b' first related same.symm
    exact hl.1 (equal ▸ ha')

end Related

variable {cfg : Config} {users : Set Bytes} {start tree : Node} {docs : UserStores.Store} {user : Bytes}

theorem components_diskPath_folder (cfg : Config) (hfolder : FolderPath folder) (huser : PlainName user) :
    components (makeDiskPath cfg user folder).diskPath = rootOf cfg user ++ components folder := by
  rw [makeDiskPath, rewritePath_folder hfolder, components_append (head_folder hfolder),
    components_root cfg huser]

theorem diskPath_child (hfolder : FolderPath folder) (hname : ChildOf folder name) :
    (makeDiskPath cfg user (folder ++ name)).diskPath =
      (makeDiskPath cfg user folder).diskPath ++ name := by
  simp only [makeDiskPath, rewritePath_folder hfolder, hname.1.rewritePath_eq, List.append_assoc]

theorem components_document (hfolder : FolderPath folder) (hname : ChildOf folder name) :
    components (folder ++ name) = components folder ++ [name] :=
  components_child (getLast_folder hfolder) ((childOf_iff hfolder).1 hname).1

section
variable (hfolder : FolderPath folder) (huser : PlainName user)
include hfolder huser

theorem namei_folder {loc : Loc} : namei tree (makeDiskPath cfg user folder).diskPath = .ok loc ↔
    loc = rootOf cfg user ++ components folder ∧ plain tree loc = some (.branch ()) := by
  have names := components_diskPath_folder cfg hfolder huser
  have ends := getLast_diskPath_folder hfolder cfg user
  have plainNames : ∀ n ∈ rootOf cfg user ++ components folder, PlainName n := by
    intro n hn
    rcases List.mem_append.1 hn with above | below
    · simp only [rootOf, List.mem_cons, List.not_mem_nil, or_false] at above
      rcases above with rfl | rfl | rfl
      · exact plainName_home
      · exact huser
      · exact cfg.plainRoot
    · exact (folder_names hfolder n below).1
  constructor
  · intro h
    obtain ⟨walked, directory⟩ := namei_directory ends h
    have top : plain tree [] ≠ none := by simp [plain, Tree.look, get?_nil]
    rw [names] at walked
    obtain ⟨rfl, -⟩ := eq_of_lookupAt plainNames top walked
    refine ⟨rfl, ?_⟩
    rw [shape_eq_plain, Option.map_eq_some_iff] at directory
    obtain ⟨kind, hkind, branch⟩ := directory
    cases kind with
    | leaf content => cases branch
    | branch u => exact hkind
  · intro h
    obtain ⟨rfl, branch⟩ := h
    have there : plain tree ([] ++ (rootOf cfg user ++ components folder)) ≠ none := by
      rw [List.nil_append, branch]
      simp
    have directory : shape tree (rootOf cfg user ++ components folder) = some true := by
      rw [shape_eq_plain, branch]
      rfl
    rw [namei, pathNames, ends, if_pos rfl, names, lookupAt_append (lookupAt_ok plainNames there)]
    exact lookupAt_here directory

theorem stat_folder_error
    (h : plain tree (rootOf cfg user ++ components folder) ≠ some (.branch ())) :
    ∃ e, stat tree (makeDiskPath cfg user folder).diskPath = .error e := by
  cases hnamei : namei tree (makeDiskPath cfg user folder).diskPath with
  | error e => exact ⟨e, by rw [stat, hnamei]⟩
  | ok loc =>
    obtain ⟨rfl, branch⟩ := (namei_folder hfolder huser).1 hnamei
    exact absurd branch h

theorem opendir_folder (h : plain tree (rootOf cfg user ++ components folder) = some (.branch ())) :
    ∃ entries x, tree.get? (rootOf cfg user ++ components folder) = some (.branch entries x) ∧
      stat tree (makeDiskPath cfg user folder).diskPath = .ok (.branch x) ∧
      opendir tree (makeDiskPath cfg user folder).diskPath = .ok (entries.map Prod.fst) := by
  have hnamei : namei tree (makeDiskPath cfg user folder).diskPath = .ok _ :=
    (namei_folder hfolder huser).2 ⟨rfl, h⟩
  obtain ⟨x, hx⟩ := plain_eq_branch.1 h
  obtain ⟨entries, hget⟩ := get?_of_look_branch hx
  refine ⟨entries, x, hget, stat_eq_ok.2 ⟨_, hnamei, hx⟩, ?_⟩
  simp only [opendir, hnamei, hget]

end

section
variable {env : Env} (hstart : EmptyRoots env.cfg users start) (h : Holds env.cfg users start docs tree)
  (huser : user ∈ users) (hfolder : FolderPath folder)
include h huser

theorem stored_below {names : List Bytes} (hne : names ≠ [])
    (hthere : plain tree (rootOf env.cfg user ++ names) ≠ none) :
    ∃ rest path, Canonical path ∧ components path = names ++ rest ∧
      docs (user, components path) ≠ none := by
  rw [ne_eq, (h.inside user huser).none_iff hne, not_and_or, not_not] at hthere
  rcases hthere with hdoc | ⟨q, ⟨rest, -, rfl⟩, hdoc⟩
  · obtain ⟨path, hpath, same⟩ := h.keys (user, names) hdoc
    exact ⟨[], path, hpath, by simpa using same, by rwa [same]⟩
  · obtain ⟨path, hpath, same⟩ := h.keys (user, names ++ rest) hdoc
    exact ⟨rest, path, hpath, same, by rwa [same]⟩

include hfolder

theorem childOf_of_there
    (hthere : plain tree (rootOf env.cfg user ++ (components folder ++ [name])) ≠ none) :
    ChildOf folder name := by
  obtain ⟨rest, path, hpath, same, -⟩ := stored_below h huser (by simp) hthere
  refine (childOf_iff hfolder).2 (undotted_of_canonical hpath ?_)
  rw [same]
  simp

include hstart

theorem describes_document (hname : ChildOf folder name) {body : Bytes}
    (hdoc : docs (user, components folder ++ [name]) = some body) {member : Bytes × Bytes} :
    Describes env tree (makeDiskPath env.cfg user folder).diskPath name member ↔
      member = (name, version env.sha1 body) := by
  have root := emptyRoot_cleared (hstart.owners user huser) (h.top hstart huser)
  have split := components_document hfolder hname
  have hview := (h.refines huser).viewAt root hname.1
  rw [diskPath_child hfolder hname, split,
    ((h.inside user huser).leaf (components folder ++ [name]) body).2 hdoc] at hview
  have hversion : (getEtag env.sha1 tree _).map Prod.fst = some (version env.sha1 body) :=
    version_of_document h.uncached hview
  constructor
  · intro described
    obtain ⟨view, hview', hkey, hvalue⟩ := described
    rw [hview, Option.some_inj] at hview'
    rw [← hview'] at hkey
    rw [hversion, Option.some_inj] at hvalue
    exact Prod.ext (by simpa [Kind.isBranch] using hkey) hvalue.symm
  · intro same
    rw [same]
    exact ⟨.leaf body, hview, by simp [Kind.isBranch], hversion⟩

theorem describes_folder (hname : ChildOf folder name)
    (habove : Ancestor (fun names => docs (user, names)) (components folder ++ [name]))
    {member : Bytes × Bytes}
    (hmember : Describes env tree (makeDiskPath env.cfg user folder).diskPath name member) :
    member.1 = name ++ [slash] := by
  have root := emptyRoot_cleared (hstart.owners user huser) (h.top hstart huser)
  have split := components_document hfolder hname
  have hview := (h.refines huser).viewAt root hname.1
  have branch := ((h.inside user huser).branch (components folder ++ [name]) (by simp)).2
    (Or.inl habove)
  obtain ⟨view, hview', hkey, -⟩ := hmember
  rw [diskPath_child hfolder hname, split] at hview
  rw [hview', branch, Option.some_inj] at hview
  rw [hkey, hview]
  rfl

end

/-- The members of a listing are the documents in the folder, with the versions that were reported
last, and the folders on the way to the documents further down. -/
structure ListsReported (user folder : Bytes) (log : List (Event × Reply))
    (members : List (Bytes × Bytes)) : Prop where
  nodup : (members.map Prod.fst).Nodup
  documents : ∀ name v, ChildOf folder name → ((name, v) ∈ members ↔
    ∃ body, lastReported user (folder ++ name) log = some (body, some v))
  folders : ∀ name, ChildOf folder name → ((∃ v, (name ++ [slash], v) ∈ members) ↔
    ∃ path, Canonical path ∧ folder ++ name ++ [slash] <+: path ∧ lastReported user path log ≠ none)
  only : ∀ m ∈ members, ∃ name, ChildOf folder name ∧ (m.1 = name ∨ m.1 = name ++ [slash])

theorem name_of_key (hname : slash ∉ name) {tail : Bytes} (htail : tail = [] ∨ tail = [slash]) :
    (name ++ tail).takeWhile (· ≠ slash) = name := by
  rw [List.takeWhile_append_of_pos fun c hc => decide_eq_true (ne_of_mem_of_not_mem hc hname)]
  rcases htail with rfl | rfl
  · simp
  · simp

variable {env : Env} {log : List (Event × Reply)} {names : List Bytes} {members : List (Bytes × Bytes)}

theorem key_of_describes {diskPath : Bytes} {member : Bytes × Bytes}
    (h : Describes env tree diskPath name member) :
    ∃ tail, (tail = [] ∨ tail = [slash]) ∧ member.1 = name ++ tail := by
  obtain ⟨view, -, hkey, -⟩ := h
  refine ⟨_, ?_, hkey⟩
  cases view.isBranch with
  | true => exact Or.inr (by decide)
  | false => exact Or.inl rfl

theorem ancestor_iff (user : Bytes) (hkeys : ∀ key, docs key ≠ none → ∃ path, Canonical path ∧ components path = key.2)
    {doc : Bytes} (hdoc : Canonical doc) :
    Ancestor (fun names => docs (user, names)) (components doc) ↔
      ∃ path, Canonical path ∧ doc ++ [slash] <+: path ∧ docs (user, components path) ≠ none := by
  constructor
  · intro above
    obtain ⟨q, hq, hstored⟩ := above
    obtain ⟨path, hpath, same⟩ := hkeys (user, q) hstored
    subst same
    exact ⟨path, hpath, (pathAbove_iff hpath hdoc).2 hq, hstored⟩
  · intro below
    obtain ⟨path, hpath, hprefix, hstored⟩ := below
    exact ⟨components path, (pathAbove_iff hpath hdoc).1 hprefix, hstored⟩

section
variable (hstart : EmptyRoots env.cfg users start) (h : Holds env.cfg users start docs tree)
  (huser : user ∈ users) (hfolder : FolderPath folder)
include hstart h huser hfolder

theorem listed_cases {member : Bytes × Bytes}
    (hthere : plain tree (rootOf env.cfg user ++ (components folder ++ [name])) ≠ none)
    (hmember : Describes env tree (makeDiskPath env.cfg user folder).diskPath name member) :
    ChildOf folder name ∧
      ((∃ body, docs (user, components folder ++ [name]) = some body ∧
          member = (name, version env.sha1 body)) ∨
        Ancestor (fun names => docs (user, names)) (components folder ++ [name]) ∧
          member.1 = name ++ [slash]) := by
  have child := childOf_of_there h huser hfolder hthere
  refine ⟨child, ?_⟩
  have kind := ((h.inside user huser).none_iff (by simp)).not.1 hthere
  cases hdoc : docs (user, components folder ++ [name]) with
  | some body =>
    exact Or.inl ⟨body, rfl, (describes_document hstart h huser hfolder child hdoc).1 hmember⟩
  | none =>
    have above : Ancestor (fun names => docs (user, names)) (components folder ++ [name]) := by
      by_contra notAbove
      exact kind ⟨hdoc, notAbove⟩
    exact Or.inr ⟨above, describes_folder hstart h huser hfolder child above hmember⟩

variable (hreported : Reported env log docs)
  (hall : List.Forall₂ (Describes env tree (makeDiskPath env.cfg user folder).diskPath) names members)
  (hnodup : names.Nodup)
  (hnames : ∀ name, name ∈ names ↔
    plain tree (rootOf env.cfg user ++ (components folder ++ [name])) ≠ none)
include hreported hall hnodup hnames

theorem lists_reported : ListsReported user folder log members where
  nodup := by
    refine nodup_right hall Prod.fst hnodup fun a ha a' ha' b b' hb hb' same => ?_
    have child := childOf_of_there h huser hfolder ((hnames a).1 ha)
    have child' := childOf_of_there h huser hfolder ((hnames a').1 ha')
    obtain ⟨tail, htail, hkey⟩ := key_of_describes hb
    obtain ⟨tail', htail', hkey'⟩ := key_of_describes hb'
    rw [hkey, hkey'] at same
    rw [← name_of_key child.2 htail, same, name_of_key child'.2 htail']
  documents := by
    intro name v hname
    have reported := hreported user (folder ++ name) hname.1
    rw [components_document hfolder hname] at reported
    constructor
    · intro listed
      obtain ⟨name', hname', described⟩ := exists_left hall listed
      rcases (listed_cases hstart h huser hfolder ((hnames name').1 hname') described).2 with
        ⟨body, hdoc, member⟩ | ⟨-, key⟩
      · rw [Prod.mk.injEq] at member
        rw [← member.1] at hdoc
        exact ⟨body, by rw [reported, hdoc, member.2]; rfl⟩
      · have slashed : name = name' ++ [slash] := key
        exact absurd (by rw [slashed]; simp) hname.2
    · intro last
      obtain ⟨body, hlast⟩ := last
      rw [reported, Option.map_eq_some_iff] at hlast
      obtain ⟨body', hdoc, same⟩ := hlast
      have leaf := ((h.inside user huser).leaf (components folder ++ [name]) body').2 hdoc
      obtain ⟨member, hmember, described⟩ :=
        exists_right hall ((hnames name).2 (by rw [leaf]; simp))
      rw [(describes_document hstart h huser hfolder hname hdoc).1 described] at hmember
      rw [Prod.mk.injEq, Option.some_inj] at same
      rwa [← same.2]
  folders := by
    intro name hname
    have reported : ∀ path, Canonical path →
        (lastReported user path log ≠ none ↔ docs (user, components path) ≠ none) := by
      intro path hpath
      rw [hreported user path hpath, ne_eq, Option.map_eq_none_iff]
    have above := ancestor_iff user h.keys hname.1
    rw [components_document hfolder hname] at above
    constructor
    · intro listed
      obtain ⟨v, hv⟩ := listed
      obtain ⟨name', hname', described⟩ := exists_left hall hv
      obtain ⟨child, kind⟩ := listed_cases hstart h huser hfolder ((hnames name').1 hname') described
      rcases kind with ⟨body, -, member⟩ | ⟨isAbove, key⟩
      · rw [Prod.mk.injEq] at member
        have slashed : slash ∈ name' := member.1 ▸ (by simp)
        exact absurd slashed child.2
      · rw [← List.append_cancel_right key] at isAbove
        obtain ⟨path, hpath, hprefix, hdoc⟩ := above.1 isAbove
        exact ⟨path, hpath, hprefix, (reported path hpath).2 hdoc⟩
    · intro below
      obtain ⟨path, hpath, hprefix, hlast⟩ := below
      have isAbove := above.2 ⟨path, hpath, hprefix, (reported path hpath).1 hlast⟩
      have branch := ((h.inside user huser).branch (components folder ++ [name]) (by simp)).2
        (Or.inl isAbove)
      obtain ⟨member, hmember, described⟩ :=
        exists_right hall ((hnames name).2 (by rw [branch]; simp))
      have key := describes_folder hstart h huser hfolder hname isAbove described
      exact ⟨member.2, by rw [← key]; exact hmember⟩
  only := by
    intro member hmember
    obtain ⟨name, hname, described⟩ := exists_left hall hmember
    obtain ⟨child, kind⟩ := listed_cases hstart h huser hfolder ((hnames name).1 hname) described
    rcases kind with ⟨body, -, same⟩ | ⟨-, key⟩
    · exact ⟨name, child, Or.inl (by rw [same])⟩
    · exact ⟨name, child, Or.inr key⟩

end

def Occupied (user folder : Bytes) (log : List (Event × Reply)) : Prop :=
  folder = [slash] ∨
    ∃ path, Canonical path ∧ folder <+: path ∧ lastReported user path log ≠ none

theorem branch_iff_occupied (hstart : EmptyRoots env.cfg users start)
    (h : Holds env.cfg users start docs tree) (huser : user ∈ users) (hfolder : FolderPath folder)
    (hreported : Reported env log docs) :
    plain tree (rootOf env.cfg user ++ components folder) = some (.branch ()) ↔
      Occupied user folder log := by
  rcases hfolder with rfl | ⟨doc, hdoc, rfl⟩
  · have none : components [slash] = [] := by decide
    rw [none, List.append_nil]
    exact iff_of_true (h.top hstart huser) (Or.inl rfl)
  · have top : doc ++ [slash] ≠ [slash] := by
      intro same
      have empty : doc = [] := List.append_cancel_right (same.trans (List.nil_append _).symm)
      exact absurd hdoc.starts (by simp [empty])
    have branch := (h.inside user huser).branch (components doc) hdoc.components_ne_nil
    rw [components_slash, branch, ancestor_iff user h.keys hdoc, Occupied]
    simp only [List.prefix_nil, hdoc.components_ne_nil, top, or_false, false_or]
    constructor
    · intro below
      obtain ⟨path, hpath, hprefix, hstored⟩ := below
      exact ⟨path, hpath, hprefix, by rwa [hreported user path hpath, ne_eq, Option.map_eq_none_iff]⟩
    · intro below
      obtain ⟨path, hpath, hprefix, hlast⟩ := below
      rw [hreported user path hpath, ne_eq, Option.map_eq_none_iff] at hlast
      exact ⟨path, hpath, hprefix, hlast⟩

theorem printable_key {events : List Event} (hevents : ∀ e ∈ events, Ordinary users e)
    (hprint : ∀ e ∈ events, Printable e.req.path) {key : Bytes × List Bytes}
    (hdoc : after (storeRules env) (fun _ => none) (requests env events) key ≠ none) :
    ∀ name ∈ key.2, Printable name := by
  rcases key_of_after _ hdoc with none | ⟨r, hr, rfl⟩
  · exact absurd rfl none
  · obtain ⟨e, he, hasked⟩ := List.mem_filterMap.1 hr
    obtain ⟨-, hfile, own, hown, rfl⟩ := asked_eq_some hasked
    have hpath := (hevents e he).canonical hfile
    rw [key_of, key_storeRequest hown]
    intro name hname c hc
    refine hprint e he c ?_
    rw [← hpath.pathOf_components]
    exact List.mem_flatMap.2 ⟨name, hname, List.mem_cons_of_mem _ hc⟩

variable {s s' : Server} {events : List Event} {e : Event}

theorem unread_of_uncached (h : Uncached tree) {path : Bytes} {x : Xattrs}
    (hx : getxattrs tree path = some x) : getXattr x.etag 41 = none := by
  unfold getxattrs at hx
  cases hstat : stat tree path with
  | error e => simp [hstat] at hx
  | ok kind =>
    obtain ⟨loc, -, hlook⟩ := stat_eq_ok.1 hstat
    have unread := h loc kind hlook
    cases kind with
    | leaf f =>
      rw [hstat, Option.some_inj] at hx
      exact hx ▸ unread
    | branch y =>
      rw [hstat, Option.some_inj] at hx
      exact hx ▸ unread

theorem listable_folder (he : Ordinary users e) (hfolder : FolderPath e.req.path)
    (hnamed : WellNamed tree) (hcached : Uncached tree)
    (hnames : opendir tree (folderPath env e.req) = .ok names)
    (hchild : ∀ name ∈ names, ChildOf e.req.path name ∧ Printable name) :
    Listable env e.req tree names where
  named := hnamed
  parsed := he.parsed
  folder := getLast_folder hfolder
  unaltered := rewritePath_folder hfolder
  entries := hnames
  undotted := fun name hname => ((childOf_iff hfolder).1 (hchild name hname).1).2
  printable := fun name hname => (hchild name hname).2
  unstored := fun _ _ loc _ below _ kind hkind => hcached (loc ++ below) kind hkind

theorem readable_listing {s : Server} {events : List Event} {e : Event}
    (hstart : EmptyRoots env.cfg users start)
    (h : Holds env.cfg users start (after (storeRules env) (fun _ => none) (requests env events))
      s.tree)
    (hevents : ∀ e ∈ events, Ordinary users e) (hprint : ∀ e ∈ events, Printable e.req.path)
    (he : Ordinary users e) (hfolder : FolderPath e.req.path)
    (hnames : opendir s.tree (folderPath env e.req) = .ok names)
    (hthere : ∀ name ∈ names,
      plain s.tree (rootOf env.cfg e.req.user ++ (components e.req.path ++ [name])) ≠ none)
    (hall : List.Forall₂ (Describes env s.tree (folderPath env e.req)) names members) :
    readObject (objectText members) = some members := by
  have child : ∀ name ∈ names, ChildOf e.req.path name ∧ Printable name := by
    intro name hname
    have present := hthere name hname
    obtain ⟨rest, path, -, split, hdoc⟩ := stored_below h he.user (by simp) present
    refine ⟨childOf_of_there h he.user hfolder present, ?_⟩
    exact printable_key hevents hprint hdoc name (by rw [split]; simp)
  have listable := listable_folder he hfolder (h.named hstart) h.uncached hnames child
  refine readObject_objectText fun m hm => ?_
  obtain ⟨name, hname, described⟩ := exists_left hall hm
  refine listable.printable_member (fun _ _ x etag hx hetag => ?_) hname described
  rw [unread_of_uncached h.uncached hx] at hetag
  cases hetag

/-- After every run, a GET of a folder lists the documents in it with the versions that were
reported last, and the folders on the way to others; it finds no folder where no document is. -/
theorem folder_lists_documents (hstart : EmptyRoots env.cfg users s.tree)
    (hevents : ∀ e ∈ events, Usual env users e) (hprint : ∀ e ∈ events, Printable e.req.path)
    (hrun : exchanges env s events = some (log, s')) (he : Usual env users e)
    (hlet : LetThrough env e.lookup e.req) (hmethod : e.req.method = .GET) (hfile : e.req.file = none) :
    ∃ reply, replied env s' e = some reply ∧
      (Occupied e.req.user e.req.path log → reply.status = 200 ∧
        ∃ members, readObject reply.body = some members ∧
          ListsReported e.req.user e.req.path log members) ∧
      (¬ Occupied e.req.user e.req.path log → reply.status = 404) := by
  have ordinary : ∀ e ∈ events, Ordinary users e := fun e he => (hevents e he).toOrdinary
  obtain ⟨-, told, holds⟩ := run_consistent hstart hstart.holds Reported.nothing ordinary hrun
  rw [List.nil_append] at told
  have hfolder := he.folder hfile
  have huser := hstart.owners _ he.user
  have named := holds.named hstart
  have calls := replied_calls (s := s') hlet (p := storageHandleGet env e.req)
    (by simp only [callHandler, hmethod])
  rw [calls.1]
  by_cases hoccupied : Occupied e.req.user e.req.path log
  · have branch := (branch_iff_occupied hstart holds he.user hfolder told).2 hoccupied
    obtain ⟨entries, x, hget, hstat, hdir⟩ := opendir_folder hfolder huser branch
    have ends := getLast_diskPath_folder hfolder env.cfg e.req.user
    have there : ∀ name, name ∈ entries.map Prod.fst ↔
        plain s'.tree (rootOf env.cfg e.req.user ++ (components e.req.path ++ [name])) ≠ none := by
      intro name
      rw [← List.append_assoc, ne_eq, plain_eq_none]
      refine ⟨look_entry_ne_none hget, fun present => ?_⟩
      rw [Tree.look, get_entry hget, Option.map_eq_none_iff] at present
      obtain ⟨child, hchild⟩ := Option.ne_none_iff_exists'.1 present
      exact List.mem_map.2 ⟨(name, child), AssocList.mem_of_lookup hchild, rfl⟩
    rcases answer_serveDirectory env hstat s'.fds with
      ⟨misses, -⟩ | ⟨names, members, etag, hnames, hall, -, hreply⟩
    · exact absurd misses (not_missesEntry named ends)
    · rw [hdir, Except.ok.injEq] at hnames
      subst hnames
      refine ⟨_, (answer_folder e.req hfile s'.fds hstat).trans hreply, fun _ => ⟨rfl, members, ?_, ?_⟩,
        fun empty => absurd hoccupied empty⟩
      · exact readable_listing hstart holds ordinary hprint he.toOrdinary hfolder hdir
          (fun name hname => (there name).1 hname) hall
      · exact lists_reported hstart holds he.user hfolder told hall (named _ entries x hget).1 there
  · have vacant := (branch_iff_occupied hstart holds he.user hfolder told).not.2 hoccupied
    obtain ⟨error, hstat⟩ := stat_folder_error hfolder huser vacant
    exact ⟨_, answer_error e.req s'.fds hstat true, fun occupied => absurd occupied hoccupied,
      fun _ => statFailed_stat hstat⟩

def folderEvent (user : Bytes) : Event where
  lookup := rootRecord
  written := 0
  req := { folderGet with user := user }

theorem folder_lists_documents_sample : ∃ log s' reply,
    exchanges twoUsers ⟨twoHomes, [0, 1, 2]⟩ twoUsersRun = some (log, s') ∧
    replied twoUsers s' (folderEvent (str "you")) = some reply ∧
    (Occupied (str "you") (str "/a/") log → reply.status = 200 ∧
      ∃ members, readObject reply.body = some members ∧
        ListsReported (str "you") (str "/a/") log members) ∧
    (¬ Occupied (str "you") (str "/a/") log → reply.status = 404) := by
  have document : Canonical (str "/a") := ⟨by decide, by decide, by decide⟩
  have ordinary : Ordinary meAndYou (folderEvent (str "you")) :=
    ⟨Or.inr rfl, ⟨by decide, by decide⟩, Or.inr (Or.inr ⟨str "/a", document, by decide⟩),
      by simp [folderEvent, folderGet], by decide⟩
  have printable : ∀ e ∈ twoUsersRun, Printable e.req.path := by
    unfold Printable
    decide +kernel
  obtain ⟨log, s', hrun, -⟩ := run_holds (s := ⟨twoHomes, [0, 1, 2]⟩) emptyRoots_twoHomes
    emptyRoots_twoHomes.holds ordinary_twoUsersRun
  obtain ⟨reply, hreply⟩ := folder_lists_documents emptyRoots_twoHomes usual_twoUsersRun printable
    hrun ⟨ordinary, by decide +kernel⟩ (by decide) rfl rfl
  exact ⟨log, s', reply, hrun, hreply⟩

end RsServe.FolderContents
