import RsServe.FolderRequests
import RsServe.Responses

/-! The listing of a folder, against what a GET of each entry by its own path answers. -/

namespace RsServe.Listings
open CString NameTree TreeWalk Kernel Attributes DiskPath EarlyExit JsonWriter Storage StorageRules
open Dispatch ChildPaths FolderRequests Responses

variable {env : Env}

section Paths
variable {path name : Bytes}

theorem not_dots_child (hslash : path.getLast? = some slash) (hname : PlainName name)
    (hdots : ¬ str ".." <+: name) (hpath : ¬ str "/.." <:+: path) :
    ¬ str "/.." <:+: path ++ name := by
  rw [show str ".." = [dot, dot] by decide] at hdots
  rw [show str "/.." = [slash, dot, dot] by decide] at hpath ⊢
  intro h
  rcases List.infix_append_iff_ne_nil.1 h with left | right | ⟨a, b, ha, hb, split, hends, hbegin⟩
  · exact hpath left
  · exact hname.not_mem (right.subset (by simp))
  · cases a with
    | nil => exact ha rfl
    | cons c a =>
      cases a with
      | nil =>
        have rest : b = [dot, dot] := by simpa using (List.cons.inj split).2.symm
        exact hdots (rest ▸ hbegin)
      | cons d a =>
        -- the path would end in a dot
        have rest : slash = c ∧ dot = d ∧ [dot] = a ++ b := by simpa using split
        have last : a = [] := by
          have len := congrArg List.length rest.2.2
          have some := List.length_pos_iff.2 hb
          rw [List.length_append, List.length_singleton] at len
          exact List.length_eq_zero_iff.1 (by omega)
        obtain ⟨start, rfl⟩ := hends
        rw [last, ← rest.2.1, List.getLast?_append_of_ne_nil _ (by simp)] at hslash
        exact absurd hslash (by simp [slash, dot])

theorem not_slashes_child (hname : PlainName name) (hpath : ¬ str "//" <:+: path) :
    ¬ str "//" <:+: path ++ name := by
  rw [show str "//" = [slash, slash] by decide] at hpath ⊢
  intro h
  rcases List.infix_append_iff_ne_nil.1 h with left | right | ⟨a, b, ha, hb, split, -, hbegin⟩
  · exact hpath left
  · exact hname.not_mem (right.subset (by simp))
  · have inside : slash ∈ b := by
      cases a with
      | nil => exact absurd rfl ha
      | cons c a =>
        cases a with
        | nil =>
          have rest : [slash] = b := by simpa using (List.cons.inj split).2
          simp [← rest]
        | cons d a =>
          have rest : [] = a ++ b := (List.cons.inj (List.cons.inj split).2).2
          exact absurd (List.append_eq_nil_iff.1 rest.symm).2 hb
    exact hname.not_mem (hbegin.subset inside)

variable (hpath : rewritePath path = path) (hslash : path.getLast? = some slash)
  (hname : PlainName name)
include hpath hslash hname

theorem rewritePath_child (hdots : ¬ str ".." <+: name) :
    rewritePath (path ++ name) = path ++ name := by
  have clean := rewritePath_eq_self_iff.1 hpath
  rw [rewritePath_eq_self_iff]
  exact ⟨not_dots_child hslash hname hdots clean.1, not_slashes_child hname clean.2⟩

theorem rewritePath_subdirectory (hdots : ¬ str ".." <+: name) :
    rewritePath (path ++ name ++ str "/") = path ++ name ++ str "/" := by
  have clean := rewritePath_eq_self_iff.1 (rewritePath_child hpath hslash hname hdots)
  have single : str "/" = [slash] := by decide
  have notLast : (path ++ name).getLast? ≠ some slash := by
    rw [List.getLast?_append_of_ne_nil _ hname.ne_nil]
    exact getLast_name hname
  rw [rewritePath_eq_self_iff, single]
  constructor
  · intro h
    rcases List.infix_concat_iff.1 h with ⟨start, hstart⟩ | left
    · have last := congrArg List.getLast? hstart
      rw [List.getLast?_append_of_ne_nil _ (by decide), List.getLast?_concat] at last
      exact absurd last (by decide)
    · exact clean.1 left
  · intro h
    rcases List.infix_concat_iff.1 h with ⟨start, hstart⟩ | left
    · have doubled : str "//" = [slash] ++ [slash] := by decide
      rw [doubled, ← List.append_assoc] at hstart
      have before := List.append_cancel_right hstart
      rw [← before, List.getLast?_concat] at notLast
      exact notLast rfl
    · exact clean.2 left

end Paths

def folderPath (env : Env) (req : Request) : Bytes := (makeDiskPath env.cfg req.user req.path).diskPath

structure ForEntry (req : Request) (name : Bytes) (isDir : Bool) (req' : Request) : Prop where
  user : req'.user = req.user
  path : req'.path = req.path ++ name ++ if isDir then str "/" else []
  parsed : req'.Parsed
  unconditional : req'.headersIn.ifNoneMatch = none

/-- The member names the entry, and its value is the version that a GET of the entry by its
own path answers. -/
def Lists (env : Env) (req : Request) (tree : Node) (name : Bytes) (member : Bytes × Bytes) :
    Prop :=
  ∃ view, viewAt tree (folderPath env req ++ name) = some view ∧
    member.1 = name ++ (if view.isBranch then str "/" else []) ∧
    ∀ req' fds, ForEntry req name view.isBranch req' →
      ∃ reply, answer (storageHandleGet env req') tree fds = some reply ∧ reply.status = 200 ∧
        reply.header (str "ETag") = some member.2

/-- The folder that is listed: a request for it with an unaltered path, and entries whose
names can stand in a JSON string and in a path. Below the entries no version is stored that
get_xattr can read, since get_etag would hash what lies behind it in memory, too. -/
structure Listable (env : Env) (req : Request) (tree : Node) (names : List Bytes) : Prop where
  named : WellNamed tree
  parsed : req.Parsed
  folder : req.path.getLast? = some slash
  unaltered : rewritePath req.path = req.path
  entries : opendir tree (folderPath env req) = .ok names
  undotted : ∀ name ∈ names, ¬ str ".." <+: name
  printable : ∀ name ∈ names, Printable name
  unstored : ∀ name ∈ names, ∀ loc, namei tree (folderPath env req ++ name) = .ok loc →
    ∀ below ≠ [], ∀ kind, tree.look (loc ++ below) = some kind →
      getXattr (kindXattrs kind).etag 41 = none

def StoredPrintable (env : Env) (req : Request) (tree : Node) (names : List Bytes) : Prop :=
  ∀ name ∈ names, ∀ x etag, getxattrs tree (folderPath env req ++ name) = some x →
    getXattr x.etag 41 = some etag → Printable etag

theorem folderPath_append (env : Env) {req req' : Request} {tail : Bytes}
    (huser : req'.user = req.user) (hreq : rewritePath req.path = req.path)
    (hpath : rewritePath (req.path ++ tail) = req.path ++ tail)
    (htail : req'.path = req.path ++ tail) :
    folderPath env req' = folderPath env req ++ tail := by
  simp only [folderPath, makeDiskPath, huser, htail, hpath, hreq, List.append_assoc]

theorem etag_of_headHeaders (diskPath : Bytes) (f : FileData) (r : Bytes × Node) :
    (corsHeaders ++ headHeaders env diskPath (.leaf f) none r).lookup (str "ETag") = some r.1 := rfl

theorem Listable.getLast {req : Request} {tree : Node} {names : List Bytes}
    (h : Listable env req tree names) : (folderPath env req).getLast? = some slash := by
  have nonempty : req.path ≠ [] := by
    intro none
    simpa [none] using h.folder
  rw [folderPath, makeDiskPath, h.unaltered, List.getLast?_append_of_ne_nil _ nonempty]
  exact h.folder

theorem not_missesEntry {tree : Node} (hnamed : WellNamed tree) {diskPath : Bytes}
    (hslash : diskPath.getLast? = some slash) : ¬ MissesEntry tree diskPath := by
  intro misses
  obtain ⟨names, hnames, name, hname, hnone⟩ := misses
  obtain ⟨loc, -, -, hnamei, -⟩ := opendir_ok hnames
  have found := findsEntries_of_slash sampleEnv hslash hnamed loc names hnamei hnames name hname
  exact found.2.2 (getEtag_eq_none.2 hnone)

section Entry
variable {req req' : Request} {tree : Node} {names : List Bytes} {name : Bytes} {loc : Loc}
  (h : Listable env req tree names) (hname : name ∈ names) (hplain : PlainName name)
include h hname hplain

theorem Listable.entry_document {f : FileData} {r : Bytes × Node}
    (hentry : ForEntry req name false req') (fds : List Nat)
    (hstat : stat tree (folderPath env req ++ name) = .ok (.leaf f))
    (hetag : getEtag env.sha1 tree (folderPath env req ++ name) = some r) :
    ∃ reply, answer (storageHandleGet env req') tree fds = some reply ∧ reply.status = 200 ∧
      reply.header (str "ETag") = some r.1 := by
  have hpath' : req'.path = req.path ++ name := by
    rw [hentry.path]
    simp
  have hdisk := folderPath_append env hentry.user h.unaltered
    (rewritePath_child h.unaltered h.folder hplain (h.undotted name hname)) hpath'
  have hfile : req'.file ≠ none := by
    rw [ne_eq, hentry.parsed.2, hpath', List.getLast?_append_of_ne_nil _ hplain.ne_nil]
    exact getLast_name hplain
  have reply := answer_document req' hfile fds (hdisk ▸ hstat) (hdisk ▸ hetag) true
  rw [hentry.unconditional, if_neg (by simp)] at reply
  exact ⟨_, reply, rfl, etag_of_headHeaders _ f r⟩

theorem Listable.entry_folder {x : Xattrs} {etag : Bytes} (hentry : ForEntry req name true req')
    (fds : List Nat) (hnamei : namei tree (folderPath env req) = .ok loc)
    (hlook : tree.look (loc ++ [name]) = some (.branch x))
    (hetag : (getEtag env.sha1 tree (folderPath env req ++ name)).map Prod.fst = some etag) :
    ∃ reply, answer (storageHandleGet env req') tree fds = some reply ∧ reply.status = 200 ∧
      reply.header (str "ETag") = some etag := by
  have hpath' : req'.path = req.path ++ (name ++ str "/") := by
    rw [hentry.path]
    simp
  have unaltered' : rewritePath (req.path ++ (name ++ str "/")) =
      req.path ++ (name ++ str "/") := by
    rw [← List.append_assoc]
    exact rewritePath_subdirectory h.unaltered h.folder hplain (h.undotted name hname)
  have hdisk := folderPath_append env hentry.user h.unaltered unaltered' hpath'
  have ends : ∀ path : Bytes, (path ++ (name ++ str "/")).getLast? = some slash := by
    intro path
    rw [List.getLast?_append_of_ne_nil _ (by simp [str]),
      List.getLast?_append_of_ne_nil _ (by decide)]
    decide
  have hfile : req'.file = none := hentry.parsed.2.2 (by rw [hpath']; exact ends _)
  have child := namei_child h.getLast hplain hnamei (by simp [hlook])
  have same := namei_subdirectory h.getLast hplain hnamei (by simp [shape, hlook, Kind.isBranch])
  rw [List.append_assoc, ← hdisk] at same
  have hstat : stat tree (folderPath env req') = .ok (.branch x) := stat_eq_ok.2 ⟨_, same, hlook⟩
  have hslash : (folderPath env req').getLast? = some slash := by
    rw [hdisk]
    exact ends _
  rcases answer_serveDirectory env hstat fds with
    ⟨misses, -⟩ | ⟨names', members', sent, -, -, hsent, hreply⟩
  · exact absurd misses (not_missesEntry h.named hslash)
  · rw [getEtag_of_namei env.sha1 (same.trans child.symm), hetag, Option.some_inj] at hsent
    refine ⟨_, (answer_folder req' hfile fds hstat).trans hreply, rfl, ?_⟩
    rw [hsent]
    rfl

end Entry

theorem Listable.entry {req : Request} {tree : Node} {names : List Bytes}
    (h : Listable env req tree names) {name : Bytes} (hname : name ∈ names)
    {member : Bytes × Bytes} (hmember : Describes env tree (folderPath env req) name member) :
    Lists env req tree name member := by
  obtain ⟨view, hview, hkey, hversion⟩ := hmember
  refine ⟨view, hview, hkey, fun req' fds hentry => ?_⟩
  obtain ⟨loc, entries, x, hnamei, hnode, rfl⟩ := opendir_ok h.entries
  have hplain := (h.named loc entries x hnode).2 name hname
  have present := look_entry_ne_none hnode hname
  have child := namei_child h.getLast hplain hnamei present
  cases hlook : tree.look (loc ++ [name]) with
  | none => exact absurd hlook present
  | some kind =>
    have hstat : stat tree (folderPath env req ++ name) = .ok kind :=
      stat_eq_ok.2 ⟨_, child, hlook⟩
    rw [viewAt_of_stat hstat, Option.some_inj] at hview
    rw [← hview] at hentry
    cases kind with
    | leaf f =>
      obtain ⟨r, hetag⟩ := getEtag_ne_none env.sha1 hstat
      rw [hetag, Option.map_some, Option.some_inj] at hversion
      rw [← hversion]
      exact h.entry_document hname hplain hentry fds hstat hetag
    | branch y => exact h.entry_folder hname hplain hentry fds hnamei hlook hversion

theorem printable_append {s t : Bytes} (hs : Printable s) (ht : Printable t) : Printable (s ++ t) := by
  intro c hc
  rcases List.mem_append.1 hc with left | right
  · exact hs c left
  · exact ht c right

theorem hexDigit_printable : ∀ n < 16, ¬ hexDigit n < 32 := by decide

theorem printable_version (sha1 : Bytes → Bytes) (m : Bytes) : Printable (version sha1 m) := by
  intro c hc
  obtain ⟨b, -, hb⟩ := List.mem_flatMap.1 hc
  have bound := b.toNat_lt
  simp only [List.mem_cons, List.not_mem_nil, or_false] at hb
  rcases hb with rfl | rfl
  · exact hexDigit_printable _ (by omega)
  · exact hexDigit_printable _ (by omega)

theorem Listable.printable_member {req : Request} {tree : Node} {names : List Bytes}
    (h : Listable env req tree names) (hstored : StoredPrintable env req tree names)
    {name : Bytes} (hname : name ∈ names) {member : Bytes × Bytes}
    (hmember : Describes env tree (folderPath env req) name member) :
    Printable member.1 ∧ Printable member.2 := by
  obtain ⟨view, -, hkey, hversion⟩ := hmember
  constructor
  · rw [hkey]
    refine printable_append (h.printable name hname) ?_
    cases view.isBranch with
    | true =>
      intro c hc
      have only : c = slash := by simpa [str, slash] using hc
      rw [only]
      decide
    | false => simp [Printable]
  · obtain ⟨r, hr, hetag⟩ := Option.map_eq_some_iff.1 hversion
    obtain ⟨loc, n, hnamei, hn, rfl⟩ := getEtag_eq_some hr
    have hstat : stat tree (folderPath env req ++ name) = .ok n.kind :=
      stat_eq_ok.2 ⟨loc, hnamei, by rw [Tree.look, hn]; rfl⟩
    rw [← hetag]
    rcases etagNode_cases env.sha1 n with cached | ⟨m, hm⟩
    · have found : getxattrs tree (folderPath env req ++ name) = some (kindXattrs n.kind) := by
        rw [getxattrs, hstat]
        cases n <;> rfl
      exact hstored name hname _ _ found cached
    · rw [hm]
      exact printable_version env.sha1 m

section Related
variable {α β : Type} {R : α → β → Prop} {l : List α} {u : List β}

theorem exists_right (h : List.Forall₂ R l u) {a : α} (ha : a ∈ l) : ∃ b ∈ u, R a b := by
  induction h with
  | nil => cases ha
  | cons first _ ih =>
    rcases List.mem_cons.1 ha with rfl | later
    · exact ⟨_, List.mem_cons_self, first⟩
    · obtain ⟨b, hb, related⟩ := ih later
      exact ⟨b, List.mem_cons_of_mem _ hb, related⟩

theorem exists_left (h : List.Forall₂ R l u) {b : β} (hb : b ∈ u) : ∃ a ∈ l, R a b := by
  obtain ⟨a, ha, related⟩ := exists_right h.flip hb
  exact ⟨a, ha, related⟩

end Related

theorem Listable.answered {req : Request} {tree : Node} {names : List Bytes}
    (h : Listable env req tree names) (fds : List Nat) :
    ∃ reply members, answer (storageHandleGet env req) tree fds = some reply ∧
      reply.status = 200 ∧ reply.body = objectText members ∧
      List.Forall₂ (Describes env tree (folderPath env req)) names members := by
  have hfile : req.file = none := h.parsed.2.2 h.folder
  obtain ⟨loc, entries, x, hnamei, hnode, -⟩ := opendir_ok h.entries
  have hstat : stat tree (folderPath env req) = .ok (.branch x) :=
    stat_eq_ok.2 ⟨loc, hnamei, by rw [Tree.look, hnode]; rfl⟩
  rcases answer_serveDirectory env hstat fds with
    ⟨misses, -⟩ | ⟨names', members, etag, hnames', hall, -, hreply⟩
  · exact absurd misses (not_missesEntry h.named h.getLast)
  · rw [h.entries, Except.ok.injEq] at hnames'
    subst hnames'
    exact ⟨_, members, (answer_folder req hfile fds hstat).trans hreply, rfl, rfl, hall⟩

def folderGet : Request where
  method := .GET
  user := str "me"
  path := str "/a/"
  file := none
  headersIn := ⟨some (str "Bearer t"), none, none, none⟩
  bufferIn := []

end RsServe.Listings
