import RsServe.Dispatch

/-! What a client sees of GET and HEAD. -/

namespace RsServe.Responses
open CString NameTree Kernel Attributes Stamping DiskPath EarlyExit JsonWriter Storage StorageRules
open Dispatch

structure Reply where
  status : Nat
  headers : List (Bytes × Bytes)
  body : Bytes
deriving DecidableEq

def Reply.header (r : Reply) (key : Bytes) : Option Bytes := r.headers.lookup key

def replyOf : Outcome World Nat Nat → Option Reply
  | .next status w => some ⟨status, w.headersOut, w.bufferOut⟩
  | .stop status w => some ⟨status, w.headersOut, w.bufferOut⟩
  | .crash _ => none

def answer (handler : Handler Nat) (tree : Node) (fds : List Nat) : Option Reply :=
  replyOf (handler (arrival tree fds))

variable {env : Env}

/-- The headers of a document, or of a folder for HEAD. -/
def headHeaders (env : Env) (diskPath : Bytes) (statBuf : Stat) (mimeType : Option Bytes)
    (r : Bytes × Node) : List (Bytes × Bytes) :=
  [(str "Content-Type", mimeType.getD (detectedType env diskPath r.2)),
    (str "Content-Length", decimal (statSize env diskPath statBuf)), (str "ETag", r.1)]

theorem serveFileHead_run {req : Request} {diskPath : Bytes} {statBuf : Stat} {r : Bytes × Node}
    {w : World} (hkind : req.file.isNone = statBuf.isBranch)
    (hetag : getEtag env.sha1 w.tree diskPath = some r) (mimeType : Option Bytes) :
    ∃ fds, serveFileHead env req diskPath statBuf mimeType w =
      if req.headersIn.ifNoneMatch = some r.1 then
        .stop 304 { w with tree := r.2, fds := fds }
      else
        .next 0 ⟨r.2, fds, w.headersOut ++ headHeaders env diskPath statBuf mimeType r,
          w.bufferOut⟩ := by
  refine ⟨Descriptors.getEtagFds w.tree diskPath w.fds, ?_⟩
  unfold serveFileHead
  rw [if_neg (by simp [hkind])]
  simp only [bind_apply, etagOf, hetag, orStop]
  by_cases hmatch : req.headersIn.ifNoneMatch = some r.1
  · rw [if_pos hmatch, if_pos hmatch]
    rfl
  · rw [if_neg hmatch, if_neg hmatch]
    simp only [read_bind, addRespHeader, update_bind, pure_apply, headHeaders,
      List.append_assoc, List.cons_append, List.nil_append]

theorem serveFileHead_mismatch (env : Env) {req : Request} {statBuf : Stat}
    (hkind : req.file.isNone ≠ statBuf.isBranch) (diskPath : Bytes) (mimeType : Option Bytes)
    (w : World) : serveFileHead env req diskPath statBuf mimeType w = .stop 404 w := by
  unfold serveFileHead
  rw [if_pos hkind]
  rfl

theorem serveFile_run {diskPath : Bytes} {f : FileData} {w : World}
    (hview : viewAt w.tree diskPath = some (.leaf f.content)) :
    ∃ w', serveFile diskPath w = .next 200 w' ∧ w'.headersOut = w.headersOut ∧
      w'.bufferOut = w.bufferOut ++ f.content := by
  rw [viewAt_eq] at hview
  cases hnamei : namei w.tree diskPath with
  | error e => simp [hnamei, Except.toOption] at hview
  | ok loc =>
    rw [hnamei] at hview
    simp only [Except.toOption, Option.bind_some] at hview
    obtain ⟨x, hlook⟩ := plain_eq_leaf.1 hview
    have content : contentAt w.tree loc = f.content := by
      unfold contentAt
      rw [hlook]
    have opened : openRead w.tree diskPath = .ok loc := hnamei
    unfold serveFile
    simp only [attempt_bind, opened]
    refine ⟨_, rfl, rfl, ?_⟩
    change readLoop w.bufferOut (contentAt w.tree loc) = w.bufferOut ++ f.content
    rw [readLoop_eq, content]

theorem answer_document (req : Request) (hfile : req.file ≠ none) {tree : Node} {f : FileData}
    {r : Bytes × Node} (fds : List Nat)
    (hstat : stat tree (makeDiskPath env.cfg req.user req.path).diskPath = .ok (.leaf f))
    (hetag : getEtag env.sha1 tree (makeDiskPath env.cfg req.user req.path).diskPath = some r)
    (includeBody : Bool) :
    answer (handleGetOrHead env includeBody req) tree fds =
      if req.headersIn.ifNoneMatch = some r.1 then some ⟨304, corsHeaders, []⟩
      else some ⟨200, corsHeaders ++ headHeaders env
        (makeDiskPath env.cfg req.user req.path).diskPath (.leaf f) none r,
        if includeBody then f.content else []⟩ := by
  have hkind : req.file.isNone = (Kind.leaf f : Stat).isBranch := by
    cases hsome : req.file with
    | none => exact absurd hsome hfile
    | some name => rfl
  have start : getEtag env.sha1 (arrival tree fds).tree
      (makeDiskPath env.cfg req.user req.path).diskPath = some r := hetag
  obtain ⟨fds', hhead⟩ := serveFileHead_run hkind start none
  unfold answer handleGetOrHead
  have hstat' : stat (arrival tree fds).tree (makeDiskPath env.cfg req.user req.path).diskPath =
    .ok (.leaf f) := hstat
  simp only [read_bind, hstat', if_neg hfile]
  by_cases hmatch : req.headersIn.ifNoneMatch = some r.1
  · rw [if_pos hmatch] at hhead ⊢
    rw [bind_of_next (call_of_stop hhead)]
    rfl
  · rw [if_neg hmatch] at hhead ⊢
    rw [bind_of_next (call_of_next hhead)]
    cases includeBody with
    | false => rfl
    | true =>
      have hview : viewAt r.2 (makeDiskPath env.cfg req.user req.path).diskPath =
          some (.leaf f.content) := by
        rw [viewAt_congr (plain_getEtag hetag), viewAt_of_stat hstat]
        rfl
      let w : World := ⟨r.2, fds', corsHeaders ++ headHeaders env
        (makeDiskPath env.cfg req.user req.path).diskPath (.leaf f) none r, []⟩
      obtain ⟨w', hrun, hheaders, hbody⟩ := serveFile_run (w := w) hview
      have called : (call (serveFile (makeDiskPath env.cfg req.user req.path).diskPath) :
          Handler Nat) w = .next 200 w' := call_of_next hrun
      change replyOf ((call _ : Handler Nat) w) = _
      rw [called, replyOf, hheaders, hbody]
      rfl

theorem answer_call (handler : Handler Nat) (tree : Node) (fds : List Nat) :
    answer (call handler) tree fds = answer handler tree fds := by
  unfold answer call
  cases handler (arrival tree fds) <;> rfl

theorem answer_error (req : Request) {tree : Node} {e : Errno} (fds : List Nat)
    (hstat : stat tree (makeDiskPath env.cfg req.user req.path).diskPath = .error e)
    (includeBody : Bool) :
    answer (handleGetOrHead env includeBody req) tree fds = some ⟨statFailed e, corsHeaders, []⟩ := by
  have hstat' : stat (arrival tree fds).tree (makeDiskPath env.cfg req.user req.path).diskPath =
    .error e := hstat
  unfold answer handleGetOrHead
  simp only [read_bind, hstat']
  rfl

theorem answer_document_mismatch (req : Request) (hfile : req.file ≠ none) {tree : Node}
    {x : Xattrs} (fds : List Nat)
    (hstat : stat tree (makeDiskPath env.cfg req.user req.path).diskPath = .ok (.branch x))
    (includeBody : Bool) :
    answer (handleGetOrHead env includeBody req) tree fds = some ⟨404, corsHeaders, []⟩ := by
  have hstat' : stat (arrival tree fds).tree (makeDiskPath env.cfg req.user req.path).diskPath =
    .ok (.branch x) := hstat
  have hkind : req.file.isNone ≠ (Kind.branch x : Stat).isBranch := by
    cases hsome : req.file with
    | none => exact absurd hsome hfile
    | some name => simp [Kind.isBranch]
  have hhead := serveFileHead_mismatch env hkind
    (makeDiskPath env.cfg req.user req.path).diskPath none (arrival tree fds)
  unfold answer handleGetOrHead
  simp only [read_bind, hstat', if_neg hfile]
  rw [bind_of_next (call_of_stop hhead)]
  rfl

theorem answer_folder (req : Request) (hfile : req.file = none) {tree : Node} {statBuf : Stat}
    (fds : List Nat)
    (hstat : stat tree (makeDiskPath env.cfg req.user req.path).diskPath = .ok statBuf) :
    answer (handleGetOrHead env true req) tree fds =
      answer (serveDirectory env (makeDiskPath env.cfg req.user req.path).diskPath) tree fds := by
  have hstat' : stat (arrival tree fds).tree (makeDiskPath env.cfg req.user req.path).diskPath =
    .ok statBuf := hstat
  rw [← answer_call (serveDirectory env _)]
  unfold answer handleGetOrHead
  simp only [read_bind, hstat', if_pos hfile]
  rfl

theorem opendir_file {tree : Node} {path : Bytes} {f : FileData}
    (h : stat tree path = .ok (.leaf f)) : opendir tree path = .error .ENOTDIR := by
  obtain ⟨loc, hnamei, hlook⟩ := stat_eq_ok.1 h
  simp only [opendir, hnamei, get?_of_look_leaf hlook]

theorem opendir_directory {tree : Node} {path : Bytes} {x : Xattrs}
    (h : stat tree path = .ok (.branch x)) : ∃ names, opendir tree path = .ok names := by
  obtain ⟨loc, hnamei, hlook⟩ := stat_eq_ok.1 h
  obtain ⟨entries, hn⟩ := get?_of_look_branch hlook
  exact ⟨entries.map Prod.fst, by simp only [opendir, hnamei, hn]⟩

theorem answer_serveDirectory (env : Env) {tree : Node} {diskPath : Bytes} {x : Xattrs}
    (hstat : stat tree diskPath = .ok (.branch x)) (fds : List Nat) :
    (MissesEntry tree diskPath ∧ answer (serveDirectory env diskPath) tree fds = none) ∨
    ∃ names members etag, opendir tree diskPath = .ok names ∧
      List.Forall₂ (Describes env tree diskPath) names members ∧
      (getEtag env.sha1 tree diskPath).map Prod.fst = some etag ∧
      answer (serveDirectory env diskPath) tree fds = some ⟨200, corsHeaders ++
        [(str "Content-Type", str "application/json; charset=UTF-8"), (str "ETag", etag)],
        objectText members⟩ := by
  unfold answer
  rcases serveDirectory_run env diskPath (arrival tree fds) with
    ⟨misses, hcrash⟩ | ⟨e, hdir, -⟩ | ⟨names, members, etag, w', hdir, hall, hetag, hrun, hheaders, hbody, -⟩
  · refine Or.inl ⟨misses, ?_⟩
    cases hrun : serveDirectory env diskPath (arrival tree fds) with
    | next status w => simp [hrun, Outcome.Crashed] at hcrash
    | stop status w => simp [hrun, Outcome.Crashed] at hcrash
    | crash w => rfl
  · obtain ⟨names, hnames⟩ := opendir_directory hstat
    have refused : opendir tree diskPath = .error e := hdir
    rw [hnames] at refused
    cases refused
  · refine Or.inr ⟨names, members, etag, hdir, hall, hetag, ?_⟩
    rw [hrun, replyOf, hheaders, hbody]
    simp [arrival]

theorem answer_folder_head (req : Request) (hfile : req.file = none) {tree : Node} {x : Xattrs}
    {r : Bytes × Node} (fds : List Nat)
    (hstat : stat tree (makeDiskPath env.cfg req.user req.path).diskPath = .ok (.branch x))
    (hetag : getEtag env.sha1 tree (makeDiskPath env.cfg req.user req.path).diskPath = some r) :
    answer (handleGetOrHead env false req) tree fds =
      if req.headersIn.ifNoneMatch = some r.1 then some ⟨304, corsHeaders, []⟩
      else some ⟨200, corsHeaders ++ headHeaders env
        (makeDiskPath env.cfg req.user req.path).diskPath (.branch x)
        (some (str "application/json")) r, []⟩ := by
  have hstat' : stat (arrival tree fds).tree (makeDiskPath env.cfg req.user req.path).diskPath =
    .ok (.branch x) := hstat
  have hkind : req.file.isNone = (Kind.branch x : Stat).isBranch := by rw [hfile]; rfl
  have start : getEtag env.sha1 (arrival tree fds).tree
      (makeDiskPath env.cfg req.user req.path).diskPath = some r := hetag
  obtain ⟨fds', hhead⟩ := serveFileHead_run hkind start (some (str "application/json"))
  unfold answer handleGetOrHead
  simp only [read_bind, hstat', if_pos hfile, Bool.false_eq_true, if_false]
  by_cases hmatch : req.headersIn.ifNoneMatch = some r.1
  · rw [if_pos hmatch] at hhead ⊢
    rw [bind_of_next (call_of_stop hhead)]
    rfl
  · rw [if_neg hmatch] at hhead ⊢
    rw [bind_of_next (call_of_next hhead)]
    rfl

theorem answer_folder_mismatch (req : Request) (hfile : req.file = none) {tree : Node}
    {f : FileData} (fds : List Nat)
    (hstat : stat tree (makeDiskPath env.cfg req.user req.path).diskPath = .ok (.leaf f)) :
    answer (handleGetOrHead env false req) tree fds = some ⟨404, corsHeaders, []⟩ ∧
      answer (handleGetOrHead env true req) tree fds = some ⟨500, corsHeaders, []⟩ := by
  constructor
  · have hstat' : stat (arrival tree fds).tree (makeDiskPath env.cfg req.user req.path).diskPath =
      .ok (.leaf f) := hstat
    have hkind : req.file.isNone ≠ (Kind.leaf f : Stat).isBranch := by rw [hfile]; simp [Kind.isBranch]
    have hhead := serveFileHead_mismatch env hkind
      (makeDiskPath env.cfg req.user req.path).diskPath (some (str "application/json"))
      (arrival tree fds)
    unfold answer handleGetOrHead
    simp only [read_bind, hstat', if_pos hfile, Bool.false_eq_true, if_false]
    rw [bind_of_next (call_of_stop hhead)]
    rfl
  · rw [answer_folder req hfile fds hstat]
    have hdir : opendir (arrival tree fds).tree (makeDiskPath env.cfg req.user req.path).diskPath =
        .error .ENOTDIR := opendir_file hstat
    unfold answer serveDirectory
    simp only [attempt_bind, hdir]
    rfl

structure Agrees (head get : Reply) : Prop where
  status : head.status = get.status
  contentType : head.header (str "Content-Type") = get.header (str "Content-Type")
  etag : head.header (str "ETag") = get.header (str "ETag")
  length : ∀ n, head.header (str "Content-Length") = some n → n = decimal get.body.length

def HeadAgrees (env : Env) (req : Request) (tree : Node) (fds : List Nat) : Prop :=
  ∃ head get, answer (storageHandleHead env req) tree fds = some head ∧
    answer (storageHandleGet env req) tree fds = some get ∧ Agrees head get

theorem Agrees.same {reply : Reply} (h : reply.header (str "Content-Length") = none) :
    Agrees reply reply := ⟨rfl, rfl, rfl, fun n hn => by simp [h] at hn⟩

theorem agrees_document (env : Env) (diskPath : Bytes) (f : FileData) (r : Bytes × Node) :
    Agrees ⟨200, corsHeaders ++ headHeaders env diskPath (.leaf f) none r, []⟩
      ⟨200, corsHeaders ++ headHeaders env diskPath (.leaf f) none r, f.content⟩ := by
  refine ⟨rfl, rfl, rfl, fun n hn => ?_⟩
  have length : some (decimal f.content.length) = some n := hn
  exact (Option.some.inj length).symm

theorem headAgrees_of_file {env : Env} (hexp : env.cfg.experimental = true) {req : Request}
    (hfile : req.file ≠ none) (tree : Node) (fds : List Nat) : HeadAgrees env req tree fds := by
  unfold HeadAgrees storageHandleHead storageHandleGet
  rw [if_pos hexp, answer_call]
  cases hstat : stat tree (makeDiskPath env.cfg req.user req.path).diskPath with
  | error e => exact ⟨_, _, answer_error req fds hstat false, answer_error req fds hstat true, Agrees.same rfl⟩
  | ok statBuf =>
    cases statBuf with
    | branch x =>
      exact ⟨_, _, answer_document_mismatch req hfile fds hstat false,
        answer_document_mismatch req hfile fds hstat true, Agrees.same rfl⟩
    | leaf f =>
      obtain ⟨r, hetag⟩ := getEtag_ne_none env.sha1 hstat
      have head := answer_document req hfile fds hstat hetag false
      have get := answer_document req hfile fds hstat hetag true
      by_cases hmatch : req.headersIn.ifNoneMatch = some r.1
      · rw [if_pos hmatch] at head get
        exact ⟨_, _, head, get, Agrees.same rfl⟩
      · rw [if_neg hmatch] at head get
        exact ⟨_, _, head, get, agrees_document env _ f r⟩

theorem not_agrees_folder {r : Bytes × Node} {diskPath etag body : Bytes} {x : Xattrs} :
    ¬ Agrees ⟨200, corsHeaders ++ headHeaders env diskPath (.branch x)
        (some (str "application/json")) r, []⟩
      ⟨200, corsHeaders ++ [(str "Content-Type", str "application/json; charset=UTF-8"),
        (str "ETag", etag)], body⟩ := by
  intro agrees
  have types : some (str "application/json") = some (str "application/json; charset=UTF-8") :=
    agrees.contentType
  exact absurd types (by decide)

theorem not_headAgrees_folder {env : Env} (hexp : env.cfg.experimental = true) {req : Request}
    (hfile : req.file = none) {tree : Node} {statBuf : Stat} (fds : List Nat)
    (hstat : stat tree (makeDiskPath env.cfg req.user req.path).diskPath = .ok statBuf) :
    ¬ HeadAgrees env req tree fds := by
  unfold HeadAgrees storageHandleHead storageHandleGet
  rw [if_pos hexp, answer_call]
  intro h
  obtain ⟨head, get, hhead, hget, agrees⟩ := h
  cases statBuf with
  | leaf f =>
    have both := answer_folder_mismatch req hfile fds hstat
    rw [both.1, Option.some_inj] at hhead
    rw [both.2, Option.some_inj] at hget
    subst hhead hget
    exact absurd agrees.status (by simp)
  | branch x =>
    obtain ⟨r, hetag⟩ := getEtag_ne_none env.sha1 hstat
    rw [answer_folder_head req hfile fds hstat hetag] at hhead
    rw [answer_folder req hfile fds hstat] at hget
    rcases answer_serveDirectory env hstat fds with
      ⟨-, hcrash⟩ | ⟨names, members, etag, -, -, -, hrun⟩
    · simp [hcrash] at hget
    · rw [hrun, Option.some_inj] at hget
      by_cases hmatch : req.headersIn.ifNoneMatch = some r.1
      · rw [if_pos hmatch, Option.some_inj] at hhead
        subst hhead hget
        exact absurd agrees.status (by simp)
      · rw [if_neg hmatch, Option.some_inj] at hhead
        subst hhead hget
        exact not_agrees_folder agrees

/-- HEAD agrees with GET for documents and for what is not there, and for no folder. -/
theorem headAgrees_iff {env : Env} (hexp : env.cfg.experimental = true) (req : Request)
    (tree : Node) (fds : List Nat) :
    HeadAgrees env req tree fds ↔
      (req.file = none → viewAt tree (makeDiskPath env.cfg req.user req.path).diskPath = none) := by
  by_cases hfile : req.file = none
  · cases hstat : stat tree (makeDiskPath env.cfg req.user req.path).diskPath with
    | ok statBuf =>
      refine iff_of_false (not_headAgrees_folder hexp hfile fds hstat) fun absent => ?_
      simp [viewAt_of_stat hstat] at absent
      exact absent hfile
    | error e =>
      refine iff_of_true ?_ fun _ => viewAt_eq_none.2 ⟨e, hstat⟩
      unfold HeadAgrees storageHandleHead storageHandleGet
      rw [if_pos hexp, answer_call]
      exact ⟨_, _, answer_error req fds hstat false, answer_error req fds hstat true, Agrees.same rfl⟩
  · exact iff_of_true (headAgrees_of_file hexp hfile tree fds) fun hnone => absurd hnone hfile

def experimentalEnv : Env := { sampleEnv with cfg := { defaultConfig with experimental := true } }

def sampleRequest (method : Method) (path : Bytes) (file ifNoneMatch : Option Bytes) : Request where
  method := method
  user := str "me"
  path := path
  file := file
  headersIn := ⟨some (str "Bearer t"), none, ifNoneMatch, none⟩
  bufferIn := []

def sampleTree : Node :=
  homeOf (str "me") [(str "storage", folder [(str "a", folder
    [(str "b", .leaf ⟨str "hello", noXattrs⟩)])])]

theorem headAgrees_document :
    HeadAgrees experimentalEnv (sampleRequest .HEAD (str "/a/b") (some (str "b")) none) sampleTree
      [0, 1, 2] :=
  (headAgrees_iff rfl _ _ _).2 (by decide)

theorem stat_sample_folder :
    stat sampleTree (makeDiskPath defaultConfig (str "me") (str "/a/")).diskPath =
      .ok (.branch noXattrs) := by decide +kernel

theorem folder_head_differs :
    ¬ HeadAgrees experimentalEnv (sampleRequest .HEAD (str "/a/") none none) sampleTree
      [0, 1, 2] :=
  not_headAgrees_folder rfl rfl [0, 1, 2] stat_sample_folder

def withNoneMatch (req : Request) (ifNoneMatch : Option Bytes) : Request :=
  { req with headersIn := { req.headersIn with ifNoneMatch := ifNoneMatch } }

structure ConditionalGet (env : Env) (req : Request) (tree : Node) (fds : List Nat) (e : Bytes) :
    Prop where
  notModified : (∃ reply, answer (storageHandleGet env (withNoneMatch req (some e))) tree fds =
      some reply ∧ reply.status = 304 ∧ reply.body = []) ↔
    ∃ plain, answer (storageHandleGet env (withNoneMatch req none)) tree fds = some plain ∧
      plain.header (str "ETag") = some e
  otherwise : (∀ plain, answer (storageHandleGet env (withNoneMatch req none)) tree fds =
      some plain → plain.header (str "ETag") ≠ some e) →
    answer (storageHandleGet env (withNoneMatch req (some e))) tree fds =
      answer (storageHandleGet env (withNoneMatch req none)) tree fds

theorem conditionalGet_of_same {env : Env} {req : Request} {tree : Node} {fds : List Nat}
    {e : Bytes} (same : answer (storageHandleGet env (withNoneMatch req (some e))) tree fds =
      answer (storageHandleGet env (withNoneMatch req none)) tree fds)
    (hstatus : ∀ reply, answer (storageHandleGet env (withNoneMatch req none)) tree fds =
      some reply → reply.status ≠ 304) :
    ConditionalGet env req tree fds e ↔
      ∀ plain, answer (storageHandleGet env (withNoneMatch req none)) tree fds = some plain →
        plain.header (str "ETag") ≠ some e := by
  have never : ¬ ∃ reply, answer (storageHandleGet env (withNoneMatch req (some e))) tree fds =
      some reply ∧ reply.status = 304 ∧ reply.body = [] := by
    intro h
    obtain ⟨reply, hreply, h304, -⟩ := h
    exact hstatus reply (same ▸ hreply) h304
  constructor
  · intro h plain hplain hetag
    exact never (h.notModified.2 ⟨plain, hplain, hetag⟩)
  · intro h
    refine ⟨iff_of_false never ?_, fun _ => same⟩
    intro found
    obtain ⟨plain, hplain, hetag⟩ := found
    exact h plain hplain hetag

theorem conditionalGet_of_fixed {env : Env} {req : Request} {tree : Node} {fds : List Nat}
    {status : Nat} (hstatus : status ≠ 304)
    (h : ∀ ifNoneMatch, answer (storageHandleGet env (withNoneMatch req ifNoneMatch)) tree fds =
      some ⟨status, corsHeaders, []⟩) (e : Bytes) : ConditionalGet env req tree fds e := by
  refine (conditionalGet_of_same ((h (some e)).trans (h none).symm) ?_).2 ?_
  · intro reply hreply
    rw [h none, Option.some_inj] at hreply
    rw [← hreply]
    exact hstatus
  · intro plain hplain hetag
    rw [h none, Option.some_inj] at hplain
    rw [← hplain] at hetag
    cases hetag

theorem conditionalGet_document (env : Env) {req : Request} (hfile : req.file ≠ none)
    (tree : Node) (fds : List Nat) (e : Bytes) : ConditionalGet env req tree fds e := by
  cases hstat : stat tree (makeDiskPath env.cfg req.user req.path).diskPath with
  | error err =>
    have fixed : ∀ ifNoneMatch, answer (storageHandleGet env (withNoneMatch req ifNoneMatch)) tree
        fds = some ⟨statFailed err, corsHeaders, []⟩ := fun m => answer_error (withNoneMatch req m) fds hstat true
    refine conditionalGet_of_fixed ?_ fixed e
    cases err <;> simp [statFailed]
  | ok statBuf =>
    cases statBuf with
    | branch x =>
      have fixed : ∀ ifNoneMatch, answer (storageHandleGet env (withNoneMatch req ifNoneMatch))
          tree fds = some ⟨404, corsHeaders, []⟩ :=
        fun m => answer_document_mismatch (withNoneMatch req m) hfile fds hstat true
      exact conditionalGet_of_fixed (by simp) fixed e
    | leaf f =>
      obtain ⟨r, hetag⟩ := getEtag_ne_none env.sha1 hstat
      let sent : Reply := ⟨200, corsHeaders ++ headHeaders env
        (makeDiskPath env.cfg req.user req.path).diskPath (.leaf f) none r, f.content⟩
      have answers : ∀ ifNoneMatch, answer (storageHandleGet env (withNoneMatch req ifNoneMatch))
          tree fds = if ifNoneMatch = some r.1 then some ⟨304, corsHeaders, []⟩ else some sent :=
        fun m => answer_document (withNoneMatch req m) hfile fds hstat hetag true
      have plain : answer (storageHandleGet env (withNoneMatch req none)) tree fds = some sent :=
        answers none
      have hsent : sent.header (str "ETag") = some r.1 := rfl
      by_cases he : e = r.1
      · have conditional := answers (some e)
        rw [if_pos (congrArg some he)] at conditional
        refine ⟨iff_of_true ⟨_, conditional, rfl, rfl⟩ ⟨sent, plain, by rw [hsent, he]⟩, fun h => ?_⟩
        exact absurd (by rw [hsent, he]) (h sent plain)
      · have conditional := answers (some e)
        rw [if_neg fun same => he (Option.some.inj same)] at conditional
        refine ⟨iff_of_false ?_ ?_, fun _ => conditional.trans plain.symm⟩
        · intro h
          obtain ⟨reply, hreply, h304, -⟩ := h
          rw [conditional, Option.some_inj] at hreply
          rw [← hreply] at h304
          exact absurd h304 (by simp [sent])
        · intro h
          obtain ⟨reply, hreply, hheader⟩ := h
          rw [plain, Option.some_inj] at hreply
          rw [← hreply, hsent, Option.some_inj] at hheader
          exact he hheader.symm

theorem conditionalGet_folder {env : Env} {req : Request} (hfile : req.file = none)
    {tree : Node} {x : Xattrs} (fds : List Nat) (e : Bytes)
    (hstat : stat tree (makeDiskPath env.cfg req.user req.path).diskPath = .ok (.branch x)) :
    ConditionalGet env req tree fds e ↔
      ((getEtag env.sha1 tree
          (makeDiskPath env.cfg req.user req.path).diskPath).map Prod.fst = some e →
        MissesEntry tree (makeDiskPath env.cfg req.user req.path).diskPath) := by
  have answers : ∀ ifNoneMatch, answer (storageHandleGet env (withNoneMatch req ifNoneMatch)) tree
      fds = answer (serveDirectory env (makeDiskPath env.cfg req.user req.path).diskPath) tree fds :=
    fun m => answer_folder (withNoneMatch req m) hfile fds hstat
  have same := (answers (some e)).trans (answers none).symm
  have plain := answers none
  rcases answer_serveDirectory env hstat fds with
    ⟨misses, hcrash⟩ | ⟨names, members, etag, hdir, hall, hetag, hrun⟩
  · rw [hcrash] at plain
    refine iff_of_true ((conditionalGet_of_same same ?_).2 ?_) fun _ => misses
    · simp [plain]
    · simp [plain]
  · rw [hrun] at plain
    have found : ¬ MissesEntry tree (makeDiskPath env.cfg req.user req.path).diskPath := by
      intro misses
      obtain ⟨names', hnames', name, hname, hnone⟩ := misses
      rw [hdir, Except.ok.injEq] at hnames'
      exact viewAt_of_forall₂ hall (hnames' ▸ hname) hnone
    have hstatus : ∀ reply, answer (storageHandleGet env (withNoneMatch req none)) tree fds =
        some reply → reply.status ≠ 304 := by
      intro reply hreply
      rw [plain, Option.some_inj] at hreply
      rw [← hreply]
      simp
    rw [conditionalGet_of_same same hstatus, plain, hetag]
    constructor
    · intro h he
      exact absurd he (h _ rfl)
    · intro h reply hreply hheader
      rw [Option.some_inj] at hreply
      rw [← hreply] at hheader
      exact found (h hheader)

/-- A conditional GET is answered as it should be, unless it is for a folder whose listing
is sent and has just that version. -/
theorem conditionalGet_iff (env : Env) (req : Request) (tree : Node) (fds : List Nat) (e : Bytes) :
    ConditionalGet env req tree fds e ↔
      (req.file = none → viewAt tree (makeDiskPath env.cfg req.user req.path).diskPath =
          some (.branch ()) →
        (getEtag env.sha1 tree
          (makeDiskPath env.cfg req.user req.path).diskPath).map Prod.fst = some e →
          MissesEntry tree (makeDiskPath env.cfg req.user req.path).diskPath) := by
  by_cases hfile : req.file = none
  · cases hstat : stat tree (makeDiskPath env.cfg req.user req.path).diskPath with
    | error err =>
      have fixed : ∀ ifNoneMatch, answer (storageHandleGet env (withNoneMatch req ifNoneMatch))
          tree fds = some ⟨statFailed err, corsHeaders, []⟩ := fun m => answer_error (withNoneMatch req m) fds hstat true
      have absent := viewAt_eq_none.2 ⟨err, hstat⟩
      refine iff_of_true (conditionalGet_of_fixed ?_ fixed e) fun _ here => ?_
      · cases err <;> simp [statFailed]
      · simp [absent] at here
    | ok statBuf =>
      rw [viewAt_of_stat hstat]
      cases statBuf with
      | leaf f =>
        have fixed : ∀ ifNoneMatch, answer (storageHandleGet env (withNoneMatch req ifNoneMatch))
            tree fds = some ⟨500, corsHeaders, []⟩ :=
          fun m => (answer_folder_mismatch (withNoneMatch req m) hfile fds hstat).2
        refine iff_of_true (conditionalGet_of_fixed (by simp) fixed e) fun _ here => ?_
        simp [plainKind] at here
      | branch x =>
        rw [conditionalGet_folder hfile fds e hstat]
        simp [hfile, plainKind]
  · exact iff_of_true (conditionalGet_document env hfile tree fds e) fun hnone => absurd hnone hfile

def sampleVersion : Bytes := str "da39a3ee5e6b4b0d3255bfef95601890afd80709"

theorem folder_not_conditional :
    ¬ ConditionalGet sampleEnv (sampleRequest .GET (str "/a/") none none) sampleTree [0, 1, 2]
      sampleVersion := by
  rw [conditionalGet_folder rfl [0, 1, 2] sampleVersion stat_sample_folder]
  intro h
  obtain ⟨names, hnames, name, hname, hnone⟩ := h (by decide +kernel)
  have listed : opendir sampleTree (makeDiskPath defaultConfig (str "me") (str "/a/")).diskPath =
      .ok [str "b"] := by decide +kernel
  have hnames' : Except.ok [str "b"] = Except.ok names := listed.symm.trans hnames
  rw [← Except.ok.inj hnames', List.mem_singleton] at hname
  rw [hname] at hnone
  exact absurd hnone (by decide +kernel)

end RsServe.Responses
