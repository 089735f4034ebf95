import RsServe.Authorize
import RsServe.StorageRules

/-! dispatch.c: which requests reach a storage handler, and what is answered. -/

namespace RsServe.Dispatch
open CString Kernel Attributes DiskPath EarlyExit Storage StorageRules Users Authorize AuthRecord

def corsHeaders : List (Bytes × Bytes) :=
  [(str "Access-Control-Allow-Origin", str "*"),
    (str "Access-Control-Allow-Headers",
      str "Authorization, Content-Type, If-Match, If-None-Match, Origin"),
    (str "Access-Control-Allow-Methods", str "HEAD, GET, PUT, DELETE"),
    (str "Access-Control-Expose-Headers", str "Content-Type, Content-Length, ETag")]

/-- The request with the headers of add_cors_headers. -/
def arrival (tree : Node) (fds : List Nat) : World := ⟨tree, fds, corsHeaders, []⟩

variable (env : Env) (lookup : Bytes → Bytes → Option RsAuthorization)

def callHandler (written : Nat) (req : Request) : Handler Nat :=
  match req.method with
  | .OPTIONS => pure 204
  | .GET => call (storageHandleGet env req)
  | .HEAD => call (storageHandleHead env req)
  | .PUT => call (storageHandlePut env written req)
  | .DELETE => call (storageHandleDelete env req)
  | _ => pure 405

/-- The value of req->status after the loop that runs once, which `break` leaves early. -/
def requestStatus (written : Nat) (req : Request) : Handler Nat :=
  if verifyUser env.getpwnam req.user ≠ 0 then stop (verifyUser env.getpwnam req.user)
  else if req.method ≠ .OPTIONS ∧ authorizeRequest lookup req = -1 then stop 401
  else if req.method ≠ .OPTIONS ∧ authorizeRequest lookup req = -2 then stop 500
  else callHandler env written req

/-- The statuses given to evhtp_send_reply, and the request and the tree at the end. -/
def dispatchStorage (written : Nat) (req : Request) (tree : Node) (fds : List Nat) :
    List Nat × World :=
  match (call (requestStatus env lookup written req) : Prog World Empty Nat) (arrival tree fds) with
  | .next status w => (if status ≠ 0 then [status] else [], w)
  | .crash w => ([], w)

variable {env lookup}

def LetThrough (env : Env) (lookup : Bytes → Bytes → Option RsAuthorization) (req : Request) :
    Prop :=
  verifyUser env.getpwnam req.user = 0 ∧ authorizeRequest lookup req = 0

def AnyScope (lookup : Bytes → Bytes → Option RsAuthorization) (req : Request) : Prop :=
  ∃ scope ∈ grantedScopes lookup req, coversRaw scope.name req.path

def WriteScope (lookup : Bytes → Bytes → Option RsAuthorization) (req : Request) : Prop :=
  ∃ scope ∈ grantedScopes lookup req, coversRaw scope.name req.path ∧ scope.write ≠ 0

def IsDocument (env : Env) (req : Request) (tree : Node) (body : Bytes) : Prop :=
  req.file ≠ none ∧
    viewAt tree (makeDiskPath env.cfg req.user req.path).diskPath = some (.leaf body)

/-- What the gate promises of a request and of what became of it. A body that is not the
document asked for is a listing. -/
structure Gatekept (env : Env) (lookup : Bytes → Bytes → Option RsAuthorization) (req : Request)
    (tree : Node) (served : List Nat × World) : Prop where
  replied : ∃ status, status ≠ 0 ∧ served.1 = [status]
  changed : plain served.2.tree ≠ plain tree →
    (req.method = .PUT ∨ req.method = .DELETE) ∧ verifyUser env.getpwnam req.user = 0 ∧
      WriteScope lookup req
  listed : served.2.bufferOut ≠ [] → ¬ IsDocument env req tree served.2.bufferOut →
    AnyScope lookup req

theorem writeScope_of_zero {req : Request} (h : authorizeRequest lookup req = 0)
    (hread : ¬ req.method.isRead) : WriteScope lookup req := by
  rcases (authorizeRequest_eq_zero lookup).1 h with ⟨scope, hscope, hmatch⟩ | hpublic
  · obtain ⟨hcovers, hpermits⟩ := matchScope_eq_zero.1 hmatch
    exact ⟨scope, hscope, hcovers, hpermits.resolve_right hread⟩
  · exact absurd (publicRead_eq_true.1 hpublic).2.1 hread

theorem anyScope_of_zero {req : Request} (h : authorizeRequest lookup req = 0)
    (hfile : req.file = none) : AnyScope lookup req := by
  rcases (authorizeRequest_eq_zero lookup).1 h with ⟨scope, hscope, hmatch⟩ | hpublic
  · exact ⟨scope, hscope, (matchScope_eq_zero.1 hmatch).1⟩
  · have present := (publicRead_eq_true.1 hpublic).2.2
    simp [hfile] at present

theorem WriteScope.any {req : Request} (h : WriteScope lookup req) : AnyScope lookup req := by
  obtain ⟨scope, hscope, hcovers, -⟩ := h
  exact ⟨scope, hscope, hcovers⟩

theorem requestStatus_eq (env : Env) (lookup : Bytes → Bytes → Option RsAuthorization)
    (written : Nat) (req : Request) :
    requestStatus env lookup written req =
      if verifyUser env.getpwnam req.user ≠ 0 then stop (verifyUser env.getpwnam req.user)
      else if req.method ≠ .OPTIONS ∧ authorizeRequest lookup req ≠ 0 then stop 401
      else callHandler env written req := by
  have answers : authorizeRequest lookup req = 0 ∨ authorizeRequest lookup req = -1 := by
    unfold authorizeRequest
    by_cases hscope : (grantedScopes lookup req).any (matchScope · req = 0)
    · exact Or.inl (if_pos hscope)
    · rw [if_neg hscope]
      by_cases hpublic : publicRead req
      · exact Or.inl (if_pos hpublic)
      · exact Or.inr (if_neg hpublic)
  unfold requestStatus
  rcases answers with h | h
  · simp [h]
  · simp [h]

theorem readLoop_eq (bufferOut rest : Bytes) : readLoop bufferOut rest = bufferOut ++ rest := by
  fun_induction readLoop bufferOut rest with
  | case1 => simp
  | case2 bufferOut rest h ih => rw [ih, List.append_assoc, List.take_append_drop]

abbrev Untouched (tree : Node) : World → Prop :=
  Frame (fun tree' => plain tree' = plain tree) fun _ body => body = []

def ReadsOnly (env : Env) (req : Request) (tree : Node) (w : World) : Prop :=
  plain w.tree = plain tree ∧
    (req.file ≠ none → w.bufferOut ≠ [] → IsDocument env req tree w.bufferOut)

theorem Untouched.readsOnly {req : Request} {tree : Node} {w : World} (h : Untouched tree w) :
    ReadsOnly env req tree w := ⟨h.1, fun _ sent => absurd h.2 sent⟩

theorem triple_serveFile_document {req : Request} (hfile : req.file ≠ none) (tree : Node)
    {C : World → Prop} :
    Triple (Untouched tree) (serveFile (makeDiskPath env.cfg req.user req.path).diskPath)
      (fun status w => status ≠ 0 ∧ ReadsOnly env req tree w)
      (fun status w => status ≠ 0 ∧ ReadsOnly env req tree w) C := by
  refine triple_attempt_bind (fun file => ?_) fun w e hw _ => ⟨by simp, hw.1, fun _ sent => ?_⟩
  · let Opened := fun w : World => Untouched tree w ∧
      openRead w.tree (makeDiskPath env.cfg req.user req.path).diskPath = .ok file
    have opened : Triple Opened openFd (fun _ => Opened)
        (fun status w => status ≠ 0 ∧ ReadsOnly env req tree w) C := fun w hw => hw
    refine triple_bind opened fun fd => ?_
    refine triple_bind (triple_update fun w hw => ?_) fun _ =>
      triple_seq (triple_update fun w hw => hw) fun _ => triple_pure fun w hw => ⟨by simp, hw⟩
    obtain ⟨⟨hplain, hempty⟩, hopen⟩ := hw
    have hloc : namei w.tree (makeDiskPath env.cfg req.user req.path).diskPath = .ok file := hopen
    refine ⟨hplain, fun _ sent => ⟨hfile, ?_⟩⟩
    rw [← viewAt_congr hplain, viewAt_eq, hloc]
    simp only [hempty, readLoop_eq, List.nil_append, contentAt] at sent ⊢
    cases hlook : w.tree.look file with
    | none => simp [hlook] at sent
    | some kind =>
      cases kind with
      | branch x => simp [hlook] at sent
      | leaf f => simp [Except.toOption, plain, hlook, plainKind]
  · exact absurd hw.2 sent

theorem triple_handleGetOrHead_readsOnly (includeBody : Bool) (req : Request) (tree : Node) :
    Triple (Untouched tree) (handleGetOrHead env includeBody req)
      (fun status w => status ≠ 0 ∧ ReadsOnly env req tree w)
      (fun status w => status ≠ 0 ∧ ReadsOnly env req tree w) fun _ => True := by
  have hI := stampable_plain env (plain tree)
  by_cases hfile : req.file = none
  · refine (triple_handleGetOrHead hI includeBody req).mono
      (fun w hw => ⟨hw.1, trivial⟩) (fun status w h => ?_) (fun status w h => ?_)
      fun _ _ => trivial
    · exact ⟨h.1, h.2.1, fun hsome => absurd hfile hsome⟩
    · exact ⟨h.1, h.2.1, fun hsome => absurd hfile hsome⟩
  · refine triple_seq (triple_read fun w hw => hw) fun result => ?_
    cases result with
    | error e =>
      exact triple_stop fun w hw => ⟨statFailed_ne_zero e, Untouched.readsOnly hw⟩
    | ok statBuf =>
      refine triple_ite (fun hnone => absurd hnone hfile) fun _ => ?_
      refine triple_seq (triple_call (triple_serveFileHead hI (fun _ _ _ h => h) req _ statBuf _))
        fun status => ?_
      refine triple_ite (fun h => triple_pure fun w hw => ⟨h, Untouched.readsOnly hw⟩) fun _ => ?_
      refine triple_ite (fun _ => triple_call (triple_serveFile_document hfile tree)) fun _ => ?_
      exact triple_pure fun w hw => ⟨by simp, Untouched.readsOnly hw⟩

def Kept (env : Env) (lookup : Bytes → Bytes → Option RsAuthorization) (req : Request)
    (tree : Node) (status : Nat) (w : World) : Prop :=
  status ≠ 0 ∧
    (plain w.tree ≠ plain tree →
      (req.method = .PUT ∨ req.method = .DELETE) ∧ verifyUser env.getpwnam req.user = 0 ∧
        WriteScope lookup req) ∧
    (w.bufferOut ≠ [] → ¬ IsDocument env req tree w.bufferOut → AnyScope lookup req)

theorem Untouched.kept {req : Request} {tree : Node} {w : World} (h : Untouched tree w)
    {status : Nat} (hstatus : status ≠ 0) : Kept env lookup req tree status w :=
  ⟨hstatus, fun changed => absurd h.1 changed, fun sent => absurd h.2 sent⟩

theorem ReadsOnly.kept {req : Request} {tree : Node} {w : World} (h : ReadsOnly env req tree w)
    (hauth : authorizeRequest lookup req = 0) {status : Nat} (hstatus : status ≠ 0) :
    Kept env lookup req tree status w := by
  refine ⟨hstatus, fun changed => absurd h.1 changed, fun sent other => ?_⟩
  by_cases hfile : req.file = none
  · exact anyScope_of_zero hauth hfile
  · exact absurd (h.2 hfile sent) other

theorem kept_of_write {req : Request} (hlet : LetThrough env lookup req)
    (hmethod : req.method = .PUT ∨ req.method = .DELETE) (tree : Node) {status : Nat}
    (hstatus : status ≠ 0) (w : World) : Kept env lookup req tree status w := by
  have hwrite : WriteScope lookup req := by
    refine writeScope_of_zero hlet.2 ?_
    rcases hmethod with h | h
    · simp [Method.isRead, h]
    · simp [Method.isRead, h]
  exact ⟨hstatus, fun _ => ⟨hmethod, hlet.1, hwrite⟩, fun _ _ => hwrite.any⟩

theorem triple_callHandler {req : Request} (hlet : LetThrough env lookup req ∨ req.method = .OPTIONS)
    (written : Nat) (tree : Node) :
    Triple (Untouched tree) (callHandler env written req) (Kept env lookup req tree)
      (Kept env lookup req tree) fun _ => True := by
  have other : ∀ status, status ≠ 0 → Triple (Untouched tree) (pure status : Handler Nat)
      (Kept env lookup req tree) (Kept env lookup req tree) fun _ => True :=
    fun status hstatus => triple_pure fun w hw => hw.kept hstatus
  have through : req.method ≠ .OPTIONS → LetThrough env lookup req :=
    fun hmethod => hlet.resolve_right hmethod
  have readOnly : ∀ includeBody, req.method ≠ .OPTIONS →
      Triple (Untouched tree) (handleGetOrHead env includeBody req) (Kept env lookup req tree)
        (Kept env lookup req tree) fun _ => True := by
    intro includeBody hmethod
    exact (triple_handleGetOrHead_readsOnly includeBody req tree).mono (fun _ h => h)
      (fun _ _ h => h.2.kept (through hmethod).2 h.1) (fun _ _ h => h.2.kept (through hmethod).2 h.1)
      fun _ h => h
  unfold callHandler
  cases hmethod : req.method with
  | OPTIONS => exact other 204 (by simp)
  | GET => exact triple_call (readOnly true (by simp [hmethod]))
  | HEAD =>
    refine triple_call (triple_ite (fun _ => triple_call (readOnly false (by simp [hmethod])))
      fun _ => ?_)
    exact other 405 (by simp)
  | PUT =>
    have written' : Triple (OnTree fun _ => True) (storageHandlePut env written req) _ _ _ :=
      triple_storageHandlePut ((keptByCalls_true env (req.bufferIn.take written)).putTo _)
    have kept : ∀ status, status ≠ 0 → ∀ w, Kept env lookup req tree status w :=
      fun _ => kept_of_write (through (by simp [hmethod])) (Or.inl hmethod) tree
    exact triple_call (written'.mono (fun _ _ => ⟨trivial, trivial⟩)
      (fun status w h => kept status h.answered.1 w)
      (fun status w h => kept status h.answered.1 w)
      fun _ _ => trivial)
  | DELETE =>
    have deleted := triple_storageHandleDelete req ((keptByCalls_true env []).deleteOf _)
    have kept : ∀ status, status ≠ 0 → ∀ w, Kept env lookup req tree status w :=
      fun _ => kept_of_write (through (by simp [hmethod])) (Or.inr hmethod) tree
    exact triple_call (deleted.mono (fun _ _ => ⟨trivial, trivial⟩)
      (fun status w h => kept status h.answered.1 w)
      (fun status w h => kept status h.answered.1 w)
      fun _ _ => trivial)
  | _ => exact other 405 (by simp)

theorem triple_requestStatus (env : Env) (lookup : Bytes → Bytes → Option RsAuthorization)
    (written : Nat) (req : Request) (tree : Node) :
    Triple (Untouched tree) (requestStatus env lookup written req) (Kept env lookup req tree)
      (Kept env lookup req tree) fun _ => True := by
  rw [requestStatus_eq]
  refine triple_ite (fun h => triple_stop fun w hw => hw.kept h) fun hverify => ?_
  refine triple_ite (fun _ => triple_stop fun w hw => hw.kept (by simp)) fun hauth => ?_
  refine triple_callHandler ?_ written tree
  by_cases hmethod : req.method = .OPTIONS
  · exact Or.inr hmethod
  · exact Or.inl ⟨by simpa using hverify, by simpa [hmethod] using hauth⟩

theorem gatekept_iff_not_crashed (written : Nat) (req : Request) (tree : Node) (fds : List Nat) :
    Gatekept env lookup req tree (dispatchStorage env lookup written req tree fds) ↔
      ¬ (requestStatus env lookup written req (arrival tree fds)).Crashed := by
  have run := triple_requestStatus env lookup written req tree (arrival tree fds) ⟨rfl, rfl⟩
  unfold dispatchStorage call
  cases h : requestStatus env lookup written req (arrival tree fds) with
  | next status w =>
    rw [h] at run
    simp only [if_pos run.1]
    exact iff_of_true ⟨⟨status, run.1, rfl⟩, run.2.1, run.2.2⟩ id
  | stop status w =>
    rw [h] at run
    simp only [if_pos run.1]
    exact iff_of_true ⟨⟨status, run.1, rfl⟩, run.2.1, run.2.2⟩ id
  | crash w =>
    refine iff_of_false (fun kept => ?_) fun not => not trivial
    obtain ⟨status, -, hreply⟩ := kept.replied
    simp at hreply

def NoMediaType (req : Request) : Prop :=
  ∃ contentType, req.headersIn.contentType = some contentType ∧ ∀ c ∈ contentType, c = semicolon

def StoresNoType (env : Env) (req : Request) (tree : Node) (fds : List Nat) : Prop :=
  req.method = .PUT ∧ req.file ≠ none ∧
    (∃ opened w, openTarget env req (makeDiskPath env.cfg req.user req.path) (arrival tree fds) =
      .next opened w) ∧ NoMediaType req

/-- The listing is of a directory whose disk path lacks the last slash, so that a name
behind it is another file's path. -/
def ListsMissing (env : Env) (req : Request) (tree : Node) : Prop :=
  req.method = .GET ∧ req.file = none ∧
    MissesEntry tree (makeDiskPath env.cfg req.user req.path).diskPath

theorem mediaType_getD_eq_none {req : Request} :
    mediaType (req.headersIn.contentType.getD defaultContentType) = none ↔ NoMediaType req := by
  rw [mediaType_eq_none]
  unfold NoMediaType
  cases req.headersIn.contentType with
  | some contentType => simp
  | none =>
    refine iff_of_false (fun all => ?_) (by simp)
    have first := all 97 (by decide)
    exact absurd first (by decide)

theorem callHandler_crashed_iff {req : Request} (hlet : LetThrough env lookup req)
    (written : Nat) (tree : Node) (fds : List Nat) :
    (callHandler env written req (arrival tree fds)).Crashed ↔
      StoresNoType env req tree fds ∨ ListsMissing env req tree := by
  obtain ⟨pw, hfound⟩ := userGetEntry_of_verified env.getpwnam hlet.1
  unfold callHandler StoresNoType ListsMissing
  cases hmethod : req.method with
  | GET =>
    simp only [crashed_call_iff, storageHandleGet, handleGetOrHead_crashed_iff, arrival]
    simp
  | PUT =>
    simp only [crashed_call_iff, storageHandlePut_crashed_iff hfound, mediaType_getD_eq_none]
    simp
  | HEAD =>
    simp only [crashed_call_iff, storageHandleHead]
    by_cases hexperimental : env.cfg.experimental
    · simp [hexperimental, crashed_call_iff, handleGetOrHead_crashed_iff]
    · simp [hexperimental, Outcome.Crashed]
  | DELETE =>
    have safe := not_crashed_of_safe (safe_storageHandleDelete env req) (arrival tree fds)
    simp [crashed_call_iff, safe]
  | OPTIONS => simp [Outcome.Crashed]
  | POST => simp [Outcome.Crashed]
  | MKCOL => simp [Outcome.Crashed]
  | COPY => simp [Outcome.Crashed]
  | MOVE => simp [Outcome.Crashed]
  | PROPFIND => simp [Outcome.Crashed]
  | PROPPATCH => simp [Outcome.Crashed]
  | LOCK => simp [Outcome.Crashed]
  | UNLOCK => simp [Outcome.Crashed]
  | TRACE => simp [Outcome.Crashed]
  | CONNECT => simp [Outcome.Crashed]
  | PATCH => simp [Outcome.Crashed]

theorem requestStatus_crashed_iff (written : Nat) (req : Request) (tree : Node)
    (fds : List Nat) :
    (requestStatus env lookup written req (arrival tree fds)).Crashed ↔
      LetThrough env lookup req ∧ (StoresNoType env req tree fds ∨ ListsMissing env req tree) := by
  rw [requestStatus_eq]
  by_cases hverify : verifyUser env.getpwnam req.user = 0
  · by_cases hauth : authorizeRequest lookup req = 0
    · have hlet : LetThrough env lookup req := ⟨hverify, hauth⟩
      simp only [hverify, hauth, ne_eq, not_true_eq_false, and_false, if_false]
      rw [callHandler_crashed_iff hlet]
      exact ⟨fun crashed => ⟨hlet, crashed⟩, And.right⟩
    · have barred : ¬ LetThrough env lookup req := fun h => hauth h.2
      by_cases hoptions : req.method = .OPTIONS
      · simp [hverify, hoptions, callHandler, barred, Outcome.Crashed]
      · simp [hverify, hauth, hoptions, barred, Outcome.Crashed]
  · have barred : ¬ LetThrough env lookup req := fun h => hverify h.1
    simp [hverify, barred, Outcome.Crashed]

/-- A request as the event loop gets it, with the records of its moment and the number of
bytes that evbuffer_write will write. -/
structure Event where
  lookup : Bytes → Bytes → Option RsAuthorization
  written : Nat
  req : Request

structure Server where
  tree : Node
  fds : List Nat

/-- The state after a request; there is none after a crash. -/
def serve (env : Env) (s : Server) (e : Event) : Option Server :=
  let served := dispatchStorage env e.lookup e.written e.req s.tree s.fds
  if served.1 = [] then none else some ⟨served.2.tree, served.2.fds⟩

def completed (env : Env) : Server → List Event → List (Server × Event × Server)
  | _, [] => []
  | s, e :: events =>
    match serve env s e with
    | none => []
    | some s' => (s, e, s') :: completed env s' events

theorem serve_of_mem {s : Server} {events : List Event} {step : Server × Event × Server}
    (h : step ∈ completed env s events) : serve env step.1 step.2.1 = some step.2.2 := by
  induction events generalizing s with
  | nil => simp [completed] at h
  | cons e events ih =>
    rw [completed] at h
    cases hserve : serve env s e with
    | none => simp [hserve] at h
    | some s' =>
      rw [hserve] at h
      rcases List.mem_cons.1 h with rfl | later
      · exact hserve
      · exact ih later

theorem serve_of_triple {s s' : Server} {e : Event} {I : World → Prop}
    (h : Triple (fun w => w = arrival s.tree s.fds) (requestStatus env e.lookup e.written e.req)
      (fun _ => I) (fun _ => I) fun _ => True)
    (hserve : serve env s e = some s') : ∃ w, I w ∧ s' = ⟨w.tree, w.fds⟩ := by
  have run := h _ rfl
  unfold serve dispatchStorage call at hserve
  cases hrun : requestStatus env e.lookup e.written e.req (arrival s.tree s.fds) with
  | next status w =>
    rw [hrun] at run hserve
    by_cases hstatus : status = 0
    · simp [hstatus] at hserve
    · exact ⟨w, run, by simpa [hstatus, eq_comm] using hserve⟩
  | stop status w =>
    rw [hrun] at run hserve
    by_cases hstatus : status = 0
    · simp [hstatus] at hserve
    · exact ⟨w, run, by simpa [hstatus, eq_comm] using hserve⟩
  | crash w =>
    rw [hrun] at hserve
    simp at hserve

def attempted (env : Env) : Server → List Event → List (Server × Event)
  | _, [] => []
  | s, e :: events =>
    (s, e) :: match serve env s e with
      | none => []
      | some s' => attempted env s' events

section Kept
variable {I : Node → Prop}

structure KeptByRequest (env : Env) (written : Nat) (req : Request) (I : Node → Prop) : Prop where
  stamp : Stampable env I
  put : req.method = .PUT → KeptByPutTo env (makeDiskPath env.cfg req.user req.path).diskPath
    (req.bufferIn.take written) I
  delete : req.method = .DELETE →
    KeptByDeleteOf env (makeDiskPath env.cfg req.user req.path).diskPath I

theorem keptByRequest_of_calls {written : Nat} {req : Request}
    (hI : KeptByCalls env (req.bufferIn.take written) I) : KeptByRequest env written req I where
  stamp := hI.stamp
  put := fun _ => hI.putTo _
  delete := fun _ => hI.deleteOf _

theorem triple_callHandler_kept {written : Nat} {req : Request}
    (hI : KeptByRequest env written req I) :
    Preserves (OnTree I) (callHandler env written req) := by
  have read : ∀ includeBody, Preserves (OnTree I) (handleGetOrHead env includeBody req) := by
    intro includeBody
    exact (triple_handleGetOrHead hI.stamp includeBody req).mono (fun _ h => h)
      (fun _ _ h => h.2) (fun _ _ h => h.2) fun _ h => h
  unfold callHandler
  cases hmethod : req.method with
  | GET => exact triple_call (read true)
  | HEAD =>
    exact triple_call (triple_ite (fun _ => triple_call (read false))
      fun _ => triple_pure fun _ h => h)
  | PUT =>
    exact triple_call ((triple_storageHandlePut (hI.put hmethod)).mono (fun _ h => h)
      (fun _ _ h => h.2) (fun _ _ h => h.2) fun _ h => h)
  | DELETE =>
    exact triple_call ((triple_storageHandleDelete req (hI.delete hmethod)).mono (fun _ h => h)
      (fun _ _ h => h.2) (fun _ _ h => h.2) fun _ h => h)
  | _ => exact triple_pure fun _ h => h

theorem triple_requestStatus_kept {lookup : Bytes → Bytes → Option RsAuthorization}
    {written : Nat} {req : Request} (hI : KeptByRequest env written req I) :
    Preserves (OnTree I) (requestStatus env lookup written req) := by
  rw [requestStatus_eq]
  refine triple_ite (fun _ => triple_stop fun _ h => h) fun _ => ?_
  exact triple_ite (fun _ => triple_stop fun _ h => h) fun _ => triple_callHandler_kept hI

theorem serve_kept {s s' : Server} {e : Event} (hI : KeptByRequest env e.written e.req I)
    (hs : I s.tree) (hserve : serve env s e = some s') : I s'.tree := by
  have run : Triple (fun w => w = arrival s.tree s.fds)
      (requestStatus env e.lookup e.written e.req) (fun _ => OnTree I) (fun _ => OnTree I)
      fun _ => True := by
    refine (triple_requestStatus_kept hI).mono (fun w hw => ?_)
      (fun _ _ h => h) (fun _ _ h => h) fun _ _ => trivial
    rw [hw]
    exact ⟨hs, trivial⟩
  obtain ⟨w, hw, rfl⟩ := serve_of_triple run hserve
  exact hw.1

theorem attempted_kept {s : Server} {events : List Event} (hs : I s.tree)
    (hI : ∀ e ∈ events, KeptByCalls env (e.req.bufferIn.take e.written) I) {step : Server × Event}
    (h : step ∈ attempted env s events) : I step.1.tree ∧ step.2 ∈ events := by
  induction events generalizing s with
  | nil => simp [attempted] at h
  | cons e events ih =>
    rw [attempted] at h
    rcases List.mem_cons.1 h with rfl | later
    · exact ⟨hs, by simp⟩
    · cases hserve : serve env s e with
      | none => simp [hserve] at later
      | some s' =>
        rw [hserve] at later
        have hs' := serve_kept (keptByRequest_of_calls (hI e (by simp))) hs hserve
        have rest := ih hs' (fun e' he' => hI e' (List.mem_cons_of_mem e he')) later
        exact ⟨rest.1, List.mem_cons_of_mem e rest.2⟩

end Kept

def sampleSha1 (m : Bytes) : Bytes :=
  if m = str "hello" then
    [0xaa, 0xf4, 0xc6, 0x1d, 0xdc, 0xc5, 0xe8, 0xa2, 0xda, 0xbe, 0xde, 0x0f, 0x3b, 0x48, 0x2c,
      0xd9, 0xae, 0xa9, 0x43, 0x4d]
  else
    [0xda, 0x39, 0xa3, 0xee, 0x5e, 0x6b, 0x4b, 0x0d, 0x32, 0x55, 0xbf, 0xef, 0x95, 0x60, 0x18,
      0x90, 0xaf, 0xd8, 0x07, 0x09]

def sampleEnv : Env where
  cfg := defaultConfig
  getpwnam := fun username => if username = str "me" then .entry ⟨1000, 1000⟩ else .absent
  sha1 := sampleSha1
  sha1_length := by
    intro m
    unfold sampleSha1
    split <;> rfl
  magicFile := fun _ _ => some (str "text/plain; charset=us-ascii")
  dirSize := fun _ => 4096

def folder (entries : List (Bytes × Node)) : Node := .branch entries noXattrs

def homeOf (user : Bytes) (entries : List (Bytes × Node)) : Node :=
  folder [(str "home", folder [(user, folder entries)])]

end RsServe.Dispatch
