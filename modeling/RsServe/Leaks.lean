import RsServe.DeleteResults

/-! Which requests leave descriptors open: those for which get_etag computes a version, and a
DELETE that fails among the parents. -/

namespace RsServe.Leaks
open CString Kernel Attributes Descriptors DiskPath EarlyExit Storage StorageRules Users Authorize
open Dispatch Parents PutResults DeleteResults

variable {env : Env}

def ListingLeaks (tree : Node) (diskPath : Bytes) : Prop :=
  ∃ names, opendir tree diskPath = .ok names ∧
    ((∃ name ∈ names, Computes tree (diskPath ++ name)) ∨ Computes tree diskPath)

def ReadLeaks (env : Env) (includeBody : Bool) (req : Request) (tree : Node) : Prop :=
  ∃ kind, stat tree (targetOf env req).diskPath = .ok kind ∧
    if req.file = none ∧ includeBody then ListingLeaks tree (targetOf env req).diskPath
    else req.file.isNone = kind.isBranch ∧ Computes tree (targetOf env req).diskPath

def Left (leaks : Prop) (fds : List Nat) (w : World) : Prop := Leaves leaks fds w.fds

def Start (tree : Node) (fds : List Nat) (w : World) : Prop := w.tree = tree ∧ w.fds = fds

theorem Start.left {tree : Node} {fds : List Nat} {w : World} (h : Start tree fds w) {leaks : Prop}
    (none : ¬ leaks) : Left leaks fds w := by
  rw [Left, h.2]
  exact (leaves_none fds).congr (by simp [none])

theorem triple_etagOf_left (tree : Node) (fds : List Nat) (path : Bytes)
    {R : Nat → World → Prop} {C : World → Prop} :
    Triple (Start tree fds) (etagOf env path) (fun _ => Left (Computes tree path) fds) R C := by
  intro w hw
  unfold etagOf
  cases hetag : getEtag env.sha1 w.tree path with
  | none => exact hw.left (hw.1 ▸ not_computes (getEtag_eq_none.1 hetag))
  | some r =>
    have leaves := leaves_getEtagFds w.tree path w.fds
    rw [hw.1, hw.2] at leaves
    simp only [Left, hw.1, hw.2]
    exact leaves

theorem triple_serveFileHead_left (env : Env) (req : Request) (tree : Node) (fds : List Nat)
    (diskPath : Bytes) (statBuf : Stat) (mimeType : Option Bytes) {C : World → Prop} :
    Triple (Start tree fds) (serveFileHead env req diskPath statBuf mimeType)
      (fun _ => Left (req.file.isNone = statBuf.isBranch ∧ Computes tree diskPath) fds)
      (fun _ => Left (req.file.isNone = statBuf.isBranch ∧ Computes tree diskPath) fds) C := by
  refine triple_ite (fun other => triple_stop fun w hw => hw.left fun h => other h.1) fun same => ?_
  rw [ne_eq, not_not] at same
  simp only [same, true_and]
  have header : ∀ key val, Triple (Left (Computes tree diskPath) fds) (addRespHeader key val)
      (fun _ => Left (Computes tree diskPath) fds) (fun _ => Left (Computes tree diskPath) fds)
      C := fun key val => triple_update fun w hw => hw
  refine triple_bind (triple_etagOf_left tree fds diskPath) fun found => ?_
  refine triple_seq (triple_orStop (fun w etag hw _ => hw) fun w hw _ => hw) fun etag => ?_
  refine triple_ite (fun _ => triple_stop fun w hw => hw) fun _ => ?_
  refine triple_seq (triple_read fun w hw => hw) fun detected => ?_
  refine triple_seq (header _ _) fun _ => ?_
  refine triple_seq (header _ _) fun _ => ?_
  refine triple_seq (header _ _) fun _ => ?_
  exact triple_pure fun w hw => hw

theorem triple_serveFile_left (leaks : Prop) (fds : List Nat) (diskPath : Bytes)
    {C : World → Prop} :
    Triple (Left leaks fds) (serveFile diskPath) (fun _ => Left leaks fds)
      (fun _ => Left leaks fds) C := by
  refine triple_seq (triple_attempt (fun w file hw _ => hw) fun w e hw _ => hw) fun file => ?_
  intro w hw
  change Leaves leaks fds ((freshFd w.fds :: w.fds).erase (freshFd w.fds))
  rw [List.erase_cons_head]
  exact hw

theorem triple_serveDirectory_left (tree : Node) (fds : List Nat) (diskPath : Bytes) :
    Triple (Start tree fds) (serveDirectory env diskPath)
      (fun _ => Left (ListingLeaks tree diskPath) fds)
      (fun _ => Left (ListingLeaks tree diskPath) fds) fun _ => True := by
  intro w hw
  rcases serveDirectory_run env diskPath w with
    ⟨-, hcrash⟩ | ⟨e, hdir, hrun⟩ | ⟨names, members, etag, w', hdir, -, -, hrun, -, -, leaves⟩
  · cases hrun : serveDirectory env diskPath w with
    | next status w' => simp [hrun, Outcome.Crashed] at hcrash
    | stop status w' => simp [hrun, Outcome.Crashed] at hcrash
    | crash w' => trivial
  · rw [hrun]
    refine hw.left fun leaks => ?_
    obtain ⟨names, hnames, -⟩ := leaks
    rw [← hw.1, hdir] at hnames
    cases hnames
  · rw [hrun]
    rw [hw.1, hw.2] at leaves
    refine leaves.congr ?_
    rw [hw.1] at hdir
    simp [ListingLeaks, hdir]

theorem triple_handleGetOrHead_left (includeBody : Bool) (req : Request) (tree : Node)
    (fds : List Nat) :
    Triple (Start tree fds) (handleGetOrHead env includeBody req)
      (fun _ => Left (ReadLeaks env includeBody req tree) fds)
      (fun _ => Left (ReadLeaks env includeBody req tree) fds) fun _ => True := by
  have found : Triple (Start tree fds)
      (read fun w => stat w.tree (targetOf env req).diskPath : Handler (Except Errno Stat))
      (fun result w => Start tree fds w ∧ stat tree (targetOf env req).diskPath = result)
      (fun _ => Left (ReadLeaks env includeBody req tree) fds) fun _ => True :=
    triple_read fun w hw => ⟨hw, by rw [hw.1]⟩
  refine triple_bind found fun result => triple_of_fact fun hstat => ?_
  cases result with
  | error e => exact triple_stop fun w hw => hw.left (by simp [ReadLeaks, hstat])
  | ok statBuf =>
    have only : ReadLeaks env includeBody req tree ↔
        if req.file = none ∧ includeBody then ListingLeaks tree (targetOf env req).diskPath
        else req.file.isNone = statBuf.isBranch ∧ Computes tree (targetOf env req).diskPath := by
      simp [ReadLeaks, hstat]
    rw [only]
    have head := fun mimeType => triple_serveFileHead_left env req tree fds
      (targetOf env req).diskPath statBuf mimeType (C := fun _ => True)
    by_cases hfile : req.file = none
    · cases includeBody with
      | true =>
        simp only [hfile, true_and, if_true]
        exact triple_call (triple_serveDirectory_left tree fds _)
      | false =>
        simp only [hfile, Bool.false_eq_true, and_false, if_true, if_false]
        refine triple_bind (triple_call (head _)) fun status => ?_
        exact triple_pure fun w hw => by simpa [hfile] using hw
    · simp only [hfile, false_and, if_false]
      refine triple_bind (triple_call (head _)) fun status => ?_
      refine triple_ite (fun _ => triple_pure fun w hw => hw) fun _ => ?_
      refine triple_ite (fun _ => triple_call (triple_serveFile_left _ _ _)) fun _ => ?_
      exact triple_pure fun w hw => hw

def PutLeaks (env : Env) (req : Request) (tree : Node) : Prop :=
  req.file ≠ none ∧ (Compares req tree (targetOf env req).diskPath ∨
    Admitted env req (targetOf env req).diskPath tree ∧ Opens tree (targetOf env req) ∧
      Recomputes env req tree)

theorem triple_storageHandlePut_left {req : Request}
    (hverify : verifyUser env.getpwnam req.user = 0) (written : Nat) (tree : Node)
    (fds : List Nat) :
    Triple (Start tree fds) (storageHandlePut env written req)
      (fun _ => Left (PutLeaks env req tree) fds) (fun _ => Left (PutLeaks env req tree) fds)
      fun _ => True := by
  intro w hw
  by_cases hfile : req.file = none
  · rw [storageHandlePut_folder hfile]
    exact hw.left fun leaks => leaks.1 hfile
  · rcases storageHandlePut_cases hfile hverify written w with
      ⟨refused, w', hrun, -, leaves⟩ | ⟨-, hclosed, error, w', -, hrun, -, leaves⟩ |
        ⟨admitted, opens, hcrash | ⟨answered, w', hrun, answers⟩⟩
    · rw [hrun]
      rw [hw.1, hw.2] at leaves
      rw [hw.1] at refused
      exact leaves.congr (by simp [PutLeaks, hfile, refused])
    · rw [hrun]
      rw [hw.1, hw.2] at leaves
      rw [hw.1] at hclosed
      exact leaves.congr (by simp [PutLeaks, hfile, hclosed])
    · cases hrun : storageHandlePut env written req w with
      | next status w' => simp [hrun, Outcome.Crashed] at hcrash
      | stop status w' => simp [hrun, Outcome.Crashed] at hcrash
      | crash w' => trivial
    · rw [hrun]
      have leaves := answers.leaves
      rw [hw.1, hw.2] at leaves
      rw [hw.1] at admitted opens
      exact leaves.congr (by simp [PutLeaks, hfile, admitted, opens])

/-- The file is removed, and the directory at the storage root stays open after an error
among the parents. -/
def FailsAmongParents (env : Env) (req : Request) (tree : Node) : Prop :=
  Deletable env req tree ∧ ∃ t, unlink tree (targetOf env req).diskPath = .ok t ∧
    ¬ Tidies t (targetOf env req) ∧ ∃ root, openRead t (targetOf env req).storageRoot = .ok root

def DeleteLeaks (env : Env) (req : Request) (tree : Node) : Prop :=
  req.file ≠ none ∧ (ComparesDocument env req tree ∨ FailsAmongParents env req tree)

theorem triple_storageHandleDelete_left (req : Request) (tree : Node) (fds : List Nat) :
    Triple (Start tree fds) (storageHandleDelete env req)
      (fun _ => Left (DeleteLeaks env req tree) fds)
      (fun _ => Left (DeleteLeaks env req tree) fds) fun _ => True := by
  intro w hw
  by_cases hfile : req.file = none
  · rw [storageHandleDelete_folder hfile]
    exact hw.left fun leaks => leaks.1 hfile
  · rcases storageHandleDelete_cases hfile w with
      ⟨refused, w', hrun, -, -, leaves⟩ |
        ⟨deletable, t, etag, w', hunlink, hplain, -, -, leaves, hrun⟩
    · rw [hrun]
      rw [hw.1, hw.2] at leaves
      rw [hw.1] at refused
      exact leaves.congr (by simp [DeleteLeaks, FailsAmongParents, hfile, refused])
    · rw [hrun]
      rw [hw.1, hw.2] at leaves
      rw [hw.1] at deletable hunlink
      have fails : FailsAmongParents env req tree ↔ ¬ Tidies w'.tree (targetOf env req) ∧
          ∃ root, openRead w'.tree (targetOf env req).storageRoot = .ok root := by
        have same : openRead w'.tree (targetOf env req).storageRoot =
          openRead t (targetOf env req).storageRoot := namei_congr hplain _
        rw [tidies_congr hplain, same]
        simp [FailsAmongParents, deletable, hunlink]
      rcases removeEmptyParents_run (targetOf env req) w' with
        ⟨tidies, w'', htidy, -, hfds, -⟩ | ⟨untidy, status, w'', -, htidy, -, leaves'⟩
      · rw [htidy]
        simp only [Left, hfds]
        exact leaves.congr (by simp [DeleteLeaks, hfile, fails, tidies])
      · rw [htidy]
        exact (leaves.trans leaves').congr (by simp [DeleteLeaks, hfile, fails, untidy])

def MethodLeaks (env : Env) (req : Request) (tree : Node) : Prop :=
  match req.method with
  | .GET => ReadLeaks env true req tree
  | .HEAD => env.cfg.experimental ∧ ReadLeaks env false req tree
  | .PUT => PutLeaks env req tree
  | .DELETE => DeleteLeaks env req tree
  | _ => False

theorem triple_callHandler_left {req : Request}
    (hverify : verifyUser env.getpwnam req.user = 0) (written : Nat) (tree : Node)
    (fds : List Nat) :
    Triple (Start tree fds) (callHandler env written req)
      (fun _ => Left (MethodLeaks env req tree) fds)
      (fun _ => Left (MethodLeaks env req tree) fds) fun _ => True := by
  have nothing : ∀ status, Triple (Start tree fds) (pure status : Handler Nat)
      (fun _ => Left False fds) (fun _ => Left False fds) fun _ => True :=
    fun status => triple_pure fun w hw => hw.left id
  unfold callHandler MethodLeaks
  cases req.method with
  | GET => exact triple_call (triple_handleGetOrHead_left true req tree fds)
  | HEAD =>
    refine triple_call (triple_ite (fun on => ?_) fun off => ?_)
    · simp only [on, true_and]
      exact triple_call (triple_handleGetOrHead_left false req tree fds)
    · simp only [off, Bool.false_eq_true, false_and]
      exact nothing 405
  | PUT => exact triple_call (triple_storageHandlePut_left hverify written tree fds)
  | DELETE => exact triple_call (triple_storageHandleDelete_left req tree fds)
  | OPTIONS => exact nothing 204
  | POST => exact nothing 405
  | MKCOL => exact nothing 405
  | COPY => exact nothing 405
  | MOVE => exact nothing 405
  | PROPFIND => exact nothing 405
  | PROPPATCH => exact nothing 405
  | LOCK => exact nothing 405
  | UNLOCK => exact nothing 405
  | TRACE => exact nothing 405
  | CONNECT => exact nothing 405
  | PATCH => exact nothing 405

def RequestLeaks (env : Env) (tree : Node) (e : Event) : Prop :=
  LetThrough env e.lookup e.req ∧ MethodLeaks env e.req tree

theorem triple_requestStatus_left (env : Env) (e : Event) (tree : Node) (fds : List Nat) :
    Triple (Start tree fds) (requestStatus env e.lookup e.written e.req)
      (fun _ => Left (RequestLeaks env tree e) fds) (fun _ => Left (RequestLeaks env tree e) fds)
      fun _ => True := by
  rw [requestStatus_eq]
  refine triple_ite (fun barred => ?_) fun hverify => ?_
  · exact triple_stop fun w hw => hw.left fun leaks => barred leaks.1.1
  · rw [ne_eq, not_not] at hverify
    refine triple_ite (fun barred => ?_) fun through => ?_
    · exact triple_stop fun w hw => hw.left fun leaks => barred.2 leaks.1.2
    · have same : MethodLeaks env e.req tree ↔ RequestLeaks env tree e := by
        by_cases hoptions : e.req.method = .OPTIONS
        · simp [RequestLeaks, MethodLeaks, hoptions]
        · have hauth : authorizeRequest e.lookup e.req = 0 := by simpa [hoptions] using through
          simp [RequestLeaks, LetThrough, hverify, hauth]
      refine (triple_callHandler_left hverify e.written tree fds).mono (fun _ h => h) ?_ ?_
        fun _ h => h
      · exact fun _ _ h => h.congr same
      · exact fun _ _ h => h.congr same

def Balanced (env : Env) (s : Server) (events : List Event) : Prop :=
  ∀ step ∈ completed env s events, ∀ fd, fd ∈ step.2.2.fds ↔ fd ∈ step.1.fds

theorem serve_balanced_iff {s s' : Server} {e : Event} (h : serve env s e = some s') :
    (∀ fd, fd ∈ s'.fds ↔ fd ∈ s.fds) ↔ ¬ RequestLeaks env s.tree e := by
  have start : Triple (fun w => w = arrival s.tree s.fds)
      (requestStatus env e.lookup e.written e.req)
      (fun _ => Left (RequestLeaks env s.tree e) s.fds)
      (fun _ => Left (RequestLeaks env s.tree e) s.fds) fun _ => True := by
    refine (triple_requestStatus_left env e s.tree s.fds).mono ?_ (fun _ _ h => h)
      (fun _ _ h => h) fun _ h => h
    intro w hw
    rw [hw]
    exact ⟨rfl, rfl⟩
  obtain ⟨w, leaves, rfl⟩ := serve_of_triple start h
  exact leaves.same_iff

/-- Descriptors are in balance over a run if and only if none of its requests makes get_etag
compute a version, or fails among the parents of what it has deleted. -/
theorem balanced_iff (env : Env) (s : Server) (events : List Event) :
    Balanced env s events ↔
      ∀ step ∈ completed env s events, ¬ RequestLeaks env step.1.tree step.2.1 := by
  unfold Balanced
  refine forall_congr' fun step => forall_congr' fun hstep => ?_
  exact serve_balanced_iff (serve_of_mem hstep)

def documentGet : Event where
  lookup := oneRecord
  written := 0
  req := { samplePut (str "/a/b") (str "b") with method := .GET, bufferIn := [] }

theorem documentGet_leaks :
    ¬ Balanced sampleEnv ⟨oneDocument, [0, 1, 2]⟩ [documentGet] := by
  intro balanced
  have opened : ([0, 1, 2], [3, 0, 1, 2]) ∈
      (completed sampleEnv ⟨oneDocument, [0, 1, 2]⟩ [documentGet]).map
        fun step => (step.1.fds, step.2.2.fds) := by decide +kernel
  obtain ⟨step, hstep, hfds⟩ := List.mem_map.1 opened
  rw [Prod.mk.injEq] at hfds
  have used := (balanced step hstep 3).1 (by rw [hfds.2]; decide)
  rw [hfds.1] at used
  exact absurd used (by decide)

end RsServe.Leaks
