import RsServe.ConditionalStore
import RsServe.ConditionalWrites
import RsServe.Documents

/-! One request for a document, with its conditions, where the tree shows a map of documents:
it is answered as by a store of documents with versions. -/

namespace RsServe.DocumentRequests
open CString NameTree Kernel Attributes DiskPath EarlyExit Storage StorageRules Users Dispatch
open Parents PutResults DeleteResults Responses CanonicalPaths DocumentMap Documents ConditionalWrites
open ConditionalStore (Answer Rules Admits Matches put_blocked put_conflict put_stored
  delete_missing delete_conflict delete_removed get_missing get_notModified get_found)

abbrev StoreRequest := ConditionalStore.Request (List Bytes) Bytes Bytes

def documentRules (env : Env) : Rules (List Bytes) Bytes Bytes where
  version := version env.sha1
  free := Free

def storeRequest (req : Request) : Option StoreRequest :=
  match req.method with
  | .PUT => some (.put (components req.path) req.bufferIn req.headersIn.ifMatch
      (req.headersIn.ifNoneMatch = some (str "*")))
  | .DELETE => some (.delete (components req.path) req.headersIn.ifMatch)
  | .GET => some (.get (components req.path) req.headersIn.ifNoneMatch)
  | _ => none

def Tells : Answer Bytes Bytes → Reply → Prop
  | .created v, reply => reply.status = 201 ∧ reply.header (str "ETag") = some v
  | .replaced v, reply => reply.status = 200 ∧ reply.header (str "ETag") = some v
  | .removed v, reply => reply.status = 200 ∧ reply.header (str "ETag") = some v
  | .found body v, reply =>
    reply.status = 200 ∧ reply.header (str "ETag") = some v ∧ reply.body = body
  | .notModified, reply => reply.status = 304
  | .missing, reply => reply.status = 404 ∨ reply.status = 400
  | .conflict, reply => reply.status = 412
  | .blocked, reply => IsError reply.status

variable {env : Env} {start tree : Node} {root : Loc} {docs : Docs Bytes Bytes}

section
variable {cfg : Config} {user path : Bytes} (hstart : EmptyRoot cfg user start root)
  (htree : Refines start root docs tree)
include hstart htree

theorem free_of_stored {names : List Bytes} (hne : names ≠ []) (hdoc : docs names ≠ none) :
    Free docs names := by
  refine ⟨fun q habove => ?_, htree.inside.not_ancestor hne hdoc⟩
  by_contra stored
  by_cases hq : q = []
  · obtain ⟨content, hcontent⟩ := Option.ne_none_iff_exists'.1 stored
    have leaf := (htree.inside.leaf q content).2 hcontent
    rw [hq, List.append_nil, htree.top hstart] at leaf
    cases leaf
  · exact htree.inside.not_ancestor hq stored ⟨names, habove, hdoc⟩

theorem viewAt_shown (h : Canonical path) (hfree : Free docs (components path)) :
    viewAt tree (makeDiskPath cfg user path).diskPath = (docs (components path)).map Kind.leaf := by
  rw [htree.viewAt hstart h]
  cases hdoc : docs (components path) with
  | none => exact (htree.inside.none_iff h.components_ne_nil).2 ⟨hdoc, hfree.2⟩
  | some content => exact (htree.inside.leaf _ content).2 hdoc

theorem etag_shown (env : Env) (hcached : Uncached tree) (h : Canonical path)
    (hfree : Free docs (components path)) :
    (getEtag env.sha1 tree (makeDiskPath cfg user path).diskPath).map Prod.fst =
      (docs (components path)).map (version env.sha1) := by
  have hview := viewAt_shown hstart htree h hfree
  cases hdoc : docs (components path) with
  | none =>
    rw [hdoc] at hview
    rw [getEtag_eq_none.2 hview]
    rfl
  | some content =>
    rw [hdoc] at hview
    exact version_of_document hcached hview

end

variable {req : Request}

theorem admitted_iff (hstart : EmptyRoot env.cfg req.user start root)
    (htree : Refines start root docs tree) (hcached : Uncached tree) (hpath : Canonical req.path)
    (hfree : Free docs (components req.path)) :
    Admitted env req (targetOf env req).diskPath tree ↔
      Admits ((docs (components req.path)).map (version env.sha1)) req.headersIn.ifMatch
        (req.headersIn.ifNoneMatch = some (str "*")) := by
  have hetag := etag_shown hstart htree env hcached hpath hfree
  have hview := viewAt_shown hstart htree hpath hfree
  unfold Admitted Admits Matches targetOf
  rw [hetag, hview]
  simp

theorem answer_of_run {p : Handler Nat} {status : Nat} {w : World} {fds : List Nat}
    (hrun : p (arrival tree fds) = .next status w ∨ p (arrival tree fds) = .stop status w) :
    answer p tree fds = some ⟨status, w.headersOut, w.bufferOut⟩ ∧
      (p (arrival tree fds)).state.tree = w.tree := by
  rw [answer]
  rcases hrun with hrun | hrun
  · rw [hrun]
    exact ⟨rfl, rfl⟩
  · rw [hrun]
    exact ⟨rfl, rfl⟩

theorem etag_of_answers {written status : Nat} {fds : List Nat} {w : World}
    (hcached : Uncached tree) (answers : Answers env written req (arrival tree fds) w status) :
    w.headersOut.lookup (str "ETag") = some (version env.sha1 (req.bufferIn.take written)) := by
  obtain ⟨r, -, hheaders⟩ := answers.headers
  rw [show (arrival tree fds).tree = tree from rfl, cachedAt_of_uncached hcached,
    Option.getD_none] at hheaders
  rw [hheaders]
  rfl

theorem put_tells (hstart : EmptyRoot env.cfg req.user start root)
    (htree : Refines start root docs tree) (hcached : Uncached tree)
    (hverify : verifyUser env.getpwnam req.user = 0) (hpath : Canonical req.path)
    (hfile : req.file ≠ none) (htyped : ¬ NoMediaType req) {written : Nat}
    (hwritten : req.bufferIn.length ≤ written) (fds : List Nat)
    {served : Answer Bytes Bytes × Docs Bytes Bytes}
    (hserved : ConditionalStore.put (documentRules env) docs (components req.path) req.bufferIn
      req.headersIn.ifMatch (req.headersIn.ifNoneMatch = some (str "*")) = served) :
    ∃ reply, answer (storageHandlePut env written req) tree fds = some reply ∧
      Tells served.1 reply ∧
      Refines start root served.2 (storageHandlePut env written req (arrival tree fds)).state.tree := by
  have cases' := storageHandlePut_cases hfile hverify written (arrival tree fds)
  by_cases hfree : Free docs (components req.path)
  · have judged := admitted_iff hstart htree hcached hpath hfree
    obtain ⟨dirs, last, hsplit⟩ := hpath.split
    have opens := (opens_of_free hstart htree hpath hsplit hfree).1
    rcases cases' with ⟨refused, w, hrun, hplain, -⟩ | ⟨-, hclosed, -⟩ |
      ⟨admitted, -, hcrash | ⟨status, w, hrun, answers⟩⟩
    · have reply := answer_of_run (Or.inr hrun)
      rw [put_conflict hfree fun admits => refused (judged.2 admits)] at hserved
      subst hserved
      exact ⟨_, reply.1, rfl, reply.2 ▸ htree.congr hplain⟩
    · exact absurd opens hclosed
    · exact absurd hcrash.1 htyped
    · have reply := answer_of_run (Or.inl hrun)
      have stored := answers_refines (w := arrival tree fds) hstart htree hpath hfree answers
      have etag := etag_of_answers hcached answers
      rw [List.take_of_length_le hwritten] at stored etag
      rw [put_stored hfree (judged.1 admitted)] at hserved
      subst hserved
      refine ⟨_, reply.1, ?_, reply.2 ▸ stored.2⟩
      rw [stored.1]
      by_cases hdoc : docs (components req.path) = none
      · simp only [if_pos hdoc]
        exact ⟨rfl, etag⟩
      · simp only [if_neg hdoc]
        exact ⟨rfl, etag⟩
  · have blocked := blocked_of_not_free hstart htree hpath hfree
    rw [put_blocked hfree] at hserved
    subst hserved
    rcases cases' with ⟨-, w, hrun, hplain, -⟩ | ⟨-, -, status, w, herror, hrun, hplain, -⟩ |
      ⟨-, opens, -⟩
    · have reply := answer_of_run (Or.inr hrun)
      exact ⟨_, reply.1, by simp [Tells, IsError], reply.2 ▸ htree.congr hplain⟩
    · have reply := answer_of_run (Or.inr hrun)
      have same := hplain.trans ((plain_parentsMade_iff _ _).2 blocked.1)
      exact ⟨_, reply.1, herror, reply.2 ▸ htree.congr same⟩
    · exact absurd opens blocked.2

theorem headersOut_removeEmptyParents (env : Env) (target : Target) (w : World) :
    (removeEmptyParents target w).state.headersOut = w.headersOut := by
  have kept := (keptByCalls_true env []).deleteOf []
  have run := triple_removeEmptyParents kept target
    (H := fun headers _ => headers = w.headersOut) (C := fun w' => w'.headersOut = w.headersOut) w
    ⟨trivial, rfl⟩
  cases hremove : removeEmptyParents target w with
  | crash w' =>
    rw [hremove] at run
    exact run
  | next status w' =>
    rw [hremove] at run
    exact run.2.2
  | stop status w' =>
    rw [hremove] at run
    exact run.2.2

theorem delete_tells (hstart : EmptyRoot env.cfg req.user start root)
    (htree : Refines start root docs tree) (hcached : Uncached tree) (hpath : Canonical req.path)
    (hfile : req.file ≠ none) (fds : List Nat) {served : Answer Bytes Bytes × Docs Bytes Bytes}
    (hserved : ConditionalStore.delete (documentRules env) docs (components req.path)
      req.headersIn.ifMatch = served) :
    ∃ reply, answer (storageHandleDelete env req) tree fds = some reply ∧ Tells served.1 reply ∧
      Refines start root served.2 (storageHandleDelete env req (arrival tree fds)).state.tree := by
  have cases' := @storageHandleDelete_cases env req hfile (arrival tree fds)
  cases hdoc : docs (components req.path) with
  | none =>
    rw [delete_missing hdoc] at hserved
    subst hserved
    have absent : ∀ content, viewAt tree (targetOf env req).diskPath ≠ some (.leaf content) := by
      intro content leaf
      have stored := (htree.inside.leaf _ content).1 ((htree.viewAt hstart hpath).symm.trans leaf)
      rw [hdoc] at stored
      cases stored
    rcases cases' with ⟨-, w, hrun, hplain, -⟩ | ⟨deletable, -⟩
    · have reply := answer_of_run (Or.inr hrun)
      refine ⟨_, reply.1, ?_, reply.2 ▸ htree.congr hplain⟩
      rw [show (arrival tree fds).tree = tree from rfl]
      cases hview : viewAt tree (targetOf env req).diskPath with
      | none => exact Or.inl rfl
      | some view =>
        cases view with
        | leaf content => exact absurd hview (absent content)
        | branch u => exact Or.inr rfl
    · obtain ⟨content, leaf⟩ := deletable.1
      exact absurd leaf (absent content)
  | some content =>
    have stored : docs (components req.path) ≠ none := by simp [hdoc]
    have hfree := free_of_stored hstart htree hpath.components_ne_nil stored
    have hview := viewAt_shown hstart htree hpath hfree
    have hetag := etag_shown hstart htree env hcached hpath hfree
    rw [hdoc] at hview hetag
    have judged : Deletable env req tree ↔
        Matches (some (version env.sha1 content)) req.headersIn.ifMatch := by
      unfold Deletable Matches targetOf
      rw [hview, hetag]
      simp
    rcases cases' with ⟨refused, w, hrun, hplain, -⟩ |
      ⟨deletable, t, etag, w, hunlink, hplain, hsent, hheaders, -, hrun⟩
    · have reply := answer_of_run (Or.inr hrun)
      rw [delete_conflict hdoc fun admits => refused (judged.2 admits)] at hserved
      subst hserved
      refine ⟨_, reply.1, ?_, reply.2 ▸ htree.congr hplain⟩
      rw [show viewAt (arrival tree fds).tree (targetOf env req).diskPath = _ from hview]
      rfl
    · rw [delete_removed hdoc (judged.1 deletable)] at hserved
      subst hserved
      obtain ⟨w', hremoved, refines⟩ := unlinked_refines (w := w) hstart htree hpath stored hunlink hplain
      have reply := answer_of_run (Or.inl (hrun.trans hremoved))
      have kept := headersOut_removeEmptyParents env (targetOf env req) w
      rw [hremoved] at kept
      refine ⟨_, reply.1, ⟨rfl, ?_⟩, reply.2 ▸ refines⟩
      rw [Reply.header, show w'.headersOut = w.headersOut from kept, hheaders]
      have same : etag = version env.sha1 content := Option.some.inj (hsent.symm.trans hetag)
      rw [same]
      rfl

theorem get_tells (hstart : EmptyRoot env.cfg req.user start root)
    (htree : Refines start root docs tree) (hcached : Uncached tree) (hpath : Canonical req.path)
    (hfile : req.file ≠ none) (fds : List Nat) {served : Answer Bytes Bytes}
    (hserved : ConditionalStore.get (documentRules env) docs (components req.path)
      req.headersIn.ifNoneMatch = served) :
    ∃ reply, answer (storageHandleGet env req) tree fds = some reply ∧ Tells served reply := by
  cases hdoc : docs (components req.path) with
  | none =>
    obtain ⟨reply, hreply, hstatus⟩ := get_absent hstart htree hpath hfile fds hdoc
    rw [get_missing hdoc] at hserved
    subst hserved
    exact ⟨reply, hreply, Or.inl hstatus⟩
  | some content =>
    have stored : docs (components req.path) ≠ none := by simp [hdoc]
    have hfree := free_of_stored hstart htree hpath.components_ne_nil stored
    have hview := viewAt_shown hstart htree hpath hfree
    rw [hdoc] at hview
    obtain ⟨x, hstat⟩ := viewAt_eq_leaf.1 hview
    obtain ⟨r, hetag⟩ := getEtag_ne_none env.sha1 hstat
    have hversion : r.1 = version env.sha1 content := getEtag_of_leaf hcached hstat hetag
    have reply := answer_document req hfile fds hstat hetag true
    by_cases hmatch : req.headersIn.ifNoneMatch = some (version env.sha1 content)
    · rw [if_pos (hversion ▸ hmatch)] at reply
      rw [get_notModified hdoc hmatch] at hserved
      subst hserved
      exact ⟨_, reply, rfl⟩
    · rw [if_neg (hversion ▸ hmatch)] at reply
      rw [get_found hdoc hmatch] at hserved
      subst hserved
      exact ⟨_, reply, rfl, congrArg some hversion, rfl⟩

theorem document_tells {s : Server} {e : Event} (hstart : EmptyRoot env.cfg e.req.user start root)
    (htree : Refines start root docs s.tree) (hcached : Uncached s.tree)
    (hlet : LetThrough env e.lookup e.req) (hpath : Canonical e.req.path) (hfile : e.req.file ≠ none)
    (htyped : e.req.method = .PUT → ¬ NoMediaType e.req)
    (hwritten : e.req.bufferIn.length ≤ e.written) {r : StoreRequest}
    (hr : storeRequest e.req = some r) :
    ∃ reply, replied env s e = some reply ∧
      Tells (ConditionalStore.serve (documentRules env) docs r).1 reply ∧
      Refines start root (ConditionalStore.serve (documentRules env) docs r).2
        (treeAfter env s e) := by
  unfold storeRequest at hr
  cases hmethod : e.req.method with
  | PUT =>
    simp only [hmethod, Option.some_inj] at hr
    subst hr
    have calls := replied_calls (s := s) hlet
      (p := storageHandlePut env e.written e.req) (by simp only [callHandler, hmethod])
    rw [calls.1, calls.2]
    exact put_tells hstart htree hcached hlet.1 hpath hfile (htyped hmethod) hwritten s.fds rfl
  | DELETE =>
    simp only [hmethod, Option.some_inj] at hr
    subst hr
    have calls := replied_calls (s := s) hlet
      (p := storageHandleDelete env e.req) (by simp only [callHandler, hmethod])
    rw [calls.1, calls.2]
    exact delete_tells hstart htree hcached hpath hfile s.fds rfl
  | GET =>
    simp only [hmethod, Option.some_inj] at hr
    subst hr
    have calls := replied_calls (s := s) hlet
      (p := storageHandleGet env e.req) (by simp only [callHandler, hmethod])
    rw [calls.1, calls.2]
    obtain ⟨reply, hreply, told⟩ := get_tells hstart htree hcached hpath hfile s.fds rfl
    exact ⟨reply, hreply, told, htree.congr (get_keeps e.req s.tree s.fds)⟩
  | _ => simp [hmethod] at hr

end RsServe.DocumentRequests
