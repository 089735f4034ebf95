import Mathlib.Data.Set.Function
import RsServe.DeleteResults
import RsServe.FolderVersions
import RsServe.Responses

/-! Conditional requests over a run: which versions the clients get to see, and what an
If-Match guards. -/

namespace RsServe.ConditionalWrites
open CString NameTree TreeWalk Kernel Attributes DiskPath EarlyExit JsonWriter Storage StorageRules
open Users Authorize Dispatch ChildPaths Parents PutResults DeleteResults Responses AuthRecord

variable {env : Env} {s : Server} {e : Event}

def replied (env : Env) (s : Server) (e : Event) : Option Reply :=
  match dispatchStorage env e.lookup e.written e.req s.tree s.fds with
  | (status :: _, w) => some ⟨status, w.headersOut, w.bufferOut⟩
  | ([], _) => none

def treeAfter (env : Env) (s : Server) (e : Event) : Node :=
  (dispatchStorage env e.lookup e.written e.req s.tree s.fds).2.tree

theorem replied_through (h : LetThrough env e.lookup e.req) :
    replied env s e = answer (callHandler env e.written e.req) s.tree s.fds ∧
      treeAfter env s e = (callHandler env e.written e.req (arrival s.tree s.fds)).state.tree := by
  have run := triple_callHandler (Or.inl h) e.written s.tree (arrival s.tree s.fds) ⟨rfl, rfl⟩
  have through : requestStatus env e.lookup e.written e.req = callHandler env e.written e.req := by
    rw [requestStatus_eq, if_neg (not_not.2 h.1), if_neg fun barred => barred.2 h.2]
  unfold replied treeAfter answer dispatchStorage call
  rw [through]
  cases hrun : callHandler env e.written e.req (arrival s.tree s.fds) with
  | next status w =>
    rw [hrun] at run
    simp only [if_pos run.1, replyOf, Outcome.state, and_self]
  | stop status w =>
    rw [hrun] at run
    simp only [if_pos run.1, replyOf, Outcome.state, and_self]
  | crash w => exact ⟨rfl, rfl⟩

theorem replied_barred (h : ¬ LetThrough env e.lookup e.req) :
    treeAfter env s e = s.tree ∧ ∃ status,
      (e.req.method ≠ .OPTIONS → status = 401 ∨ status = 404 ∨ status = 500) ∧ status ≠ 304 ∧
      status ≠ 200 ∧ replied env s e = some ⟨status, corsHeaders, []⟩ := by
  unfold treeAfter replied dispatchStorage call
  rw [requestStatus_eq]
  rcases verifyUser_cases env.getpwnam e.req.user with hverify | hverify | hverify
  · rw [if_neg (not_not.2 hverify)]
    by_cases hoptions : e.req.method = .OPTIONS
    · rw [if_neg fun barred => barred.1 hoptions]
      simp only [callHandler, hoptions]
      exact ⟨rfl, 204, by simp, by simp, by simp, rfl⟩
    · have hauth : authorizeRequest e.lookup e.req ≠ 0 := fun zero => h ⟨hverify, zero⟩
      rw [if_pos ⟨hoptions, hauth⟩]
      exact ⟨rfl, 401, by simp, by simp, by simp, rfl⟩
  · rw [hverify, if_pos (by simp)]
    exact ⟨rfl, 404, by simp, by simp, by simp, rfl⟩
  · rw [hverify, if_pos (by simp)]
    exact ⟨rfl, 500, by simp, by simp, by simp, rfl⟩

def Within (S : Set Bytes) (tree : Node) : Prop :=
  ∀ loc content, plain tree loc = some (.leaf content) → content ∈ S

theorem keptByCalls_within (env : Env) {S : Set Bytes} {stored : Bytes} (hempty : [] ∈ S)
    (hstored : stored ∈ S) : KeptByCalls env stored (Within S) := by
  let P : Loc → Option Stat → Prop := fun _ found =>
    ∀ content, found.map plainKind = some (.leaf content) → content ∈ S
  have hstamp : Stampable env (AtEach P) := by
    intro tree path r h hr loc content hloc
    exact h loc content ((congrFun (plain_getEtag hr) loc).symm.trans hloc)
  refine keptByCalls_of_paths (fun diskPath => keptByPutTo_atEach ⟨?_, ?_, ?_, ?_⟩ hstamp)
    fun diskPath => keptByDeleteOf_atEach ⟨?_, ?_⟩ hstamp
  · rintro q - content ⟨⟩
  · rintro q - content ⟨⟩
    exact hempty
  · rintro q f content (rfl | rfl) - content' ⟨⟩
    · exact hempty
    · exact hstored
  · intro q contentType g kind _ _ h content hcontent
    refine h content (Eq.trans ?_ hcontent)
    cases kind <;> rfl
  · rintro q f - - content ⟨⟩
  · rintro q x - content ⟨⟩

/-- No version is set in the attributes, all contents of the run are among those of `S`, and
no two of these have the same digest. -/
structure Started (env : Env) (S : Set Bytes) (s : Server) (events : List Event) : Prop where
  unset : ∀ loc kind, s.tree.look loc = some kind → (kindXattrs kind).etag = none
  contents : Within S s.tree
  empty : [] ∈ S
  stored : ∀ e ∈ events, e.req.bufferIn.take e.written ∈ S
  injective : Set.InjOn env.sha1 S

def Exact (S : Set Bytes) (tree : Node) : Prop := Uncached tree ∧ Within S tree

theorem Started.exact {S : Set Bytes} {events : List Event} (h : Started env S s events) :
    Exact S s.tree := by
  refine ⟨fun loc kind hlook => ?_, h.contents⟩
  rw [h.unset loc kind hlook]
  rfl

theorem exact_of_attempted {S : Set Bytes} {events : List Event} (h : Started env S s events)
    {step : Server × Event} (hstep : step ∈ attempted env s events) : Exact S step.1.tree := by
  refine (attempted_kept h.exact (fun e he => ?_) hstep).1
  exact (keptByCalls_uncached env _).and (keptByCalls_within env h.empty (h.stored e he))

theorem version_of_document {tree : Node} {path content : Bytes} (h : Uncached tree)
    (hview : viewAt tree path = some (.leaf content)) :
    (getEtag env.sha1 tree path).map Prod.fst = some (version env.sha1 content) := by
  obtain ⟨x, hstat⟩ := viewAt_eq_leaf.1 hview
  obtain ⟨r, hetag⟩ := getEtag_ne_none env.sha1 hstat
  rw [hetag, Option.map_some, getEtag_of_leaf h hstat hetag]

theorem cachedAt_of_uncached {tree : Node} (h : Uncached tree) (loc : Loc) :
    cachedAt tree loc = none := by
  unfold cachedAt
  cases hlook : tree.look loc with
  | none => rfl
  | some kind => exact h loc kind hlook

theorem corsHeaders_lookup : corsHeaders.lookup (str "ETag") = none := by decide

theorem answer_reads {req : Request} {tree : Node} {f : FileData} {r : Bytes × Node}
    {fds : List Nat} {includeBody : Bool} {reply : Reply}
    (hstat : stat tree (targetOf env req).diskPath = .ok (.leaf f))
    (hetag : getEtag env.sha1 tree (targetOf env req).diskPath = some r)
    (h : answer (handleGetOrHead env includeBody req) tree fds = some reply) :
    (∀ etag, reply.header (str "ETag") = some etag → etag = r.1) ∧
      (reply.status = 304 → req.headersIn.ifNoneMatch = some r.1) := by
  have silent : ∀ status, status ≠ 304 → reply = ⟨status, corsHeaders, []⟩ →
      (∀ etag, reply.header (str "ETag") = some etag → etag = r.1) ∧
        (reply.status = 304 → req.headersIn.ifNoneMatch = some r.1) := by
    intro status hstatus hreply
    subst hreply
    refine ⟨fun etag hsent => ?_, fun same => absurd same hstatus⟩
    rw [Reply.header, corsHeaders_lookup] at hsent
    cases hsent
  by_cases hfile : req.file = none
  · have both := answer_folder_mismatch req hfile fds hstat
    cases includeBody with
    | false => exact silent 404 (by simp) (Option.some.inj (h.symm.trans both.1))
    | true => exact silent 500 (by simp) (Option.some.inj (h.symm.trans both.2))
  · rw [answer_document req hfile fds hstat hetag] at h
    by_cases hmatch : req.headersIn.ifNoneMatch = some r.1
    · rw [if_pos hmatch, Option.some_inj] at h
      refine ⟨fun etag hsent => ?_, fun _ => hmatch⟩
      rw [← h, Reply.header, corsHeaders_lookup] at hsent
      cases hsent
    · rw [if_neg hmatch, Option.some_inj] at h
      refine ⟨fun etag hsent => ?_, fun same => ?_⟩
      · rw [← h] at hsent
        exact (Option.some.inj hsent).symm
      · rw [← h] at same
        simp at same

theorem answer_delete {req : Request} {tree : Node} {fds : List Nat} {reply : Reply} {etag : Bytes}
    (h : answer (storageHandleDelete env req) tree fds = some reply)
    (hsent : reply.header (str "ETag") = some etag) :
    (getEtag env.sha1 tree (targetOf env req).diskPath).map Prod.fst = some etag := by
  have silent : reply.headers ≠ corsHeaders := by
    intro same
    rw [Reply.header, same, corsHeaders_lookup] at hsent
    cases hsent
  unfold answer at h
  by_cases hfile : req.file = none
  · rw [storageHandleDelete_folder hfile, replyOf, Option.some_inj] at h
    exact absurd (by rw [← h]; rfl) silent
  · rcases storageHandleDelete_cases hfile (arrival tree fds) with
      ⟨-, w, hrun, -, hheaders, -⟩ | ⟨-, t, sent, w, -, -, hetag, hheaders, -, hrun⟩
    · rw [hrun, replyOf, Option.some_inj] at h
      exact absurd (by rw [← h]; exact hheaders) silent
    · have last : reply.headers = corsHeaders ++ [(str "ETag", sent)] := by
        have kept := (keptByCalls_true env []).deleteOf []
        have run := triple_removeEmptyParents kept (targetOf env req)
          (H := fun headers _ => headers = w.headersOut) (C := fun _ => True) w ⟨trivial, rfl⟩
        rw [hrun] at h
        cases hremove : removeEmptyParents (targetOf env req) w with
        | crash w' => simp [hremove, replyOf] at h
        | next status w' =>
          rw [hremove] at run h
          rw [replyOf, Option.some_inj] at h
          rw [← h]
          exact run.2.2.trans hheaders
        | stop status w' =>
          rw [hremove] at run h
          rw [replyOf, Option.some_inj] at h
          rw [← h]
          exact run.2.2.trans hheaders
      have found : reply.header (str "ETag") = some sent := by
        rw [Reply.header, last]
        rfl
      rw [hsent, Option.some_inj] at found
      rw [found]
      exact hetag

theorem triple_storageHandlePut_early (env : Env) (written : Nat) (req : Request)
    (headers : List (Bytes × Bytes)) :
    Triple (Frame (fun _ => True) fun sent _ => sent = headers) (storageHandlePut env written req)
      (fun _ _ => True) (fun _ w => w.headersOut = headers) fun _ => True := by
  let Same : World → Prop := Frame (fun _ => True) fun sent _ => sent = headers
  have kept := (keptByCalls_true env (req.bufferIn.take written)).putTo (targetOf env req).diskPath
  refine triple_ite (fun _ => triple_stop fun _ h => h.2) fun _ => ?_
  have opens : Triple Same (openTarget env req (targetOf env req)) (fun _ => Same)
      (fun _ w => w.headersOut = headers) fun _ => True :=
    (triple_openTarget kept req (targetOf env req)).mono (fun _ h => h) (fun _ _ h => h)
      (fun _ w h => h.2.2) fun _ _ => trivial
  refine triple_seq opens fun opened => ?_
  have header : ∀ key val, Triple (fun _ => True) (addRespHeader key val) (fun _ _ => True)
      (fun _ w => w.headersOut = headers) fun _ => True := fun key val => triple_update fun _ _ => trivial
  refine triple_seq (triple_update fun _ h => h) fun _ => ?_
  refine triple_seq ((triple_storeContentType kept _).mono (fun _ h => h) (fun _ _ h => h)
    (fun _ _ h => h) fun _ _ => trivial) fun _ => ?_
  refine triple_seq (triple_closeFd _) fun _ => ?_
  refine triple_seq (triple_attempt (fun _ _ h _ => h) fun _ _ h _ => h.2) fun _ => ?_
  refine triple_seq (triple_etagOf kept.stamp _) fun found => ?_
  refine triple_seq (triple_deref (fun _ _ h _ => h) fun _ _ _ => trivial) fun etag => ?_
  refine triple_bind ((header _ _).mono (fun _ _ => trivial) (fun _ _ h => h) (fun _ _ h => h)
    fun _ h => h) fun _ => ?_
  exact triple_seq (header _ _) fun _ => triple_pure fun _ _ => trivial

theorem answer_put {req : Request} {tree : Node} {fds : List Nat} {written : Nat} {reply : Reply}
    {etag content : Bytes} (hverify : verifyUser env.getpwnam req.user = 0) (htree : Uncached tree)
    (h : answer (storageHandlePut env written req) tree fds = some reply)
    (hsent : reply.header (str "ETag") = some etag)
    (hview : viewAt (storageHandlePut env written req (arrival tree fds)).state.tree
      (targetOf env req).diskPath = some (.leaf content)) : etag = version env.sha1 content := by
  have early := triple_storageHandlePut_early env written req corsHeaders (arrival tree fds)
    ⟨trivial, rfl⟩
  unfold answer at h
  cases hrun : storageHandlePut env written req (arrival tree fds) with
  | crash w => simp [hrun, replyOf] at h
  | stop status w =>
    rw [hrun] at early h
    rw [replyOf, Option.some_inj] at h
    rw [← h, Reply.header, early, corsHeaders_lookup] at hsent
    cases hsent
  | next status w =>
    have hfile : req.file ≠ none := by
      intro hnone
      simp [storageHandlePut_folder hnone] at hrun
    rw [hrun] at h hview
    rw [replyOf, Option.some_inj] at h
    rcases storageHandlePut_cases hfile hverify written (arrival tree fds) with
      ⟨-, w', hstop, -⟩ | ⟨-, -, error, w', -, hstop, -⟩ |
        ⟨-, -, hcrash | ⟨answered, w', hnext, answers⟩⟩
    · simp [hrun] at hstop
    · simp [hrun] at hstop
    · simp [hrun, Outcome.Crashed] at hcrash
    · rw [hrun, Outcome.next.injEq] at hnext
      obtain ⟨rfl, rfl⟩ := hnext
      have same := answers.view.symm.trans hview
      rw [Option.some_inj, Kind.leaf.injEq] at same
      obtain ⟨r, -, hheaders⟩ := answers.headers
      rw [show (arrival tree fds).tree = tree from rfl, cachedAt_of_uncached htree,
        Option.getD_none, same] at hheaders
      have found : reply.header (str "ETag") = some (version env.sha1 content) := by
        rw [← h, Reply.header, hheaders]
        rfl
      exact Option.some.inj (hsent.symm.trans found)

def reportedTree (env : Env) (s : Server) (e : Event) : Node :=
  if e.req.method = .PUT then treeAfter env s e else s.tree

structure Fresh (env : Env) (s : Server) (e : Event) : Prop where
  compared : ∀ path content, viewAt s.tree path = some (.leaf content) →
    (getEtag env.sha1 s.tree path).map Prod.fst = some (version env.sha1 content)
  sent : ∀ reply etag content, replied env s e = some reply →
    reply.header (str "ETag") = some etag →
    viewAt (reportedTree env s e) (targetOf env e.req).diskPath = some (.leaf content) →
    etag = version env.sha1 content
  notModified : ∀ reply content, replied env s e = some reply → reply.status = 304 →
    viewAt s.tree (targetOf env e.req).diskPath = some (.leaf content) →
    e.req.headersIn.ifNoneMatch = some (version env.sha1 content)
  listed : ∀ reply, replied env s e = some reply → reply.status = 200 → e.req.method = .GET →
    e.req.file = none → ∃ names members, opendir s.tree (targetOf env e.req).diskPath = .ok names ∧
      reply.body = objectText members ∧ List.Forall₂ (fun name member => ∀ content,
        viewAt s.tree ((targetOf env e.req).diskPath ++ name) = some (.leaf content) →
          member = (name, version env.sha1 content)) names members

theorem reply_status {p : Handler Nat} {tree : Node} {fds : List Nat} {reply : Reply}
    {Q R : Nat → Prop} {C : World → Prop} (hp : Triple (OnTree fun _ => True) p
      (fun status _ => Q status) (fun status _ => R status) C)
    (h : answer p tree fds = some reply) : Q reply.status ∨ R reply.status := by
  have run := hp (arrival tree fds) ⟨trivial, trivial⟩
  unfold answer at h
  cases hrun : p (arrival tree fds) with
  | crash w => simp [hrun, replyOf] at h
  | next status w =>
    rw [hrun] at run h
    rw [← Option.some.inj h]
    exact Or.inl run
  | stop status w =>
    rw [hrun] at run h
    rw [← Option.some.inj h]
    exact Or.inr run

theorem put_status {req : Request} {tree : Node} {fds : List Nat} {written : Nat} {reply : Reply}
    (h : answer (storageHandlePut env written req) tree fds = some reply) :
    (reply.status = 200 ∨ reply.status = 201) ∨ IsError reply.status :=
  reply_status ((triple_storageHandlePut ((keptByCalls_true env _).putTo _)).mono (fun _ h => h)
    (fun _ _ h => h.1) (fun _ _ h => h.1) fun _ h => h) h

theorem delete_status {req : Request} {tree : Node} {fds : List Nat} {reply : Reply}
    (h : answer (storageHandleDelete env req) tree fds = some reply) :
    (reply.status = 200 ∨ reply.status = 201) ∨ IsError reply.status :=
  reply_status ((triple_storageHandleDelete req ((keptByCalls_true env []).deleteOf _)).mono
    (fun _ h => h) (fun _ _ h => h.1) (fun _ _ h => h.1) fun _ h => h) h

theorem modified_of_status {status : Nat} (h : (status = 200 ∨ status = 201) ∨ IsError status) :
    status ≠ 304 := by
  rcases h with (rfl | rfl) | rfl | rfl | rfl | rfl <;> simp

structure Tells (env : Env) (req : Request) (reported tree : Node) (reply : Reply) : Prop where
  sent : ∀ etag content, reply.header (str "ETag") = some etag →
    viewAt reported (targetOf env req).diskPath = some (.leaf content) →
    etag = version env.sha1 content
  notModified : ∀ content, reply.status = 304 →
    viewAt tree (targetOf env req).diskPath = some (.leaf content) →
    req.headersIn.ifNoneMatch = some (version env.sha1 content)

theorem tells_nothing {req : Request} {reported tree : Node} {status : Nat} (h : status ≠ 304) :
    Tells env req reported tree ⟨status, corsHeaders, []⟩ where
  sent := by
    intro etag content hsent
    rw [Reply.header, corsHeaders_lookup] at hsent
    cases hsent
  notModified := fun _ same => absurd same h

theorem tells_read {req : Request} {tree : Node} {fds : List Nat} {includeBody : Bool}
    {reply : Reply} (htree : Uncached tree)
    (h : answer (handleGetOrHead env includeBody req) tree fds = some reply) :
    Tells env req tree tree reply := by
  have document : ∀ content, viewAt tree (targetOf env req).diskPath = some (.leaf content) →
      (∀ etag, reply.header (str "ETag") = some etag → etag = version env.sha1 content) ∧
        (reply.status = 304 → req.headersIn.ifNoneMatch = some (version env.sha1 content)) := by
    intro content hview
    obtain ⟨x, hstat⟩ := viewAt_eq_leaf.1 hview
    obtain ⟨r, hetag⟩ := getEtag_ne_none env.sha1 hstat
    have fresh : r.1 = version env.sha1 content := getEtag_of_leaf htree hstat hetag
    rw [← fresh]
    exact answer_reads hstat hetag h
  exact ⟨fun etag content hsent hview => (document content hview).1 etag hsent,
    fun content hstatus hview => (document content hview).2 hstatus⟩

theorem tells_through (hlet : LetThrough env e.lookup e.req) (htree : Uncached s.tree) {reply : Reply}
    (h : answer (callHandler env e.written e.req) s.tree s.fds = some reply) :
    Tells env e.req (reportedTree env s e) s.tree reply := by
  unfold reportedTree
  rw [(replied_through hlet).2]
  unfold callHandler at h ⊢
  cases hmethod : e.req.method with
  | GET =>
    rw [hmethod, answer_call] at h
    rw [if_neg (by simp)]
    exact tells_read htree h
  | HEAD =>
    rw [hmethod, answer_call, storageHandleHead] at h
    rw [if_neg (by simp)]
    by_cases hexperimental : env.cfg.experimental
    · rw [if_pos hexperimental, answer_call] at h
      exact tells_read htree h
    · rw [if_neg hexperimental] at h
      rw [← Option.some.inj h]
      exact tells_nothing (by simp)
  | PUT =>
    rw [hmethod, answer_call] at h
    rw [if_pos rfl]
    refine ⟨fun etag content hsent hview => ?_, fun _ same => ?_⟩
    · refine answer_put hlet.1 htree h hsent ?_
      rw [← hview]
      simp only [call]
      cases storageHandlePut env e.written e.req (arrival s.tree s.fds) <;> rfl
    · exact absurd same (modified_of_status (put_status h))
  | DELETE =>
    rw [hmethod, answer_call] at h
    rw [if_neg (by simp)]
    refine ⟨fun etag content hsent hview => ?_, fun _ same => ?_⟩
    · have reported := (answer_delete h hsent).symm.trans (version_of_document htree hview)
      exact Option.some.inj reported
    · exact absurd same (modified_of_status (delete_status h))
  | _ =>
    rw [hmethod] at h
    rw [← Option.some.inj h]
    exact tells_nothing (by simp)

theorem listed_of_reply {req : Request} {tree : Node} {fds : List Nat} {reply : Reply}
    (htree : Uncached tree) (hfile : req.file = none)
    (h : answer (storageHandleGet env req) tree fds = some reply) (hstatus : reply.status = 200) :
    ∃ names members, opendir tree (targetOf env req).diskPath = .ok names ∧
      reply.body = objectText members ∧ List.Forall₂ (fun name member => ∀ content,
        viewAt tree ((targetOf env req).diskPath ++ name) = some (.leaf content) →
          member = (name, version env.sha1 content)) names members := by
  unfold storageHandleGet at h
  cases hstat : stat tree (targetOf env req).diskPath with
  | error e =>
    rw [answer_error req fds hstat, Option.some_inj] at h
    rw [← h] at hstatus
    cases e <;> simp [statFailed] at hstatus
  | ok kind =>
    cases kind with
    | leaf f =>
      have failed := (answer_folder_mismatch req hfile fds hstat).2
      rw [h, Option.some_inj] at failed
      rw [failed] at hstatus
      simp at hstatus
    | branch x =>
      rw [answer_folder req hfile fds hstat] at h
      rcases answer_serveDirectory env hstat fds with
        ⟨-, hcrash⟩ | ⟨names, members, etag, hdir, hall, -, hanswer⟩
      · have none := h.symm.trans hcrash
        cases none
      · have same := Option.some.inj (h.symm.trans hanswer)
        refine ⟨names, members, hdir, by rw [same], hall.imp fun name member hmember => ?_⟩
        intro content hview
        obtain ⟨view, hview', hkey, hversion⟩ := hmember
        have kind := Option.some.inj (hview'.symm.trans hview)
        rw [kind] at hkey
        have sent := Option.some.inj (hversion.symm.trans (version_of_document htree hview))
        exact Prod.ext (by simpa [Kind.isBranch] using hkey) sent

theorem fresh_of_uncached (htree : Uncached s.tree) : Fresh env s e := by
  have tells : ∀ reply, replied env s e = some reply →
      Tells env e.req (reportedTree env s e) s.tree reply := by
    intro reply hreply
    by_cases hlet : LetThrough env e.lookup e.req
    · rw [(replied_through hlet).1] at hreply
      exact tells_through hlet htree hreply
    · obtain ⟨status, -, hstatus, -, hbarred⟩ := (replied_barred (s := s) hlet).2
      rw [hbarred, Option.some_inj] at hreply
      rw [← hreply]
      exact tells_nothing hstatus
  refine ⟨fun path content => version_of_document htree, fun reply etag content hreply =>
    (tells reply hreply).sent etag content, fun reply content hreply =>
    (tells reply hreply).notModified content, fun reply hreply hstatus hmethod hfile => ?_⟩
  by_cases hlet : LetThrough env e.lookup e.req
  · rw [(replied_through hlet).1, callHandler, hmethod, answer_call] at hreply
    exact listed_of_reply htree hfile hreply hstatus
  · obtain ⟨status, -, -, hother, hbarred⟩ := (replied_barred (s := s) hlet).2
    rw [hbarred, Option.some_inj] at hreply
    rw [← hreply] at hstatus
    exact absurd hstatus hother

structure Refused (env : Env) (s : Server) (e : Event) (status : Nat) : Prop where
  barred : ¬ LetThrough env e.lookup e.req → status = 401 ∨ status = 404 ∨ status = 500
  folder : LetThrough env e.lookup e.req → e.req.file = none → status = 400
  differs : LetThrough env e.lookup e.req → e.req.file ≠ none → ∀ content,
    viewAt s.tree (targetOf env e.req).diskPath = some (.leaf content) → status = 412
  absent : LetThrough env e.lookup e.req → e.req.file ≠ none →
    viewAt s.tree (targetOf env e.req).diskPath = none →
    status = if e.req.method = .PUT then 412 else 404
  directory : LetThrough env e.lookup e.req → e.req.file ≠ none →
    viewAt s.tree (targetOf env e.req).diskPath = some (.branch ()) → IsError status

/-- Either the document is there with the content that has this version, the only one of `S`,
or the request is refused and changes nothing. -/
def Guarded (env : Env) (S : Set Bytes) (s : Server) (e : Event) (v : Bytes) : Prop :=
  (∃ content ∈ S, viewAt s.tree (targetOf env e.req).diskPath = some (.leaf content) ∧
    version env.sha1 content = v ∧ ∀ seen ∈ S, version env.sha1 seen = v → seen = content) ∨
  (plain (treeAfter env s e) = plain s.tree ∧
    ∃ reply, replied env s e = some reply ∧ Refused env s e reply.status)

structure Law (env : Env) (S : Set Bytes) (s : Server) (e : Event) : Prop where
  fresh : Fresh env s e
  guarded : e.req.method = .PUT ∨ e.req.method = .DELETE → ∀ v,
    e.req.headersIn.ifMatch = some v → Guarded env S s e v

/-- A PUT whose If-Match is the version of a directory that stands at the disk path, while a
parent of the path is missing below the storage root. -/
def Misdirected (env : Env) (s : Server) (e : Event) : Prop :=
  e.req.method = .PUT ∧ LetThrough env e.lookup e.req ∧ e.req.file ≠ none ∧
    e.req.headersIn.ifMatch ≠ none ∧
    Admitted env e.req (targetOf env e.req).diskPath s.tree ∧
    viewAt s.tree (targetOf env e.req).diskPath = some (.branch ()) ∧
    MissesParent s.tree (targetOf env e.req)

theorem guarded_of_version {S : Set Bytes} (hexact : Exact S s.tree)
    (hinj : Set.InjOn env.sha1 S) {v content : Bytes}
    (hetag : (getEtag env.sha1 s.tree (targetOf env e.req).diskPath).map Prod.fst = some v)
    (hview : viewAt s.tree (targetOf env e.req).diskPath = some (.leaf content)) :
    Guarded env S s e v := by
  have hversion : version env.sha1 content = v :=
    Option.some.inj ((version_of_document hexact.1 hview).symm.trans hetag)
  have hmem : content ∈ S := by
    rw [viewAt_eq] at hview
    cases hnamei : namei s.tree (targetOf env e.req).diskPath with
    | error error => simp [hnamei, Except.toOption] at hview
    | ok loc =>
      rw [hnamei] at hview
      exact hexact.2 loc content hview
  refine Or.inl ⟨content, hmem, hview, hversion, fun seen hseen hsame => ?_⟩
  refine hinj hseen hmem (FolderVersions.hexString_injective ?_)
  exact hsame.trans hversion.symm

theorem guarded_of_admitted {S : Set Bytes} (hexact : Exact S s.tree)
    (hinj : Set.InjOn env.sha1 S) {v : Bytes}
    (hetag : (getEtag env.sha1 s.tree (targetOf env e.req).diskPath).map Prod.fst = some v)
    (hview : viewAt s.tree (targetOf env e.req).diskPath ≠ some (.branch ())) :
    Guarded env S s e v := by
  cases hfound : viewAt s.tree (targetOf env e.req).diskPath with
  | none =>
    rw [getEtag_eq_none.2 hfound] at hetag
    cases hetag
  | some view =>
    cases view with
    | leaf content => exact guarded_of_version hexact hinj hetag hfound
    | branch u => exact absurd hfound hview

theorem not_guarded_of_changed {S : Set Bytes} {v : Bytes}
    (hview : viewAt s.tree (targetOf env e.req).diskPath = some (.branch ()))
    (hchanged : plain (treeAfter env s e) ≠ plain s.tree) : ¬ Guarded env S s e v := by
  intro guarded
  rcases guarded with ⟨content, -, hdocument, -⟩ | ⟨same, -⟩
  · have kind := Option.some.inj (hdocument.symm.trans hview)
    cases kind
  · exact hchanged same

theorem state_call (p : Handler Nat) (w : World) :
    ((call p : Handler Nat) w).state = (p w).state := by
  unfold call
  cases p w <;> rfl

theorem replied_calls (hlet : LetThrough env e.lookup e.req) {p : Handler Nat}
    (hcall : callHandler env e.written e.req = call p) :
    replied env s e = answer p s.tree s.fds ∧
      treeAfter env s e = (p (arrival s.tree s.fds)).state.tree := by
  rw [(replied_through hlet).1, (replied_through hlet).2, hcall, answer_call, state_call]
  exact ⟨rfl, rfl⟩

theorem guarded_of_stop {S : Set Bytes} {v : Bytes} {p : Handler Nat} {status : Nat} {w : World}
    (hreplied : replied env s e = answer p s.tree s.fds ∧
      treeAfter env s e = (p (arrival s.tree s.fds)).state.tree)
    (hrun : p (arrival s.tree s.fds) = .stop status w) (hplain : plain w.tree = plain s.tree)
    (hrefused : Refused env s e status) : Guarded env S s e v := by
  refine Or.inr ⟨?_, ⟨status, w.headersOut, w.bufferOut⟩, ?_, hrefused⟩
  · rw [hreplied.2, hrun]
    exact hplain
  · rw [hreplied.1, answer, hrun]
    rfl

theorem guarded_put_iff {S : Set Bytes} (hexact : Exact S s.tree) (hinj : Set.InjOn env.sha1 S)
    (hlet : LetThrough env e.lookup e.req) (hmethod : e.req.method = .PUT) {v : Bytes}
    (hmatch : e.req.headersIn.ifMatch = some v) :
    Guarded env S s e v ↔ ¬ Misdirected env s e := by
  have hreplied := replied_calls (s := s) hlet
    (p := storageHandlePut env e.written e.req) (by simp only [callHandler, hmethod])
  by_cases hfile : e.req.file = none
  · refine iff_of_true ?_ fun misdirected => misdirected.2.2.1 hfile
    refine guarded_of_stop hreplied (storageHandlePut_folder hfile _ _) rfl ?_
    exact ⟨fun barred => absurd hlet barred, fun _ _ => rfl, fun _ hsome => absurd hfile hsome,
      fun _ hsome => absurd hfile hsome, fun _ hsome => absurd hfile hsome⟩
  · rcases storageHandlePut_cases hfile hlet.1 e.written (arrival s.tree s.fds) with
      ⟨refused, w', hrun, hplain, -⟩ | ⟨admitted, hclosed, status, w', herror, hrun, hplain, -⟩ |
        ⟨admitted, opens, -⟩
    · refine iff_of_true ?_ fun misdirected => refused misdirected.2.2.2.2.1
      refine guarded_of_stop hreplied hrun hplain ?_
      exact ⟨fun barred => absurd hlet barred, fun _ hnone => absurd hnone hfile,
        fun _ _ _ _ => rfl, fun _ _ _ => by rw [if_pos hmethod], fun _ _ _ => by simp [IsError]⟩
    · have guarded := guarded_of_admitted hexact hinj (admitted.1 v hmatch)
      by_cases hview : viewAt s.tree (targetOf env e.req).diskPath = some (.branch ())
      · by_cases hmisses : MissesParent s.tree (targetOf env e.req)
        · refine iff_of_false (not_guarded_of_changed hview fun same => ?_) ?_
          · rw [hreplied.2, hrun] at same
            refine (plain_parentsMade_iff s.tree _).1 ?_ hmisses
            exact hplain.symm.trans same
          · rw [not_not]
            exact ⟨hmethod, hlet, hfile, by simp [hmatch], admitted, hview, hmisses⟩
        · refine iff_of_true ?_ fun misdirected => hmisses misdirected.2.2.2.2.2.2
          have unchanged : plain w'.tree = plain s.tree :=
            hplain.trans ((plain_parentsMade_iff s.tree _).2 hmisses)
          refine guarded_of_stop hreplied hrun unchanged ?_
          exact ⟨fun barred => absurd hlet barred, fun _ hnone => absurd hnone hfile,
            fun _ _ _ hleaf => by simp [hview] at hleaf, fun _ _ hnone => by simp [hview] at hnone,
            fun _ _ _ => herror⟩
      · exact iff_of_true (guarded hview) fun misdirected => hview misdirected.2.2.2.2.2.1
    · have hview : viewAt s.tree (targetOf env e.req).diskPath ≠ some (.branch ()) :=
        fun hbranch => not_opens_of_branch hbranch opens
      exact iff_of_true (guarded_of_admitted hexact hinj (admitted.1 v hmatch) hview)
        fun misdirected => hview misdirected.2.2.2.2.2.1

theorem guarded_delete {S : Set Bytes} (hexact : Exact S s.tree) (hinj : Set.InjOn env.sha1 S)
    (hlet : LetThrough env e.lookup e.req) (hmethod : e.req.method = .DELETE) {v : Bytes}
    (hmatch : e.req.headersIn.ifMatch = some v) : Guarded env S s e v := by
  have hreplied := replied_calls (s := s) hlet
    (p := storageHandleDelete env e.req) (by simp only [callHandler, hmethod])
  by_cases hfile : e.req.file = none
  · refine guarded_of_stop hreplied (storageHandleDelete_folder hfile _) rfl ?_
    exact ⟨fun barred => absurd hlet barred, fun _ _ => rfl, fun _ hsome => absurd hfile hsome,
      fun _ hsome => absurd hfile hsome, fun _ hsome => absurd hfile hsome⟩
  · rcases storageHandleDelete_cases hfile (arrival s.tree s.fds) with
      ⟨-, w', hrun, hplain, -⟩ | ⟨deletable, -⟩
    · refine guarded_of_stop hreplied hrun hplain ?_
      refine ⟨fun barred => absurd hlet barred, fun _ hnone => absurd hnone hfile,
        fun _ _ content hleaf => ?_, fun _ _ hnone => ?_, fun _ _ _ => isError_refusal _⟩
      · rw [show (arrival s.tree s.fds).tree = s.tree from rfl, hleaf]
        rfl
      · rw [show (arrival s.tree s.fds).tree = s.tree from rfl, hnone, hmethod]
        rfl
    · obtain ⟨content, hview⟩ := deletable.1
      exact guarded_of_version hexact hinj (deletable.2 v hmatch) hview

theorem guarded_barred {S : Set Bytes} (h : ¬ LetThrough env e.lookup e.req)
    (hmethod : e.req.method = .PUT ∨ e.req.method = .DELETE) (v : Bytes) : Guarded env S s e v := by
  obtain ⟨same, status, hstatus, -, -, hreply⟩ := replied_barred (s := s) h
  have known : e.req.method ≠ .OPTIONS := by
    intro hoptions
    simp [hoptions] at hmethod
  refine Or.inr ⟨by rw [same], _, hreply, ?_⟩
  exact ⟨fun _ => hstatus known, fun hlet => absurd hlet h, fun hlet => absurd hlet h,
    fun hlet => absurd hlet h, fun hlet => absurd hlet h⟩

theorem law_iff {S : Set Bytes} (hexact : Exact S s.tree) (hinj : Set.InjOn env.sha1 S) :
    Law env S s e ↔ ¬ Misdirected env s e := by
  constructor
  · intro law misdirected
    have hmethod := misdirected.1
    have hlet := misdirected.2.1
    cases hmatch : e.req.headersIn.ifMatch with
    | none => exact misdirected.2.2.2.1 hmatch
    | some v =>
      have guarded := law.guarded (Or.inl hmethod) v hmatch
      exact (guarded_put_iff hexact hinj hlet hmethod hmatch).1 guarded misdirected
  · intro directed
    refine ⟨fresh_of_uncached hexact.1, fun hmethod v hmatch => ?_⟩
    by_cases hlet : LetThrough env e.lookup e.req
    · rcases hmethod with hput | hdelete
      · exact (guarded_put_iff hexact hinj hlet hput hmatch).2 directed
      · exact guarded_delete hexact hinj hlet hdelete hmatch
    · exact guarded_barred hlet hmethod v

/-- In a run from a state without versions in attributes, clients see the versions of the
contents and If-Match guards every request, if and only if no PUT is misdirected. -/
theorem noLostUpdate_iff {S : Set Bytes} {events : List Event} (h : Started env S s events) :
    (∀ step ∈ attempted env s events, Law env S step.1 step.2) ↔
      ∀ step ∈ attempted env s events, ¬ Misdirected env step.1 step.2 := by
  refine forall_congr' fun step => forall_congr' fun hstep => ?_
  exact law_iff (exact_of_attempted h hstep) h.injective

def sampleContents : Set Bytes := {[], str "hello"}

def Sample (kind : Stat) : Prop :=
  (kindXattrs kind).etag = none ∧ ∀ content, plainKind kind = .leaf content → content ∈ sampleContents

theorem sample_folder {entries : List (Bytes × Node)}
    (h : ∀ entry ∈ entries, ∀ q kind, entry.2.look q = some kind → Sample kind) :
    ∀ q kind, (folder entries).look q = some kind → Sample kind := by
  refine forall_look_branch ⟨rfl, fun content hleaf => ?_⟩ h
  cases hleaf

theorem sample_only {name : Bytes} {child : Node}
    (h : ∀ q kind, child.look q = some kind → Sample kind) :
    ∀ q kind, (folder [(name, child)]).look q = some kind → Sample kind :=
  sample_folder (List.forall_mem_singleton.2 h)

theorem started_sample {tree : Node} (h : ∀ q kind, tree.look q = some kind → Sample kind)
    {events : List Event} (hevents : ∀ e ∈ events, e.req.bufferIn.take e.written ∈ sampleContents) :
    Started sampleEnv sampleContents ⟨tree, [0, 1, 2]⟩ events where
  unset := fun loc kind hlook => (h loc kind hlook).1
  contents := by
    intro loc content hplain
    rw [plain, Option.map_eq_some_iff] at hplain
    obtain ⟨kind, hlook, hkind⟩ := hplain
    exact (h loc kind hlook).2 content hkind
  empty := Or.inl rfl
  stored := hevents
  injective := by
    intro a ha b hb hsame
    rcases ha with rfl | rfl
    · rcases hb with rfl | rfl
      · rfl
      · exact absurd hsame (by decide)
    · rcases hb with rfl | rfl
      · exact absurd hsame (by decide)
      · rfl

def helloVersion : Bytes := str "aaf4c61ddcc5e8a2dabede0f3b482cd9aea9434d"

def emptyingPut : Event where
  lookup := oneRecord
  written := 0
  req := { samplePut (str "/a/b") (str "b") with
    headersIn := ⟨some (str "Bearer t"), some helloVersion, none, some (str "text/plain")⟩
    bufferIn := [] }

theorem noLostUpdate_sample :
    Started sampleEnv sampleContents ⟨oneDocument, [0, 1, 2]⟩ [emptyingPut, emptyingPut] ∧
      ∀ step ∈ attempted sampleEnv ⟨oneDocument, [0, 1, 2]⟩ [emptyingPut, emptyingPut],
        Law sampleEnv sampleContents step.1 step.2 := by
  have started : Started sampleEnv sampleContents ⟨oneDocument, [0, 1, 2]⟩
      [emptyingPut, emptyingPut] := by
    refine started_sample ?_ fun e he => ?_
    · refine sample_only (sample_only (sample_only (sample_only (sample_only (forall_look_leaf ?_)))))
      refine ⟨rfl, fun content hleaf => ?_⟩
      rw [plainKind, Kind.leaf.injEq] at hleaf
      exact Or.inr hleaf.symm
    · simp only [List.mem_cons, List.not_mem_nil, or_false, or_self] at he
      subst he
      exact Or.inl rfl
  refine ⟨started, (noLostUpdate_iff started).2 fun step hstep misdirected => ?_⟩
  have documents : ∀ step ∈ attempted sampleEnv ⟨oneDocument, [0, 1, 2]⟩
      [emptyingPut, emptyingPut], viewAt step.1.tree (targetOf sampleEnv step.2.req).diskPath ≠
        some (.branch ()) := by decide +kernel
  exact documents step hstep misdirected.2.2.2.2.2.1

def rootRecord (user token : Bytes) : Option RsAuthorization :=
  if token = str "t" then some ⟨user, token, [⟨[], 1⟩]⟩ else none

def twoRoots : Node :=
  homeOf (str "me") [(str "storage", folder []), (str "storagex", folder [(str "y", folder [])])]

def misdirectedPut : Event where
  lookup := rootRecord
  written := 5
  req := { samplePut (str "/..x/y") (str "y") with
    headersIn := ⟨some (str "Bearer t"), some (str "da39a3ee5e6b4b0d3255bfef95601890afd80709"), none,
      some (str "text/plain")⟩ }

theorem misdirectedPut_changes :
    misdirectedPut.req.Parsed ∧
      Started sampleEnv sampleContents ⟨twoRoots, [0, 1, 2]⟩ [misdirectedPut] ∧
      ¬ ∀ step ∈ attempted sampleEnv ⟨twoRoots, [0, 1, 2]⟩ [misdirectedPut],
        Law sampleEnv sampleContents step.1 step.2 := by
  refine ⟨⟨by decide, by decide⟩, ?_, ?_⟩
  · refine started_sample ?_ (List.forall_mem_singleton.2 (Or.inr (by decide)))
    refine sample_only (sample_only (sample_folder ?_))
    have empty : ∀ q kind, (folder []).look q = some kind → Sample kind := sample_folder (by simp)
    exact List.forall_mem_cons.2 ⟨empty, List.forall_mem_singleton.2 (sample_only empty)⟩
  · intro law
    have first : (⟨twoRoots, [0, 1, 2]⟩, misdirectedPut) ∈
        attempted sampleEnv ⟨twoRoots, [0, 1, 2]⟩ [misdirectedPut] := by
      rw [attempted]
      exact List.mem_cons_self
    rcases (law _ first).guarded (Or.inl rfl) _ rfl with ⟨content, -, hview, -⟩ | ⟨same, -⟩
    · have directory : viewAt twoRoots (targetOf sampleEnv misdirectedPut.req).diskPath =
        some (.branch ()) := by decide +kernel
      have kind := Option.some.inj (hview.symm.trans directory)
      cases kind
    · have there := congrFun same [str "home", str "me", str "storage", str "x"]
      exact absurd there (by decide +kernel)

end RsServe.ConditionalWrites
