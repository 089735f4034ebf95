import RsServe.Histories
import RsServe.MediaTypes

/-! What a GET answers for the content type that a PUT was given, after other requests. -/

namespace RsServe.StoredTypes
open CString NameTree TreeWalk Kernel Attributes Stamping DiskPath EarlyExit Storage StorageRules
open Users Authorize Dispatch Parents PutResults Responses ConditionalWrites Histories MediaTypes

variable {env : Env} {P : Bytes → Prop} {loc : Loc}

def documentOf (env : Env) (req : Request) : Loc := resolved (targetOf env req).diskPath

/-- There is a document whose attributes show a content type, which is one of `P`. -/
def ShowsType (P : Bytes → Prop) (loc : Loc) (tree : Node) : Prop :=
  ∃ f value, tree.look loc = some (.leaf f) ∧ contentTypeFromXattr f.xattrs = some value ∧ P value

theorem showsType_of_legible {tree tree' : Node} (h : ShowsType P loc tree)
    (hlegible : legible tree' = legible tree) : ShowsType P loc tree' := by
  obtain ⟨f, value, hf, hvalue, hP⟩ := h
  have same := get?_of_legible hlegible loc
  rw [get?_of_look_leaf hf, Option.map_some, Option.map_eq_some_iff] at same
  obtain ⟨n', hn', hsame⟩ := same
  cases n' with
  | branch entries x => cases hsame
  | leaf g' =>
    simp only [legible, Tree.leaf.injEq, FileData.mk.injEq] at hsame
    refine ⟨g', value, by rw [Tree.look, hn']; rfl, ?_, hP⟩
    have legibles := congrArg contentTypeFromXattr hsame.2
    exact legibles.trans hvalue

theorem stampable_showsType (env : Env) : Stampable env (ShowsType P loc) :=
  fun _ _ _ h hr => showsType_of_legible h (legible_getEtag env.sha1_length hr)

def ShownThere (P : Bytes → Prop) (loc q : Loc) (found : Option Stat) : Prop :=
  q = loc → ∃ f value, found = some (.leaf f) ∧ contentTypeFromXattr f.xattrs = some value ∧ P value

theorem showsType_eq (P : Bytes → Prop) (loc : Loc) :
    ShowsType P loc = AtEach (ShownThere P loc) := by
  funext tree
  refine propext ⟨fun h q hq => ?_, fun h => h loc rfl⟩
  rw [hq]
  exact h

theorem ShownThere.replaced {q : Loc} {found : Option Stat} (h : ShownThere P loc q found)
    (hfound : ∀ f, found ≠ some (.leaf f)) (found' : Option Stat) : ShownThere P loc q found' := by
  intro hq
  obtain ⟨f, value, hf, -⟩ := h hq
  exact absurd hf (hfound f)

theorem keptByPutTo_showsType (env : Env) {diskPath : Bytes} (hother : resolved diskPath ≠ loc)
    (stored : Bytes) : KeptByPutTo env diskPath stored (ShowsType P loc) := by
  have hstamp : Stampable env (ShowsType P loc) := stampable_showsType env
  rw [showsType_eq] at hstamp ⊢
  refine keptByPutTo_atEach ⟨?_, ?_, ?_, ?_⟩ hstamp
  · exact fun q h => h.replaced (by simp) _
  · exact fun q h => h.replaced (by simp) _
  · intro q f content _ h hq
    obtain ⟨f', value, hf, hvalue, hP⟩ := h hq
    obtain rfl : f = f' := by simpa using hf
    exact ⟨_, value, rfl, hvalue, hP⟩
  · intro q contentType g kind hplace _ _ hq
    exact absurd (hplace.symm.trans hq) hother

theorem keptByDeleteOf_showsType (env : Env) {diskPath : Bytes} (hother : resolved diskPath ≠ loc) :
    KeptByDeleteOf env diskPath (ShowsType P loc) := by
  have hstamp : Stampable env (ShowsType P loc) := stampable_showsType env
  rw [showsType_eq] at hstamp ⊢
  refine keptByDeleteOf_atEach ⟨?_, ?_⟩ hstamp
  · intro q f hplace _ hq
    exact absurd (hplace.symm.trans hq) hother
  · exact fun q x h => h.replaced (by simp) _

def Passes (env : Env) (loc : Loc) (req : Request) : Prop :=
  req.method = .PUT ∨ req.method = .DELETE → documentOf env req ≠ loc

theorem keptByRequest_showsType {written : Nat} {req : Request} (h : Passes env loc req) :
    KeptByRequest env written req (ShowsType P loc) where
  stamp := stampable_showsType env
  put := fun hmethod => keptByPutTo_showsType env (h (Or.inl hmethod)) _
  delete := fun hmethod => keptByDeleteOf_showsType env (h (Or.inr hmethod))

theorem run_showsType {events : List Event} (hevents : ∀ e ∈ events, Passes env loc e.req)
    {s s' : Server} (hs : ShowsType P loc s.tree) (hrun : events.foldlM (serve env) s = some s') :
    ShowsType P loc s'.tree := by
  induction events generalizing s with
  | nil =>
    rw [List.foldlM_nil, Option.pure_def, Option.some_inj] at hrun
    rw [← hrun]
    exact hs
  | cons e events ih =>
    rw [List.foldlM_cons, Option.bind_eq_bind, Option.bind_eq_some_iff] at hrun
    obtain ⟨next, hserve, hrest⟩ := hrun
    have kept := serve_kept (keptByRequest_showsType (hevents e List.mem_cons_self)) hs hserve
    exact ih (fun e' he' => hevents e' (List.mem_cons_of_mem e he')) kept hrest

theorem triple_storeBody_shows {written : Nat} {req : Request} {diskPath : Bytes} {opened : Opened}
    {g : Xattrs → Xattrs}
    (htype : contentTypeToXattr (req.headersIn.contentType.getD defaultContentType) = some g)
    (hshown : ∀ x, ∃ value, contentTypeFromXattr (g x) = some value ∧ P value) :
    Triple (fun w => namei w.tree diskPath = .ok opened.loc ∧
        ∃ f, w.tree.look opened.loc = some (.leaf f))
      (storeBody env written req diskPath opened) (fun _ => OnTree (ShowsType P opened.loc))
      (Failed fun _ => True) fun _ => True := by
  have hI : Stampable env (ShowsType P opened.loc) := stampable_showsType env
  refine triple_seq (triple_update fun w hw => ?_) fun _ => ?_
  · obtain ⟨hnamei, f, hf⟩ := hw
    refine ⟨?_, _, look_write hf _⟩
    rw [← hnamei, namei, namei, lookupAt, lookupAt, shape_write]
  have stores : Triple (fun w => namei w.tree diskPath = .ok opened.loc ∧
        ∃ f, w.tree.look opened.loc = some (.leaf f))
      (storeContentType diskPath (req.headersIn.contentType.getD defaultContentType))
      (fun _ => OnTree (ShowsType P opened.loc)) (Failed fun _ => True) fun _ => True := by
    unfold storeContentType
    rw [htype]
    refine triple_update fun w hw => ⟨?_, trivial⟩
    obtain ⟨hnamei, f, hf⟩ := hw
    obtain ⟨value, hvalue, hP⟩ := hshown f.xattrs
    exact ⟨_, value, look_setxattr hnamei hf g, hvalue, hP⟩
  refine triple_bind stores fun _ => ?_
  refine triple_seq (triple_closeFd _) fun _ => ?_
  refine triple_seq (triple_attempt (fun w kind hw _ => hw)
    fun w e hw _ => ⟨by simp [IsError], trivial⟩) fun kind => ?_
  refine triple_seq (triple_etagOf hI diskPath) fun found => ?_
  refine triple_seq (triple_deref (fun w etag hw _ => hw) fun _ _ _ => trivial) fun etag => ?_
  refine triple_seq (triple_update fun w hw => hw) fun _ => ?_
  refine triple_seq (triple_update fun w hw => hw) fun _ => ?_
  exact triple_pure fun w hw => hw

theorem triple_storageHandlePut_shows (written : Nat) {req : Request} {g : Xattrs → Xattrs}
    (hverify : verifyUser env.getpwnam req.user = 0)
    (htype : contentTypeToXattr (req.headersIn.contentType.getD defaultContentType) = some g)
    (hshown : ∀ x, ∃ value, contentTypeFromXattr (g x) = some value ∧ P value) :
    Triple (fun _ => True) (storageHandlePut env written req)
      (fun _ => OnTree (ShowsType P (documentOf env req))) (Failed fun _ => True)
      fun _ => True := by
  intro w _
  by_cases hfile : req.file = none
  · rw [storageHandlePut_folder hfile]
    exact ⟨by simp [IsError], trivial⟩
  · obtain ⟨pw, hfound⟩ := userGetEntry_of_verified env.getpwnam hverify
    have steps : storageHandlePut env written req = (openTarget env req (targetOf env req) >>=
        fun opened => storeBody env written req (targetOf env req).diskPath opened) := if_neg hfile
    rw [steps]
    rcases openTarget_run hfound (targetOf env req) w with
      ⟨-, w', hopen, -⟩ | ⟨-, -, status, w', herror, hopen, -⟩ |
        ⟨-, -, opened, w', hopen, reached, -⟩
    · rw [bind_of_stop hopen]
      exact ⟨by simp [IsError], trivial⟩
    · rw [bind_of_stop hopen]
      exact ⟨herror, trivial⟩
    · obtain ⟨x, hlook, -⟩ := reached.look
      have place : opened.loc = documentOf env req := namei_resolved reached.namei
      rw [bind_of_next hopen, ← place]
      exact triple_storeBody_shows htype hshown w' ⟨reached.namei, _, hlook⟩

theorem put_shows {s : Server} {e : Event} {g : Xattrs → Xattrs} {reply : Reply}
    (hmethod : e.req.method = .PUT)
    (htype : contentTypeToXattr (e.req.headersIn.contentType.getD defaultContentType) = some g)
    (hshown : ∀ x, ∃ value, contentTypeFromXattr (g x) = some value ∧ P value)
    (hreply : replied env s e = some reply) (hstatus : reply.status = 200 ∨ reply.status = 201) :
    ShowsType P (documentOf env e.req) (treeAfter env s e) := by
  by_cases hlet : LetThrough env e.lookup e.req
  · have hreplied := replied_calls (s := s) hlet
      (p := storageHandlePut env e.written e.req) (by simp only [callHandler, hmethod])
    have run := triple_storageHandlePut_shows e.written hlet.1 htype hshown
      (arrival s.tree s.fds) trivial
    rw [hreplied.1, answer] at hreply
    rw [hreplied.2]
    cases hput : storageHandlePut env e.written e.req (arrival s.tree s.fds) with
    | next status w =>
      rw [hput] at run
      exact run.1
    | stop status w =>
      rw [hput] at run hreply
      rw [← Option.some.inj hreply] at hstatus
      have herror : IsError status := run.1
      rcases hstatus with rfl | rfl
      · simp [IsError] at herror
      · simp [IsError] at herror
    | crash w =>
      rw [hput] at hreply
      cases hreply
  · obtain ⟨status, hother, -, -, hbarred⟩ := (replied_barred (s := s) hlet).2
    rw [hbarred, Option.some_inj] at hreply
    rw [← hreply] at hstatus
    have refused := hother (by simp [hmethod])
    simp only at hstatus
    omega

theorem detectedType_shows {tree : Node} {path : Bytes} (h : ShowsType P loc tree)
    (hnamei : namei tree path = .ok loc) : P (detectedType env path tree) := by
  obtain ⟨f, value, hf, hvalue, hP⟩ := h
  have hstat : stat tree path = .ok (.leaf f) := stat_eq_ok.2 ⟨loc, hnamei, hf⟩
  have hdetected : detectedType env path tree = value := by
    simp only [detectedType, getxattrs, hstat, Option.bind_some, hvalue]
  rwa [hdetected]

theorem get_shows {s : Server} {e : Event} (h : ShowsType P (documentOf env e.req) s.tree)
    (hmethod : e.req.method = .GET) :
    ∃ reply, replied env s e = some reply ∧
      (reply.status = 200 → ∃ value, reply.header (str "Content-Type") = some value ∧ P value) ∧
      (LetThrough env e.lookup e.req → (stat s.tree (targetOf env e.req).diskPath).isOk →
        e.req.file ≠ none → e.req.headersIn.ifNoneMatch = none → reply.status = 200) := by
  by_cases hlet : LetThrough env e.lookup e.req
  · rw [(replied_calls (s := s) hlet (p := storageHandleGet env e.req)
      (by simp only [callHandler, hmethod])).1, storageHandleGet]
    cases hstat : stat s.tree (targetOf env e.req).diskPath with
    | error error =>
      refine ⟨_, answer_error e.req s.fds hstat true, fun hstatus => ?_, fun _ hok => ?_⟩
      · cases error <;> simp [statFailed] at hstatus
      · cases hok
    | ok kind =>
      obtain ⟨file, hnamei, hlook⟩ := stat_eq_ok.1 hstat
      have place : file = documentOf env e.req := namei_resolved hnamei
      subst place
      obtain ⟨f, value, hf, -⟩ := id h
      obtain rfl : kind = .leaf f := Option.some.inj (hlook.symm.trans hf)
      by_cases hfile : e.req.file = none
      · refine ⟨_, (answer_folder_mismatch e.req hfile s.fds hstat).2, fun hstatus => ?_,
          fun _ _ hsome => absurd hfile hsome⟩
        simp at hstatus
      · obtain ⟨r, hetag⟩ := getEtag_ne_none env.sha1 hstat
        have run := answer_document e.req hfile s.fds hstat hetag true
        by_cases hmatch : e.req.headersIn.ifNoneMatch = some r.1
        · rw [if_pos hmatch] at run
          refine ⟨_, run, fun hstatus => ?_, fun _ _ _ hnone => ?_⟩
          · simp at hstatus
          · rw [hnone] at hmatch
            cases hmatch
        · rw [if_neg hmatch] at run
          refine ⟨_, run, fun _ => ⟨_, rfl, ?_⟩, fun _ _ _ _ => rfl⟩
          refine detectedType_shows (stampable_showsType env _ _ r h hetag) ?_
          rw [namei_congr (plain_getEtag hetag)]
          exact hnamei
  · obtain ⟨status, -, -, hother, hbarred⟩ := (replied_barred (s := s) hlet).2
    exact ⟨_, hbarred, fun hstatus => absurd hstatus hother, fun through => absurd through hlet⟩

structure RoundTrip (env : Env) (contentType : Bytes) where
  start : Server
  put : Event
  putMethod : put.req.method = .PUT
  header : put.req.headersIn.contentType = some contentType
  nulFree : NulFree contentType
  succeeds : ∃ reply, replied env start put = some reply ∧
    (reply.status = 200 ∨ reply.status = 201)
  stored : Server
  serves : serve env start put = some stored
  between : List Event
  passes : ∀ e ∈ between, Passes env (documentOf env put.req) e.req
  later : Server
  run : between.foldlM (serve env) stored = some later
  get : Event
  getMethod : get.req.method = .GET
  same : documentOf env get.req = documentOf env put.req

/-- Every content type with a media type comes back with all its parameters. -/
def TypesSurvive (env : Env) : Prop :=
  ∀ (contentType : Bytes) (trip : RoundTrip env contentType), mediaTypeOf contentType ≠ [] →
    ∃ reply, replied env trip.later trip.get = some reply ∧
      (reply.status = 200 → ∃ value, reply.header (str "Content-Type") = some value ∧
        Survives contentType value)

theorem contentTypeToXattr_ne_none {contentType : Bytes} (h : mediaTypeOf contentType ≠ []) :
    ∃ g, contentTypeToXattr contentType = some g := by
  rw [contentTypeToXattr, mediaType_eq h]
  exact ⟨_, rfl⟩

/-- A later GET that answers the document answers the media type that the PUT was given, and of the
parameters the charset with those behind it. -/
theorem contentType_kept {contentType : Bytes} (trip : RoundTrip env contentType)
    (hmedia : mediaTypeOf contentType ≠ []) (hlen : (typeText contentType).length ≤ 127) :
    ∃ reply, replied env trip.later trip.get = some reply ∧
      (reply.status = 200 → ∃ value, reply.header (str "Content-Type") = some value ∧
        Keeps contentType value) ∧
      (LetThrough env trip.get.lookup trip.get.req →
        (stat trip.later.tree (targetOf env trip.get.req).diskPath).isOk →
          trip.get.req.file ≠ none → trip.get.req.headersIn.ifNoneMatch = none →
            reply.status = 200) := by
  obtain ⟨g, hg⟩ := contentTypeToXattr_ne_none hmedia
  have htype : contentTypeToXattr (trip.put.req.headersIn.contentType.getD defaultContentType) =
      some g := by
    rw [trip.header]
    exact hg
  obtain ⟨reply, hreply, hstatus⟩ := trip.succeeds
  have stored := put_shows trip.putMethod htype
    (keeps_of_stored trip.nulFree hmedia hlen hg) hreply hstatus
  obtain ⟨s', hserve, htree⟩ := serve_of_replied hreply
  have same : s' = trip.stored := Option.some.inj (hserve.symm.trans trip.serves)
  rw [← htree, same] at stored
  have later := run_showsType trip.passes stored trip.run
  rw [← trip.same] at later
  exact get_shows later trip.getMethod

def sampleType : Bytes := str "text/plain; format=flowed; charset=utf-8; delsp=yes"

def typedPut : Event where
  lookup := oneRecord
  written := 5
  req := { samplePut (str "/a/b") (str "b") with
    headersIn := ⟨some (str "Bearer t"), none, none, some sampleType⟩ }

def otherPut : Event where
  lookup := oneRecord
  written := 5
  req := samplePut (str "/a/c") (str "c")

theorem typedPut_replied :
    (replied sampleEnv ⟨emptyHome, [0, 1, 2]⟩ typedPut).map Reply.status = some 201 := by
  decide +kernel

theorem typedPut_served : (serve sampleEnv ⟨emptyHome, [0, 1, 2]⟩ typedPut).isSome := by
  obtain ⟨reply, hreply, -⟩ := Option.map_eq_some_iff.1 typedPut_replied
  obtain ⟨stored, hserve, -⟩ := serve_of_replied hreply
  rw [hserve]
  rfl

def afterTyped : Server := Option.get _ typedPut_served

theorem otherPut_served : (serve sampleEnv afterTyped otherPut).isSome := by decide +kernel

def afterOther : Server := Option.get _ otherPut_served

def sampleTrip : RoundTrip sampleEnv sampleType where
  start := ⟨emptyHome, [0, 1, 2]⟩
  put := typedPut
  putMethod := rfl
  header := rfl
  nulFree := by decide +kernel
  succeeds := by
    obtain ⟨reply, hreply, hstatus⟩ := Option.map_eq_some_iff.1 typedPut_replied
    exact ⟨reply, hreply, Or.inr hstatus⟩
  stored := afterTyped
  serves := (Option.some_get typedPut_served).symm
  between := [otherPut]
  passes := List.forall_mem_singleton.2 fun _ => by decide +kernel
  later := afterOther
  run := by
    rw [List.foldlM_cons, ← Option.some_get otherPut_served]
    rfl
  get := sampleExchange .GET
  getMethod := rfl
  same := rfl

theorem sampleTrip_answer :
    (replied sampleEnv sampleTrip.later sampleTrip.get).map (fun reply =>
      (reply.status, reply.header (str "Content-Type"))) =
        some (200, some (str "text/plain; charset=utf-8; delsp=yes")) := by
  decide +kernel

theorem contentType_kept_sample :
    mediaTypeOf sampleType ≠ [] ∧ (typeText sampleType).length ≤ 127 ∧
      (LetThrough sampleEnv sampleTrip.get.lookup sampleTrip.get.req ∧
        (stat sampleTrip.later.tree (targetOf sampleEnv sampleTrip.get.req).diskPath).isOk) ∧
      ∃ reply, replied sampleEnv sampleTrip.later sampleTrip.get = some reply ∧
        reply.status = 200 ∧ ∃ value, reply.header (str "Content-Type") = some value ∧
          Keeps sampleType value := by
  have through : LetThrough sampleEnv sampleTrip.get.lookup sampleTrip.get.req ∧
      (stat sampleTrip.later.tree (targetOf sampleEnv sampleTrip.get.req).diskPath).isOk :=
    ⟨⟨by decide +kernel, by decide +kernel⟩, by decide +kernel⟩
  obtain ⟨reply, hreply, hshown, hanswered⟩ :=
    contentType_kept sampleTrip (by decide +kernel) (by decide +kernel)
  have hstatus := hanswered through.1 through.2 (by decide +kernel) rfl
  exact ⟨by decide +kernel, by decide +kernel, through, reply, hreply, hstatus, hshown hstatus⟩

theorem format_parameter_lost : ¬ TypesSurvive sampleEnv := by
  intro survive
  obtain ⟨reply, hreply, hshown⟩ := survive sampleType sampleTrip (by decide +kernel)
  have answered := sampleTrip_answer
  rw [hreply, Option.map_some, Option.some_inj, Prod.mk.injEq] at answered
  obtain ⟨value, hvalue, survives⟩ := hshown answered.1
  have same := Option.some.inj (hvalue.symm.trans answered.2)
  have kept := survives.kept (str "format=flowed") (by decide +kernel)
  rw [same] at kept
  exact absurd kept (by decide +kernel)

end RsServe.StoredTypes
