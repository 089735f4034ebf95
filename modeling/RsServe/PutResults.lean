import RsServe.Dispatch
import RsServe.Parents

/-! What a PUT leaves behind: the file it was to write, or nothing. -/

namespace RsServe.PutResults
open CString NameTree TreeWalk Kernel Attributes Stamping Descriptors DiskPath Dirname EarlyExit
open Storage StorageRules Dispatch Parents

variable {env : Env}

def cachedAt (tree : Node) (loc : Loc) : Option Bytes :=
  (tree.look loc).bind fun kind => getXattr (kindXattrs kind).etag 41

theorem cachedAt_of_legible {tree tree' : Node} (h : legible tree = legible tree') :
    cachedAt tree = cachedAt tree' := by
  funext loc
  have same := congrArg (Option.bind · fun n : Node => (kindXattrs n.kind).etag)
    (get?_of_legible h loc)
  simp only [Option.bind_map] at same
  simp only [cachedAt, Tree.look, Option.bind_map, Function.comp_def, getXattr_kind]
  simpa [Function.comp_def] using same

theorem keptByPutTo_cachedAt (env : Env) (diskPath stored : Bytes) (tree : Node) :
    KeptByPutTo env diskPath stored fun tree' => ∀ loc, cachedAt tree' loc = cachedAt tree loc := by
  let P : Loc → Option Stat → Prop := fun loc found =>
    found.bind (fun kind => getXattr (kindXattrs kind).etag 41) = cachedAt tree loc
  have hstamp : Stampable env (AtEach P) := by
    intro tree₁ path r h hr loc
    exact (congrFun (cachedAt_of_legible (legible_getEtag env.sha1_length hr)) loc).trans (h loc)
  refine keptByPutTo_atEach ⟨?_, ?_, ?_, ?_⟩ hstamp
  · intro loc h
    exact h
  · intro loc h
    exact h
  · intro loc f content _ h
    exact h
  · intro loc contentType g kind _ hg h
    have same := contentTypeToXattr_etag hg (kindXattrs kind)
    refine Eq.trans ?_ h
    cases kind <;> exact congrArg (getXattr · 41) same

def Admitted (env : Env) (req : Request) (diskPath : Bytes) (tree : Node) : Prop :=
  (∀ e, req.headersIn.ifMatch = some e → (getEtag env.sha1 tree diskPath).map Prod.fst = some e) ∧
    (req.headersIn.ifNoneMatch = some (str "*") → viewAt tree diskPath = none)

def admission (env : Env) (req : Request) (diskPath : Bytes) : Handler Bool := do
  let existed ← EarlyExit.read fun w => (stat w.tree diskPath).isOk
  checkIfMatch env diskPath existed req.headersIn.ifMatch
  checkIfNoneMatch existed req.headersIn.ifNoneMatch
  needUserEntry env req.user
  pure existed

def openFile (diskPath : Bytes) (existed : Bool) : Handler Opened := do
  let created ← attempt 500 fun w => openCreate w.tree diskPath
  setTree created.2
  let fd ← openFd
  pure ⟨existed, fd, created.1⟩

theorem openTarget_eq (env : Env) (req : Request) (target : Target) :
    openTarget env req target = (admission env req target.diskPath >>= fun existed =>
      createParents target >>= fun _ => openFile target.diskPath existed) := by
  unfold admission
  simp only [bind_bind]
  rfl

theorem isOk_eq_true {tree : Node} {path : Bytes} :
    (stat tree path).isOk = true ↔ viewAt tree path ≠ none := by
  unfold viewAt
  cases stat tree path <;> simp [Except.isOk, Except.toBool, Except.toOption]

def Stamped (w w' : World) : Prop :=
  legible w'.tree = legible w.tree ∧ w'.headersOut = w.headersOut ∧ w'.bufferOut = w.bufferOut

theorem Stamped.refl (w : World) : Stamped w w := ⟨rfl, rfl, rfl⟩

theorem checkIfMatch_run (diskPath : Bytes) (ifMatch : Option Bytes) (w : World) :
    (¬ (∀ e, ifMatch = some e → (getEtag env.sha1 w.tree diskPath).map Prod.fst = some e) ∧
      ∃ w', checkIfMatch env diskPath (stat w.tree diskPath).isOk ifMatch w = .stop 412 w' ∧
        Stamped w w' ∧ Leaves (ifMatch ≠ none ∧ Computes w.tree diskPath) w.fds w'.fds) ∨
    ((∀ e, ifMatch = some e → (getEtag env.sha1 w.tree diskPath).map Prod.fst = some e) ∧
      ∃ w', checkIfMatch env diskPath (stat w.tree diskPath).isOk ifMatch w = .next () w' ∧
        Stamped w w' ∧ Leaves (ifMatch ≠ none ∧ Computes w.tree diskPath) w.fds w'.fds) := by
  cases ifMatch with
  | none =>
    exact Or.inr ⟨by simp, w, rfl, Stamped.refl w, (leaves_none _).congr (by simp)⟩
  | some e =>
    unfold checkIfMatch
    cases hetag : getEtag env.sha1 w.tree diskPath with
    | none =>
      have absent : (stat w.tree diskPath).isOk = false := by
        have none := getEtag_eq_none.1 hetag
        rw [← Bool.not_eq_true, isOk_eq_true, not_not, none]
      have nothing := not_computes (getEtag_eq_none.1 hetag)
      refine Or.inl ⟨by simp, w, ?_, Stamped.refl w, (leaves_none _).congr (by simp [nothing])⟩
      simp [absent]
    | some r =>
      have present : (stat w.tree diskPath).isOk = true := by
        rw [isOk_eq_true]
        intro none
        simp [getEtag_eq_none.2 none] at hetag
      let w' : World := { w with tree := r.2, fds := getEtagFds w.tree diskPath w.fds }
      have stamped : Stamped w w' := ⟨legible_getEtag env.sha1_length hetag, rfl, rfl⟩
      have leaves : Leaves (some e ≠ none ∧ Computes w.tree diskPath) w.fds w'.fds :=
        (leaves_getEtagFds w.tree diskPath w.fds).congr (by simp)
      by_cases he : r.1 = e
      · refine Or.inr ⟨by simp [he], w', ?_, stamped, leaves⟩
        simp [present, bind_apply, etagOf, hetag, deref, he, w']
      · refine Or.inl ⟨by simp [he], w', ?_, stamped, leaves⟩
        simp [present, bind_apply, etagOf, hetag, deref, he, w']

def Compares (req : Request) (tree : Node) (diskPath : Bytes) : Prop :=
  req.headersIn.ifMatch ≠ none ∧ Computes tree diskPath

theorem admission_run {req : Request} {pw : Users.Passwd}
    (hfound : Users.userGetEntry env.getpwnam req.user = .found pw) (diskPath : Bytes) (w : World) :
    (¬ Admitted env req diskPath w.tree ∧
      ∃ w', admission env req diskPath w = .stop 412 w' ∧ Stamped w w' ∧
        Leaves (Compares req w.tree diskPath) w.fds w'.fds) ∨
    (Admitted env req diskPath w.tree ∧
      ∃ w', admission env req diskPath w = .next (stat w.tree diskPath).isOk w' ∧ Stamped w w' ∧
        Leaves (Compares req w.tree diskPath) w.fds w'.fds) := by
  unfold admission
  simp only [read_bind]
  rcases checkIfMatch_run diskPath req.headersIn.ifMatch w with
    ⟨refused, w', hrun, stamped⟩ | ⟨passed, w', hrun, stamped⟩
  · refine Or.inl ⟨fun admitted => refused admitted.1, w', ?_, stamped⟩
    rw [bind_of_stop hrun]
  · rw [bind_of_next hrun]
    by_cases hnew : req.headersIn.ifNoneMatch = some (str "*") ∧ (stat w.tree diskPath).isOk
    · refine Or.inl ⟨fun admitted => ?_, w', ?_, stamped⟩
      · exact isOk_eq_true.1 hnew.2 (admitted.2 hnew.1)
      · have stops : checkIfNoneMatch (stat w.tree diskPath).isOk req.headersIn.ifNoneMatch w' =
            .stop 412 w' := by
          rw [checkIfNoneMatch, if_pos hnew]
          rfl
        rw [bind_of_stop stops]
    · refine Or.inr ⟨⟨passed, fun hstar => ?_⟩, w', ?_, stamped⟩
      · by_contra present
        exact hnew ⟨hstar, isOk_eq_true.2 present⟩
      · have goes : checkIfNoneMatch (stat w.tree diskPath).isOk req.headersIn.ifNoneMatch w' =
            .next () w' := by
          rw [checkIfNoneMatch, if_neg hnew]
          rfl
        rw [bind_of_next goes, needUserEntry, hfound]
        rfl

theorem openFile_run (diskPath : Bytes) (existed : Bool) (w : World) :
    (¬ (∃ r, openCreate w.tree diskPath = .ok r) ∧
      openFile diskPath existed w = .stop 500 w) ∨
    ∃ r fd, openCreate w.tree diskPath = .ok r ∧
      openFile diskPath existed w = .next ⟨existed, fd, r.1⟩ (within fd { w with tree := r.2 }) := by
  unfold openFile
  simp only [attempt_bind]
  cases hopen : openCreate w.tree diskPath with
  | error e => exact Or.inl ⟨by simp, rfl⟩
  | ok r => exact Or.inr ⟨r, _, rfl, rfl⟩

theorem storeBody_run (env : Env) (written : Nat) {req : Request} {diskPath : Bytes}
    {opened : Opened} {w : World} {x : Xattrs} {f : Xattrs → Xattrs}
    (hnamei : namei w.tree diskPath = .ok opened.loc)
    (hlook : w.tree.look opened.loc = some (.leaf ⟨[], x⟩))
    (hmedia : contentTypeToXattr (req.headersIn.contentType.getD defaultContentType) = some f) :
    ∃ w', storeBody env written req diskPath opened w =
        .next (if opened.existed then 200 else 201) w' ∧
      plain w'.tree = plain (write w.tree opened.loc (req.bufferIn.take written)) ∧
      w'.headersOut = w.headersOut ++
        [(str "Content-Type", req.headersIn.contentType.getD defaultContentType)] ++
        [(str "ETag", (getXattr x.etag 41).getD (version env.sha1 (req.bufferIn.take written)))] ∧
      Leaves (getXattr x.etag 41 = none) (w.fds.erase opened.fd) w'.fds := by
  let content := req.bufferIn.take written
  let stored := setxattr (write w.tree opened.loc content) diskPath f
  have hplain : plain stored = plain (write w.tree opened.loc content) := plain_setxattr _ _ _
  have hnamei' : namei (write w.tree opened.loc content) diskPath = .ok opened.loc := by
    rw [← hnamei, namei, namei, lookupAt, lookupAt, shape_write]
  have hstat : stat stored diskPath = .ok (.leaf ⟨content, f x⟩) := by
    refine stat_eq_ok.2 ⟨opened.loc, (namei_congr hplain _).trans hnamei', ?_⟩
    exact look_setxattr hnamei' (look_write hlook content) f
  obtain ⟨r, hetag⟩ := getEtag_ne_none env.sha1 hstat
  have hversion := getEtag_leaf hstat hetag
  rw [contentTypeToXattr_etag hmedia] at hversion
  let closed : World := closing opened.fd { w with tree := stored }
  let headers := w.headersOut ++
    [(str "Content-Type", req.headersIn.contentType.getD defaultContentType)] ++ [(str "ETag", r.1)]
  have leaves : Leaves (getXattr x.etag 41 = none) closed.fds
      (getEtagFds stored diskPath closed.fds) := by
    refine (leaves_getEtagFds stored diskPath closed.fds).congr ?_
    rw [computes_of_stat hstat, kindXattrs, contentTypeToXattr_etag hmedia]
  refine ⟨⟨r.2, getEtagFds stored diskPath closed.fds, headers, w.bufferOut⟩, ?_,
    (plain_getEtag hetag).trans hplain, by rw [← hversion], leaves⟩
  have hstore : storeContentType diskPath (req.headersIn.contentType.getD defaultContentType)
      { w with tree := write w.tree opened.loc content } = .next () { w with tree := stored } := by
    unfold storeContentType
    rw [hmedia]
    rfl
  have hclose : closeFd opened.fd { w with tree := stored } = .next () closed := rfl
  have hstat' : stat closed.tree diskPath = .ok (.leaf ⟨content, f x⟩) := hstat
  have hfound : etagOf env diskPath closed = .next (some r.1)
      ⟨r.2, getEtagFds stored diskPath closed.fds, w.headersOut, w.bufferOut⟩ :=
    etagOf_of_getEtag env (show getEtag env.sha1 closed.tree diskPath = some r from hetag)
  unfold storeBody
  simp only [update_bind]
  rw [bind_of_next hstore, bind_of_next hclose]
  simp only [attempt_bind, hstat']
  rw [bind_of_next hfound]
  rfl

structure Reached (target : Target) (w : World) (opened : Opened) (w' : World) : Prop where
  existed : opened.existed = (stat w.tree target.diskPath).isOk
  loc : ∃ r, openCreate (parentsMade w.tree target).1 target.diskPath = .ok r ∧ r.1 = opened.loc
  namei : namei w'.tree target.diskPath = .ok opened.loc
  look : ∃ x, w'.tree.look opened.loc = some (.leaf ⟨[], x⟩) ∧
    getXattr x.etag 41 = cachedAt w.tree opened.loc
  plain : ∀ q, plain w'.tree q =
    if q = opened.loc then some (.leaf []) else plain (parentsMade w.tree target).1 q
  headersOut : w'.headersOut = w.headersOut

theorem openTarget_run {req : Request} {pw : Users.Passwd}
    (hfound : Users.userGetEntry env.getpwnam req.user = .found pw) (target : Target) (w : World) :
    (¬ Admitted env req target.diskPath w.tree ∧
      ∃ w', openTarget env req target w = .stop 412 w' ∧ plain w'.tree = plain w.tree ∧
        Leaves (Compares req w.tree target.diskPath) w.fds w'.fds) ∨
    (Admitted env req target.diskPath w.tree ∧ ¬ Opens w.tree target ∧
      ∃ status w', IsError status ∧ openTarget env req target w = .stop status w' ∧
        plain w'.tree = plain (parentsMade w.tree target).1 ∧
        Leaves (Compares req w.tree target.diskPath) w.fds w'.fds) ∨
    (Admitted env req target.diskPath w.tree ∧ Opens w.tree target ∧
      ∃ opened w', openTarget env req target w = .next opened w' ∧ Reached target w opened w' ∧
        Leaves (Compares req w.tree target.diskPath) w.fds (w'.fds.erase opened.fd)) := by
  have kept := triple_openTarget (keptByPutTo_cachedAt env [] [] w.tree) req target
    (H := fun _ _ => True) w ⟨fun _ => rfl, trivial⟩
  rw [openTarget_eq] at kept ⊢
  rcases admission_run hfound target.diskPath w with
    ⟨refused, w₁, hadmission, stamped, leaves⟩ | ⟨admitted, w₁, hadmission, stamped, leaves⟩
  · refine Or.inl ⟨refused, w₁, ?_, plain_of_legible stamped.1, leaves⟩
    rw [bind_of_stop hadmission]
  · refine Or.inr ?_
    rw [bind_of_next hadmission]
    have hplain := plain_of_legible stamped.1
    have parents := parentsMade_congr hplain target
    rcases createParents_run target w₁ with ⟨hmade, hcreate⟩ | ⟨hmade, status, herror, hcreate⟩
    · rw [bind_of_next hcreate]
      rw [parents.2] at hmade
      rcases openFile_run target.diskPath (stat w.tree target.diskPath).isOk
        { w₁ with tree := (parentsMade w₁.tree target).1 } with
        ⟨hclosed, hopen⟩ | ⟨r, fd, hr, hopen⟩
      · refine Or.inl ⟨admitted, fun opens => hclosed ?_, 500, _, by simp [IsError], hopen,
          parents.1, leaves⟩
        exact (openCreate_congr parents.1 _).2 opens.2
      · obtain ⟨r', hr'⟩ := (openCreate_congr parents.1 _).1 ⟨r, hr⟩
        have same := openCreate_same parents.1 hr hr'
        refine Or.inr ⟨admitted, ⟨hmade, r', hr'⟩, _, _, hopen, ⟨rfl, ⟨r', hr', same.1.symm⟩,
          namei_of_openCreate hr, ?_, fun q => ?_, stamped.2.1⟩, ?_⟩
        · rw [bind_of_next hadmission, bind_of_next hcreate, hopen] at kept
          obtain ⟨dir, last, x, -, -, -, -, -, -, -, -, hlook⟩ := openCreate_ok hr
          have here : r.2.look r.1 = some (.leaf ⟨[], x⟩) := by rw [hlook, if_pos rfl]
          refine ⟨x, here, ?_⟩
          have cached := kept.1 r.1
          rw [← cached]
          simp [cachedAt, here, kindXattrs]
        · rw [within_tree, plain_openCreate hr q]
          rw [congrFun parents.1 q]
        · rw [within, List.erase_cons_head]
          exact leaves
    · refine Or.inl ⟨admitted, fun opens => ?_, status, _, herror, bind_of_stop hcreate, parents.1,
        leaves⟩
      rw [parents.2, opens.1] at hmade
      cases hmade

def targetOf (env : Env) (req : Request) : Target := makeDiskPath env.cfg req.user req.path

theorem storeBody_cases {req : Request} {w w' : World} {opened : Opened} (written : Nat)
    (h : Reached (targetOf env req) w opened w') :
    (NoMediaType req ∧ (storeBody env written req (targetOf env req).diskPath opened w').Crashed) ∨
    ∃ w'', ¬ NoMediaType req ∧ storeBody env written req (targetOf env req).diskPath opened w' =
        .next (if opened.existed then 200 else 201) w'' ∧
      viewAt w''.tree (targetOf env req).diskPath = some (.leaf (req.bufferIn.take written)) ∧
      (∀ q, plain w''.tree q = if q = opened.loc then some (.leaf (req.bufferIn.take written))
        else plain (parentsMade w.tree (targetOf env req)).1 q) ∧
      w''.headersOut = w.headersOut ++
        [(str "Content-Type", req.headersIn.contentType.getD defaultContentType)] ++
        [(str "ETag", (cachedAt w.tree opened.loc).getD
          (version env.sha1 (req.bufferIn.take written)))] ∧
      Leaves (cachedAt w.tree opened.loc = none) (w'.fds.erase opened.fd) w''.fds := by
  rw [← mediaType_getD_eq_none]
  cases hmedia : contentTypeToXattr (req.headersIn.contentType.getD defaultContentType) with
  | none =>
    refine Or.inl ⟨?_, ?_⟩
    · unfold contentTypeToXattr at hmedia
      cases h : mediaType (req.headersIn.contentType.getD defaultContentType) with
      | none => rfl
      | some parts => simp [h] at hmedia
    · simp [storeBody, storeContentType, hmedia, bind_apply, update, deref, Outcome.Crashed]
  | some f =>
    obtain ⟨x, hlook, hcached⟩ := h.look
    rcases storeBody_run env written h.namei hlook hmedia with
      ⟨w'', hrun, hplain, hheaders, leaves⟩
    refine Or.inr ⟨w'', ?_, hrun, ?_, fun q => ?_, ?_, by rw [← hcached]; exact leaves⟩
    · intro none
      simp [contentTypeToXattr, none] at hmedia
    · have hnamei : namei (write w'.tree opened.loc (req.bufferIn.take written))
          (targetOf env req).diskPath = .ok opened.loc := by
        rw [← h.namei, namei, namei, lookupAt, lookupAt, shape_write]
      rw [viewAt_eq, namei_congr hplain, hnamei, hplain]
      simp only [Except.toOption, Option.bind_some]
      exact plain_eq_leaf.2 ⟨x, look_write hlook _⟩
    · rw [hplain, plain_write hlook, h.plain]
      by_cases hq : q = opened.loc
      · rw [if_pos hq, if_pos hq]
      · rw [if_neg hq, if_neg hq, if_neg hq]
    · rw [hheaders, h.headersOut, hcached]

def Recomputes (env : Env) (req : Request) (tree : Node) : Prop :=
  ∃ r, openCreate (parentsMade tree (targetOf env req)).1 (targetOf env req).diskPath = .ok r ∧
    cachedAt tree r.1 = none

structure Answers (env : Env) (written : Nat) (req : Request) (w w' : World) (status : Nat) : Prop where
  typed : ¬ NoMediaType req
  status : status = if (stat w.tree (targetOf env req).diskPath).isOk then 200 else 201
  view : viewAt w'.tree (targetOf env req).diskPath = some (.leaf (req.bufferIn.take written))
  headers : ∃ r, openCreate (parentsMade w.tree (targetOf env req)).1 (targetOf env req).diskPath =
      .ok r ∧ w'.headersOut = w.headersOut ++
    [(str "Content-Type", req.headersIn.contentType.getD defaultContentType)] ++
    [(str "ETag", (cachedAt w.tree r.1).getD (version env.sha1 (req.bufferIn.take written)))]
  files : ∀ r, openCreate (parentsMade w.tree (targetOf env req)).1 (targetOf env req).diskPath =
      .ok r → ∀ q, plain w'.tree q = if q = r.1 then some (.leaf (req.bufferIn.take written))
        else plain (parentsMade w.tree (targetOf env req)).1 q
  leaves : Leaves (Compares req w.tree (targetOf env req).diskPath ∨ Recomputes env req w.tree)
    w.fds w'.fds

theorem storageHandlePut_cases {env : Env} {req : Request} (hfile : req.file ≠ none)
    (hverify : Users.verifyUser env.getpwnam req.user = 0) (written : Nat) (w : World) :
    (¬ Admitted env req (targetOf env req).diskPath w.tree ∧
      ∃ w', storageHandlePut env written req w = .stop 412 w' ∧ plain w'.tree = plain w.tree ∧
        Leaves (Compares req w.tree (targetOf env req).diskPath) w.fds w'.fds) ∨
    (Admitted env req (targetOf env req).diskPath w.tree ∧ ¬ Opens w.tree (targetOf env req) ∧
      ∃ status w', IsError status ∧ storageHandlePut env written req w = .stop status w' ∧
        plain w'.tree = plain (parentsMade w.tree (targetOf env req)).1 ∧
        Leaves (Compares req w.tree (targetOf env req).diskPath) w.fds w'.fds) ∨
    (Admitted env req (targetOf env req).diskPath w.tree ∧ Opens w.tree (targetOf env req) ∧
      (NoMediaType req ∧ (storageHandlePut env written req w).Crashed ∨
        ∃ status w', storageHandlePut env written req w = .next status w' ∧
          Answers env written req w w' status)) := by
  obtain ⟨pw, hfound⟩ := Users.userGetEntry_of_verified env.getpwnam hverify
  unfold storageHandlePut
  simp only [if_neg hfile]
  rcases openTarget_run hfound (targetOf env req) w with
    ⟨refused, w', hopen, kept⟩ | ⟨admitted, hclosed, status, w', herror, hopen, kept⟩ |
      ⟨admitted, opens, opened, w', hopen, reached, leaves⟩
  · exact Or.inl ⟨refused, w', bind_of_stop hopen, kept⟩
  · exact Or.inr (Or.inl ⟨admitted, hclosed, status, w', herror, bind_of_stop hopen, kept⟩)
  · refine Or.inr (Or.inr ⟨admitted, opens, ?_⟩)
    have step : (openTarget env req (targetOf env req) >>= fun opened =>
        storeBody env written req (targetOf env req).diskPath opened) w =
          storeBody env written req (targetOf env req).diskPath opened w' := bind_of_next hopen
    rcases storeBody_cases written reached with
      ⟨untyped, hcrash⟩ | ⟨w'', typed, hrun, hview, hfiles, hheaders, leaves'⟩
    · exact Or.inl ⟨untyped, by rw [← step] at hcrash; exact hcrash⟩
    · rw [reached.existed] at hrun
      obtain ⟨r, hr, hloc⟩ := reached.loc
      refine Or.inr ⟨_, w'', step.trans hrun, typed, rfl, hview, ⟨r, hr, by rw [hheaders, hloc]⟩,
        fun r' hr' => ?_, ?_⟩
      · rw [← Except.ok.inj (hr.symm.trans hr'), hloc]
        exact hfiles
      refine (leaves.trans leaves').congr (or_congr Iff.rfl ?_)
      constructor
      · exact fun none => ⟨r, hr, by rw [hloc, none]⟩
      · intro recomputes
        obtain ⟨r', hr', none⟩ := recomputes
        rw [← hloc, Except.ok.inj (hr.symm.trans hr'), none]

theorem storageHandlePut_folder {req : Request} (hfile : req.file = none) (written : Nat)
    (w : World) : storageHandlePut env written req w = .stop 400 w := by
  unfold storageHandlePut
  rw [if_pos hfile]
  rfl

def FailedPutKeeps (env : Env) (written : Nat) (req : Request) (tree : Node) (fds : List Nat) : Prop :=
  ∀ status, (storageHandlePut env written req (arrival tree fds)).result? = some status →
    IsError status → plain (storageHandlePut env written req (arrival tree fds)).state.tree = plain tree

/-- The user was verified, and the kernel takes the disk path. -/
structure Handled (env : Env) (req : Request) : Prop where
  verified : Users.verifyUser env.getpwnam req.user = 0
  within : WithinLimits (targetOf env req).diskPath

theorem Answers.not_error {env : Env} {written : Nat} {req : Request} {w w' : World} {status : Nat}
    (h : Answers env written req w w' status) : ¬ IsError status := by
  rw [h.status]
  split <;> simp [IsError]

/-- A failed PUT changes nothing if and only if it is not one that makes a directory and can
then not open its file. -/
theorem failedPutKeeps_iff {env : Env} {req : Request} (h : Handled env req) (written : Nat)
    (tree : Node) (fds : List Nat) :
    FailedPutKeeps env written req tree fds ↔
      (req.file ≠ none → Admitted env req (targetOf env req).diskPath tree →
        MissesParent tree (targetOf env req) → Opens tree (targetOf env req)) := by
  unfold FailedPutKeeps
  by_cases hfile : req.file = none
  · rw [storageHandlePut_folder hfile]
    exact iff_of_true (fun _ _ _ => rfl) fun hsome => absurd hfile hsome
  · rcases storageHandlePut_cases hfile h.verified written (arrival tree fds) with
      ⟨refused, w', hrun, hplain, -⟩ | ⟨admitted, hclosed, error, w', herror, hrun, hplain, -⟩ |
        ⟨admitted, opens, hcrash | ⟨answered, w', hrun, answers⟩⟩
    · rw [hrun]
      exact iff_of_true (fun _ _ _ => hplain) fun _ admitted => absurd admitted refused
    · have unchanged := plain_parentsMade_iff tree (targetOf env req)
      have hplain' : plain w'.tree = plain (parentsMade tree (targetOf env req)).1 := hplain
      rw [hrun]
      constructor
      · intro keeps _ _ misses
        have same : plain w'.tree = plain tree := keeps error rfl herror
        exact absurd misses (unchanged.1 (hplain'.symm.trans same))
      · intro holds status _ _
        refine hplain'.trans (unchanged.2 fun misses => hclosed ?_)
        exact holds hfile admitted misses
    · rw [result?_of_crashed hcrash.2]
      exact iff_of_true (fun _ hstatus => by simp at hstatus) fun _ _ _ => opens
    · rw [hrun]
      refine iff_of_true (fun status hstatus herror => ?_) fun _ _ _ => opens
      rw [← Option.some.inj hstatus] at herror
      exact absurd herror answers.not_error

def StoresWhole (env : Env) (written : Nat) (req : Request) (tree : Node) (fds : List Nat) : Prop :=
  ∃ status, (storageHandlePut env written req (arrival tree fds)).result? = some status ∧
    (IsError status ∨
      (status = 200 ∨ status = 201) ∧
        viewAt (storageHandlePut env written req (arrival tree fds)).state.tree
          (targetOf env req).diskPath = some (.leaf req.bufferIn) ∧
        (storageHandlePut env written req (arrival tree fds)).state.headersOut.lookup (str "ETag") =
          some (version env.sha1 req.bufferIn))

theorem cachedAt_ne_version {tree : Node} {loc : Loc} {cached : Bytes}
    (h : cachedAt tree loc = some cached) (env : Env) (content : Bytes) :
    cached ≠ version env.sha1 content := by
  rw [cachedAt, Option.bind_eq_some_iff] at h
  obtain ⟨kind, -, hread⟩ := h
  intro same
  have short := length_getXattr hread
  rw [same, version, length_hexString, env.sha1_length] at short
  omega

/-- The law of a successful PUT holds if and only if one that can open its file has a media
type, the write is complete and the file has no version that get_xattr reads. -/
theorem storesWhole_iff {env : Env} {req : Request}
    (hverify : Users.verifyUser env.getpwnam req.user = 0) (written : Nat) (tree : Node)
    (fds : List Nat) :
    StoresWhole env written req tree fds ↔
      (req.file ≠ none → Admitted env req (targetOf env req).diskPath tree →
        Opens tree (targetOf env req) →
          ¬ NoMediaType req ∧ req.bufferIn.take written = req.bufferIn ∧
            ∀ r, openCreate (parentsMade tree (targetOf env req)).1 (targetOf env req).diskPath =
              .ok r → cachedAt tree r.1 = none) := by
  unfold StoresWhole
  by_cases hfile : req.file = none
  · rw [storageHandlePut_folder hfile]
    exact iff_of_true ⟨400, rfl, Or.inl (Or.inl rfl)⟩ fun hsome => absurd hfile hsome
  · rcases storageHandlePut_cases hfile hverify written (arrival tree fds) with
      ⟨refused, w', hrun, -⟩ | ⟨admitted, hclosed, error, w', herror, hrun, -⟩ |
        ⟨admitted, opens, hcrash | ⟨answered, w', hrun, answers⟩⟩
    · rw [hrun]
      exact iff_of_true ⟨412, rfl, Or.inl (by simp [IsError])⟩ fun _ admitted => absurd admitted refused
    · rw [hrun]
      exact iff_of_true ⟨error, rfl, Or.inl herror⟩ fun _ _ opens => absurd opens hclosed
    · rw [result?_of_crashed hcrash.2]
      exact iff_of_false (by simp) fun holds => (holds hfile admitted opens).1 hcrash.1
    · obtain ⟨r, hr, hheaders⟩ := answers.headers
      have hr : openCreate (parentsMade tree (targetOf env req)).1 (targetOf env req).diskPath =
        .ok r := hr
      have hetag : w'.headersOut.lookup (str "ETag") = some ((cachedAt tree r.1).getD
          (version env.sha1 (req.bufferIn.take written))) := by
        rw [hheaders]
        rfl
      rw [hrun]
      constructor
      · intro stores _ _ _
        obtain ⟨status, hstatus, result⟩ := stores
        rw [← Option.some.inj hstatus] at result
        rcases result with herror | ⟨-, hview, hsent⟩
        · exact absurd herror answers.not_error
        · have hview' := answers.view.symm.trans hview
          rw [Option.some_inj, Kind.leaf.injEq] at hview'
          refine ⟨answers.typed, hview', fun r' hr' => ?_⟩
          rw [← Except.ok.inj (hr.symm.trans hr')]
          cases hcached : cachedAt tree r.1 with
          | none => rfl
          | some cached =>
            have sent := hetag.symm.trans hsent
            rw [hcached, Option.some_inj] at sent
            exact absurd sent (cachedAt_ne_version hcached env req.bufferIn)
      · intro holds
        have whole := holds hfile admitted opens
        refine ⟨answered, rfl, Or.inr ⟨?_, ?_, ?_⟩⟩
        · rw [answers.status]
          split <;> simp
        · exact answers.view.trans (by rw [whole.2.1])
        · refine hetag.trans ?_
          rw [whole.2.2 r hr, whole.2.1]
          rfl

def emptyHome : Node := homeOf (str "me") [(str "storage", folder [])]

def samplePut (path file : Bytes) : Request where
  method := .PUT
  user := str "me"
  path := path
  file := some file
  headersIn := ⟨some (str "Bearer t"), none, none, some (str "text/plain")⟩
  bufferIn := str "hello"

theorem storesWhole_sample :
    StoresWhole sampleEnv 5 (samplePut (str "/a/b") (str "b")) emptyHome [0, 1, 2] := by
  refine (storesWhole_iff (by decide) 5 emptyHome [0, 1, 2]).2 fun _ _ _ => ⟨?_, by decide, ?_⟩
  · rw [← mediaType_getD_eq_none]
    decide
  · intro r hr
    have hloc : (openCreate (parentsMade emptyHome (targetOf sampleEnv
        (samplePut (str "/a/b") (str "b")))).1 (str "/home/me/storage/a/b")).toOption.map Prod.fst =
          some [str "home", str "me", str "storage", str "a", str "b"] := by decide +kernel
    have hr' : openCreate (parentsMade emptyHome (targetOf sampleEnv
        (samplePut (str "/a/b") (str "b")))).1 (str "/home/me/storage/a/b") = .ok r := hr
    rw [hr'] at hloc
    rw [Option.some.inj hloc]
    decide +kernel

theorem short_write_succeeds :
    ¬ StoresWhole sampleEnv 2 (samplePut (str "/a/b") (str "b")) emptyHome [0, 1, 2] := by
  intro stores
  rcases stores with ⟨status, hstatus, herror | ⟨-, -, hetag⟩⟩
  · have created : (storageHandlePut sampleEnv 2 (samplePut (str "/a/b") (str "b"))
        (arrival emptyHome [0, 1, 2])).result? = some 201 := by decide +kernel
    rw [Option.some.inj (hstatus.symm.trans created)] at herror
    simp [IsError] at herror
  · exact absurd hetag (by decide +kernel)

theorem failedPutKeeps_sample :
    (storageHandlePut sampleEnv 5 (samplePut (str "/b") (str "b"))
        (arrival (homeOf (str "me") [(str "storage", folder [(str "b", folder [])])])
          [0, 1, 2])).result? = some 500 ∧
      FailedPutKeeps sampleEnv 5 (samplePut (str "/b") (str "b"))
        (homeOf (str "me") [(str "storage", folder [(str "b", folder [])])]) [0, 1, 2] := by
  refine ⟨by decide +kernel, ?_⟩
  refine (failedPutKeeps_iff ⟨by decide, by decide +kernel⟩ 5 _ [0, 1, 2]).2 fun _ _ misses => ?_
  obtain ⟨-, root, -, hmissing⟩ := misses
  have none : components (dirname (targetOf sampleEnv (samplePut (str "/b") (str "b"))).path) = [] := by
    decide +kernel
  simp [none, lookupAt, walk] at hmissing

theorem dot_put_leaves_directory :
    ¬ FailedPutKeeps sampleEnv 5 (samplePut (str "/a/.") (str ".")) emptyHome [0, 1, 2] := by
  intro keeps
  have same := keeps 500 (by decide +kernel) (by simp [IsError])
  have there := congrFun same [str "home", str "me", str "storage", str "a"]
  exact absurd there (by decide +kernel)

end RsServe.PutResults
