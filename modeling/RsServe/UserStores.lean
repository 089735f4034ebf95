import RsServe.DocumentRequests
import RsServe.EntryNames
import RsServe.Histories
import RsServe.Listings

/-! The storage of many users, whose requests come in any order: a store of documents for each
of them, and nothing else in the file system changes. -/

namespace RsServe.UserStores
open CString NameTree Kernel Attributes DiskPath Storage StorageRules Users Authorize Dispatch
open ChildPaths FolderRequests Listings PutResults Responses CanonicalPaths DocumentMap Documents
open ConditionalWrites Histories EntryNames DocumentRequests
open ConditionalStore (Rules answers after serve_of serve_other after_cons after_append)

def rootOf (cfg : Config) (user : Bytes) : Loc := [str "home", user, cfg.homeServeRoot]

theorem plainName_home : PlainName (str "home") := ⟨by decide, by decide, by decide, by decide⟩

theorem components_root (cfg : Config) {user : Bytes} (h : PlainName user) :
    components (storageRoot cfg user) = rootOf cfg user := by
  rw [components_storageRoot, components_of_not_mem h.not_mem h.ne_nil]
  rfl

theorem apart {cfg : Config} {u v : Bytes} (h : v ≠ u) (names : List Bytes) :
    ¬ rootOf cfg u <+: rootOf cfg v ++ names := by
  intro below
  simp only [rootOf, List.cons_append, List.cons_prefix_cons] at below
  exact h below.2.1.symm

def cleared : Node → Node
  | .leaf f => .leaf f
  | .branch _ x => .branch [] x

variable {tree : Node} {root : Loc}

theorem plain_cleared (tree : Node) (root q : Loc) :
    plain (tree.modify cleared root) q =
      if root <+: q ∧ q ≠ root then none else plain tree q := by
  rw [plain, look_modify]
  by_cases hq : root <+: q
  · obtain ⟨names, rfl⟩ := hq
    rw [if_pos (List.prefix_append _ _), List.drop_left, plain, look_append]
    cases names with
    | nil =>
      rw [if_neg (by simp)]
      cases tree.get? root with
      | none => rfl
      | some n => cases n <;> rfl
    | cons name names =>
      rw [if_pos ⟨List.prefix_append _ _, by simp⟩]
      cases tree.get? root with
      | none => rfl
      | some n => cases n <;> rfl
  · rw [if_neg hq, if_neg fun below => hq below.1, plain]

theorem emptyRoot_cleared {cfg : Config} {user : Bytes} (huser : PlainName user)
    (hroot : plain tree (rootOf cfg user) = some (.branch ())) :
    EmptyRoot cfg user (tree.modify cleared (rootOf cfg user)) (rootOf cfg user) where
  namei := by
    have there : plain (tree.modify cleared (rootOf cfg user)) ([] ++ rootOf cfg user) ≠ none := by
      rw [List.nil_append, plain_cleared, if_neg (by simp), hroot]
      simp
    rw [namei_root, components_root cfg huser, lookupAt_ok ?_ there, List.nil_append]
    simp [rootOf, plainName_home, huser, cfg.plainRoot]
  empty := by
    obtain ⟨x, hx⟩ := plain_eq_branch.1 hroot
    obtain ⟨entries, hget⟩ := get?_of_look_branch hx
    refine ⟨x, ?_⟩
    have step := get?_modify_append cleared tree (rootOf cfg user) []
    rw [List.append_nil, hget, Option.bind_some] at step
    exact step

abbrev Store := Bytes × List Bytes → Option Bytes

def storeRules (env : Env) : Rules (Bytes × List Bytes) Bytes Bytes := (documentRules env).each Bytes

/-- The storage roots are there and empty, and no version is in the attributes. -/
structure EmptyRoots (cfg : Config) (users : Set Bytes) (tree : Node) : Prop where
  owners : ∀ u ∈ users, PlainName u
  empty : ∀ u ∈ users, ∃ x, tree.get? (rootOf cfg u) = some (.branch [] x)
  named : WellNamed tree
  uncached : Uncached tree

/-- Below the storage root of each user are the documents of this user, and elsewhere is what was
there at the start. -/
structure Holds (cfg : Config) (users : Set Bytes) (start : Node) (docs : Store) (tree : Node) :
    Prop where
  outside : ∀ q, (∀ u ∈ users, ¬ (rootOf cfg u <+: q ∧ q ≠ rootOf cfg u)) →
    plain tree q = plain start q
  inside : ∀ u ∈ users, Shows (fun names => docs (u, names)) [] fun names =>
    plain tree (rootOf cfg u ++ names)
  keys : ∀ key, docs key ≠ none → ∃ path, Canonical path ∧ components path = key.2
  distinct : Distinct tree
  uncached : Uncached tree

variable {cfg : Config} {users : Set Bytes} {start : Node} {docs : Store}

theorem EmptyRoots.holds (h : EmptyRoots cfg users start) :
    Holds cfg users start (fun _ => none) start where
  outside := fun _ _ => rfl
  inside := by
    intro u hu
    obtain ⟨x, hx⟩ := h.empty u hu
    refine shows_empty (fun names hne => ?_) fun content => ?_
    · obtain ⟨name, names, rfl⟩ := List.exists_cons_of_ne_nil hne
      rw [plain_eq_none, look_append, hx]
      rfl
    · rw [List.append_nil, plain, Tree.look, hx]
      simp [Tree.kind, plainKind]
  keys := fun _ hdoc => absurd rfl hdoc
  distinct := (wellNamed_iff.1 h.named).1
  uncached := h.uncached

section
variable (hstart : EmptyRoots cfg users start) (h : Holds cfg users start docs tree)
include hstart h

theorem Holds.top {u : Bytes} (hu : u ∈ users) :
    plain tree (rootOf cfg u) = some (.branch ()) := by
  rw [h.outside]
  · obtain ⟨x, hx⟩ := hstart.empty u hu
    rw [plain, Tree.look, hx]
    rfl
  · intro v _ below
    by_cases same : u = v
    · exact below.2 (by rw [same])
    · exact apart same [] (by simpa using below.1)

theorem Holds.named : WellNamed tree := by
  refine wellNamed_iff.2 ⟨h.distinct, fun loc name hthere => ?_⟩
  by_cases hout : ∀ u ∈ users, ¬ (rootOf cfg u <+: loc ++ [name] ∧ loc ++ [name] ≠ rootOf cfg u)
  · rw [h.outside _ hout] at hthere
    exact (wellNamed_iff.1 hstart.named).2 loc name hthere
  · simp only [not_forall, not_not] at hout
    obtain ⟨u, hu, ⟨names, hsplit⟩, hne⟩ := hout
    have nonempty : names ≠ [] := by
      intro nil
      rw [nil, List.append_nil] at hsplit
      exact hne hsplit.symm
    have hlast : name ∈ names := by
      have last := congrArg List.getLast? hsplit
      rw [List.getLast?_append_of_ne_nil _ nonempty, List.getLast?_concat] at last
      exact List.mem_of_getLast? last
    rw [← hsplit, ne_eq, (h.inside u hu).none_iff nonempty, not_and_or, not_not] at hthere
    rcases hthere with hdoc | ⟨below, ⟨rest, -, rfl⟩, hdoc⟩
    · obtain ⟨path, hpath, same⟩ := h.keys (u, names) hdoc
      exact hpath.plainName (same ▸ hlast)
    · obtain ⟨path, hpath, same⟩ := h.keys (u, names ++ rest) hdoc
      exact hpath.plainName (same ▸ List.mem_append_left rest hlast)

omit hstart in
theorem Holds.refines {u : Bytes} (hu : u ∈ users) :
    Refines (tree.modify cleared (rootOf cfg u)) (rootOf cfg u) (fun names => docs (u, names))
      tree where
  outside := fun q hq => by rw [plain_cleared, if_neg hq]
  inside := h.inside u hu

omit hstart in
theorem Holds.replace {u : Bytes} (hu : u ∈ users) {docs' : Store} {tree' : Node}
    (hdocs : ∀ v, (fun names => docs' (v, names)) =
      if v = u then fun names => docs' (u, names) else fun names => docs (v, names))
    (htree : Refines (tree.modify cleared (rootOf cfg u)) (rootOf cfg u)
      (fun names => docs' (u, names)) tree')
    (hkeys : ∀ key, docs' key ≠ none → ∃ path, Canonical path ∧ components path = key.2)
    (hdistinct : Distinct tree') (hcached : Uncached tree') :
    Holds cfg users start docs' tree' where
  outside := by
    intro q hq
    rw [htree.outside q (hq u hu), plain_cleared, if_neg (hq u hu), h.outside q hq]
  inside := by
    intro v hv
    by_cases same : v = u
    · exact same ▸ htree.inside
    · rw [hdocs v, if_neg same]
      refine (h.inside v hv).congr fun names => ?_
      have elsewhere : ¬ (rootOf cfg u <+: rootOf cfg v ++ names ∧
          rootOf cfg v ++ names ≠ rootOf cfg u) := fun below => apart same names below.1
      rw [htree.outside _ elsewhere, plain_cleared, if_neg elsewhere]
  keys := hkeys
  distinct := hdistinct
  uncached := hcached

omit hstart in
theorem Holds.congr {tree' : Node} (hplain : plain tree' = plain tree) (hdistinct : Distinct tree')
    (hcached : Uncached tree') : Holds cfg users start docs tree' where
  outside := fun q hq => by rw [hplain, h.outside q hq]
  inside := fun u hu => (h.inside u hu).congr fun names => by rw [hplain]
  keys := h.keys
  distinct := hdistinct
  uncached := hcached

end

def FolderPath (path : Bytes) : Prop := path = [slash] ∨ ∃ doc, Canonical doc ∧ path = doc ++ [slash]

/-- A request of one of the users for a path that is left as it is; a PUT has a media type and
evbuffer_write writes its body in whole. -/
structure Ordinary (users : Set Bytes) (e : Event) : Prop where
  user : e.req.user ∈ users
  parsed : e.req.Parsed
  path : Canonical e.req.path ∨ FolderPath e.req.path
  typed : e.req.method = .PUT → ¬ NoMediaType e.req
  written : e.req.bufferIn.length ≤ e.written

/-- An ordinary request whose disk path the kernel takes. -/
structure Usual (env : Env) (users : Set Bytes) (e : Event) : Prop extends Ordinary users e where
  within : WithinLimits (makeDiskPath env.cfg e.req.user e.req.path).diskPath

instance (env : Env) (lookup : Bytes → Bytes → Option AuthRecord.RsAuthorization) (req : Request) :
    Decidable (LetThrough env lookup req) := inferInstanceAs (Decidable (_ ∧ _))

def asked (env : Env) (e : Event) : Option (ConditionalStore.Request (Bytes × List Bytes) Bytes Bytes) :=
  if LetThrough env e.lookup e.req ∧ e.req.file ≠ none then
    (storeRequest e.req).map (·.of e.req.user)
  else none

theorem rewritePath_folder {path : Bytes} (h : FolderPath path) : rewritePath path = path := by
  rcases h with rfl | ⟨doc, hdoc, rfl⟩
  · decide
  · have clean := rewritePath_eq_self_iff.1 hdoc.rewritePath_eq
    rw [rewritePath_eq_self_iff]
    constructor
    · intro dotted
      rcases List.infix_concat_iff.1 dotted with ⟨before, hbefore⟩ | inside
      · have last := congrArg List.getLast? hbefore
        rw [List.getLast?_append_of_ne_nil _ (by decide), List.getLast?_concat] at last
        exact absurd last (by decide)
      · exact clean.1 inside
    · intro doubled
      rcases List.infix_concat_iff.1 doubled with ⟨before, hbefore⟩ | inside
      · have split : str "//" = [slash] ++ [slash] := by decide
        rw [split, ← List.append_assoc] at hbefore
        have ends := List.append_cancel_right hbefore
        exact hdoc.ends (by rw [← ends, List.getLast?_concat])
      · exact clean.2 inside

theorem getLast_folder {path : Bytes} (h : FolderPath path) : path.getLast? = some slash := by
  rcases h with rfl | ⟨doc, -, rfl⟩
  · rfl
  · rw [List.getLast?_concat]

theorem getLast_diskPath_folder {path : Bytes} (h : FolderPath path) (cfg : Config) (user : Bytes) :
    (makeDiskPath cfg user path).diskPath.getLast? = some slash := by
  have ends := getLast_folder h
  have nonempty : path ≠ [] := by
    intro nil
    rw [nil] at ends
    cases ends
  rw [makeDiskPath, rewritePath_folder h, List.getLast?_append_of_ne_nil _ nonempty, ends]

variable {env : Env} {e : Event} {s : Server}

theorem Ordinary.canonical (he : Ordinary users e) (hfile : e.req.file ≠ none) :
    Canonical e.req.path := by
  refine he.path.resolve_right fun folder => hfile ?_
  exact he.parsed.2.2 (getLast_folder folder)

theorem Ordinary.folder (he : Ordinary users e) (hfile : e.req.file = none) :
    FolderPath e.req.path :=
  he.path.resolve_left fun document => document.ends (he.parsed.2.1 hfile)

theorem Ordinary.not_crashed (he : Ordinary users e) (hnamed : WellNamed s.tree) :
    ¬ (requestStatus env e.lookup e.written e.req (arrival s.tree s.fds)).Crashed := by
  rw [requestStatus_crashed_iff]
  intro crashed
  rcases crashed.2 with ⟨hput, -, -, untyped⟩ | ⟨-, hfile, misses⟩
  · exact he.typed hput untyped
  · exact not_missesEntry hnamed (getLast_diskPath_folder (he.folder hfile) _ _) misses

theorem replied_of_read (env : Env) (hmethod : e.req.method ≠ .PUT ∧ e.req.method ≠ .DELETE)
    (hcrash : ¬ (requestStatus env e.lookup e.written e.req (arrival s.tree s.fds)).Crashed) :
    ∃ reply, replied env s e = some reply ∧ plain (treeAfter env s e) = plain s.tree := by
  have kept := (gatekept_iff_not_crashed _ _ _ _).2 hcrash
  obtain ⟨status, -, hreply⟩ := kept.replied
  have sent : ∃ reply, replied env s e = some reply := by
    unfold replied
    rcases hserved : dispatchStorage env e.lookup e.written e.req s.tree s.fds with ⟨statuses, w⟩
    rw [hserved] at hreply
    simp only at hreply
    subst hreply
    exact ⟨_, rfl⟩
  obtain ⟨reply, hreplied⟩ := sent
  refine ⟨reply, hreplied, ?_⟩
  by_contra changed
  rcases (kept.changed changed).1 with hput | hdelete
  · exact hmethod.1 hput
  · exact hmethod.2 hdelete

def Telling (status : Nat) : Prop := status = 200 ∨ status = 201 ∨ status = 304

def ForDocument (req : Request) : Prop :=
  req.method = .PUT ∨ req.method = .DELETE ∨ req.method = .GET ∧ req.file ≠ none

theorem replied_of_stop {p : Handler Nat} {status : Nat} {w : World}
    (hreplied : replied env s e = answer p s.tree s.fds ∧
      treeAfter env s e = (p (arrival s.tree s.fds)).state.tree)
    (hrun : p (arrival s.tree s.fds) = .stop status w) :
    ∃ reply, replied env s e = some reply ∧ treeAfter env s e = w.tree ∧ reply.status = status := by
  have run := answer_of_run (Or.inr hrun)
  exact ⟨_, hreplied.1.trans run.1, hreplied.2.trans run.2, rfl⟩

theorem replied_of_not_asked (he : Ordinary users e) (hnamed : WellNamed s.tree)
    (hasked : asked env e = none) :
    ∃ reply, replied env s e = some reply ∧ plain (treeAfter env s e) = plain s.tree ∧
      (ForDocument e.req → ¬ Telling reply.status) := by
  by_cases hlet : LetThrough env e.lookup e.req
  · have folder : storeRequest e.req ≠ none → e.req.file = none := by
      intro stores
      by_contra some
      rw [asked, if_pos ⟨hlet, some⟩, Option.map_eq_none_iff] at hasked
      exact stores hasked
    cases hmethod : e.req.method with
    | PUT =>
      have calls := replied_calls (s := s) hlet
        (p := storageHandlePut env e.written e.req) (by simp only [callHandler, hmethod])
      have hfile := folder (by simp [storeRequest, hmethod])
      obtain ⟨reply, hreply, same, hstatus⟩ :=
        replied_of_stop calls (storageHandlePut_folder hfile e.written (arrival s.tree s.fds))
      exact ⟨reply, hreply, by rw [same]; rfl, fun _ => by simp [Telling, hstatus]⟩
    | DELETE =>
      have calls := replied_calls (s := s) hlet
        (p := storageHandleDelete env e.req) (by simp only [callHandler, hmethod])
      have hfile := folder (by simp [storeRequest, hmethod])
      obtain ⟨reply, hreply, same, hstatus⟩ :=
        replied_of_stop calls (DeleteResults.storageHandleDelete_folder hfile (arrival s.tree s.fds))
      exact ⟨reply, hreply, by rw [same]; rfl, fun _ => by simp [Telling, hstatus]⟩
    | GET =>
      have hfile := folder (by simp [storeRequest, hmethod])
      obtain ⟨reply, hreply, same⟩ :=
        replied_of_read env (by simp [hmethod]) (he.not_crashed hnamed)
      refine ⟨reply, hreply, same, fun document => ?_⟩
      simp [ForDocument, hmethod, hfile] at document
    | _ =>
      obtain ⟨reply, hreply, same⟩ :=
        replied_of_read env (by simp [hmethod]) (he.not_crashed hnamed)
      refine ⟨reply, hreply, same, fun document => ?_⟩
      simp [ForDocument, hmethod] at document
  · obtain ⟨same, status, hstatus, -, -, hreply⟩ := replied_barred (s := s) hlet
    refine ⟨_, hreply, by rw [same], fun document => ?_⟩
    have known : e.req.method ≠ .OPTIONS := by
      intro options
      simp [ForDocument, options] at document
    rcases hstatus known with rfl | rfl | rfl <;> simp [Telling]

theorem asked_eq_some {r : ConditionalStore.Request (Bytes × List Bytes) Bytes Bytes}
    (h : asked env e = some r) : LetThrough env e.lookup e.req ∧ e.req.file ≠ none ∧
      ∃ own, storeRequest e.req = some own ∧ r = own.of e.req.user := by
  unfold asked at h
  by_cases hgets : LetThrough env e.lookup e.req ∧ e.req.file ≠ none
  · rw [if_pos hgets, Option.map_eq_some_iff] at h
    obtain ⟨own, hown, same⟩ := h
    exact ⟨hgets.1, hgets.2, own, hown, same.symm⟩
  · rw [if_neg hgets] at h
    cases h

theorem key_storeRequest {req : Request} {own : StoreRequest} (h : storeRequest req = some own) :
    own.key = components req.path := by
  unfold storeRequest at h
  cases hmethod : req.method <;> simp only [hmethod, Option.some_inj, reduceCtorEq] at h
  all_goals
    subst h
    rfl

theorem keys_served (hkeys : ∀ key, docs key ≠ none → ∃ path, Canonical path ∧ components path = key.2)
    {r : ConditionalStore.Request (Bytes × List Bytes) Bytes Bytes}
    (hr : ∃ path, Canonical path ∧ components path = r.key.2) :
    ∀ key, (ConditionalStore.serve (storeRules env) docs r).2 key ≠ none →
      ∃ path, Canonical path ∧ components path = key.2 := by
  intro key hdoc
  by_cases same : key = r.key
  · exact same ▸ hr
  · rw [serve_other same] at hdoc
    exact hkeys key hdoc

theorem key_of (u : Bytes) (r : StoreRequest) : (r.of u).key = (u, r.key) := by
  cases r <;> rfl

section
variable (hstart : EmptyRoots env.cfg users start) (h : Holds env.cfg users start docs s.tree)
  (he : Ordinary users e)
include hstart h he

/-- One step: the request is answered as by the store, and the tree goes on holding it. -/
theorem step_holds : ∃ reply s', replied env s e = some reply ∧ serve env s e = some s' ∧
    (∀ r, asked env e = some r → Tells (ConditionalStore.serve (storeRules env) docs r).1 reply) ∧
    (asked env e = none → ForDocument e.req → ¬ Telling reply.status) ∧
    Holds env.cfg users start (after (storeRules env) docs (asked env e).toList) s'.tree := by
  have kept : ∀ {I : Node → Prop} {s' : Server}, KeptByCalls env (e.req.bufferIn.take e.written) I →
      I s.tree → serve env s e = some s' → I s'.tree :=
    fun hI hs hserve => serve_kept (keptByRequest_of_calls hI) hs hserve
  cases hasked : asked env e with
  | none =>
    obtain ⟨reply, hreply, same, silent⟩ := replied_of_not_asked he (h.named hstart) hasked
    obtain ⟨s', hserve, htree⟩ := serve_of_replied hreply
    refine ⟨reply, s', hreply, hserve, fun r hr => absurd hr (by simp), fun _ => silent, ?_⟩
    refine h.congr (htree ▸ same) ?_ ?_
    · exact kept (keptByCalls_distinct env _) h.distinct hserve
    · exact kept (keptByCalls_uncached env _) h.uncached hserve
  | some r =>
    obtain ⟨hlet, hfile, own, hown, rfl⟩ := asked_eq_some hasked
    have hpath := he.canonical hfile
    have huser := hstart.owners _ he.user
    have alone := serve_of (documentRules env) docs e.req.user own
    have root := emptyRoot_cleared huser (h.top hstart he.user)
    obtain ⟨reply, hreply, told, htree⟩ := document_tells root (h.refines he.user) h.uncached hlet
      hpath hfile he.typed he.written hown
    obtain ⟨s', hserve, same⟩ := serve_of_replied hreply
    refine ⟨reply, s', hreply, hserve, fun r hr => ?_, fun none => absurd none (by simp), ?_⟩
    · rw [← Option.some.inj hr, storeRules, alone.1]
      exact told
    · have own' := alone.2 e.req.user
      rw [if_pos rfl] at own'
      rw [← own', ← same] at htree
      refine h.replace he.user (fun v => ?_) htree ?_ ?_ ?_
      · rw [Option.toList_some, after_cons]
        exact (alone.2 v).trans (by rw [← own']; rfl)
      · refine keys_served h.keys ⟨_, hpath, ?_⟩
        rw [key_of, key_storeRequest hown]
      · exact kept (keptByCalls_distinct env _) h.distinct hserve
      · exact kept (keptByCalls_uncached env _) h.uncached hserve

end

def exchanges (env : Env) : Server → List Event → Option (List (Event × Reply) × Server)
  | s, [] => some ([], s)
  | s, e :: events =>
    match replied env s e, serve env s e with
    | some reply, some s' =>
      (exchanges env s' events).map fun rest => ((e, reply) :: rest.1, rest.2)
    | _, _ => none

def requests (env : Env) (events : List Event) :
    List (ConditionalStore.Request (Bytes × List Bytes) Bytes Bytes) :=
  events.filterMap (asked env)

theorem requests_cons (env : Env) (e : Event) (events : List Event) :
    requests env (e :: events) = (asked env e).toList ++ requests env events := by
  unfold requests
  cases hasked : asked env e with
  | none => simp [hasked]
  | some r => simp [hasked]

def documentLog (env : Env) (log : List (Event × Reply)) :
    List (ConditionalStore.Request (Bytes × List Bytes) Bytes Bytes × Reply) :=
  log.filterMap fun entry => (asked env entry.1).map fun r => (r, entry.2)

/-- The server answers a request as the store does. -/
def Agrees (answered : ConditionalStore.Request (Bytes × List Bytes) Bytes Bytes ×
    ConditionalStore.Answer Bytes Bytes)
    (heard : ConditionalStore.Request (Bytes × List Bytes) Bytes Bytes × Reply) : Prop :=
  answered.1 = heard.1 ∧ Tells answered.2 heard.2

theorem run_holds {events : List Event} (hstart : EmptyRoots env.cfg users start)
    (h : Holds env.cfg users start docs s.tree) (hevents : ∀ e ∈ events, Ordinary users e) :
    ∃ log s', exchanges env s events = some (log, s') ∧ log.map Prod.fst = events ∧
      List.Forall₂ Agrees (answers (storeRules env) docs (requests env events))
        (documentLog env log) ∧
      Holds env.cfg users start (after (storeRules env) docs (requests env events)) s'.tree := by
  induction events generalizing s docs with
  | nil => exact ⟨[], s, rfl, rfl, List.Forall₂.nil, h⟩
  | cons e events ih =>
    obtain ⟨reply, s₁, hreply, hserve, told, -, holds⟩ := step_holds hstart h (hevents e (by simp))
    obtain ⟨log, s', hrun, hlog, agrees, hend⟩ :=
      ih holds fun e' he' => hevents e' (List.mem_cons_of_mem e he')
    refine ⟨(e, reply) :: log, s', ?_, by rw [List.map_cons, hlog], ?_, ?_⟩
    · simp only [exchanges, hreply, hserve, hrun, Option.map_some]
    · unfold documentLog at *
      rw [requests_cons]
      cases hasked : asked env e with
      | none =>
        rw [hasked] at agrees
        simpa [hasked] using agrees
      | some r =>
        rw [hasked] at agrees
        simp only [List.filterMap_cons, hasked, Option.map_some]
        exact List.Forall₂.cons ⟨rfl, told r hasked⟩ agrees
    · rw [requests_cons, after_append]
      exact hend

/-- The storage of many users is a store of documents for each of them: whatever the order of their
requests, every one is answered as the store does it, and the tree holds the store. -/
theorem server_refines_store {events : List Event} (hstart : EmptyRoots env.cfg users s.tree)
    (hevents : ∀ e ∈ events, Usual env users e) :
    ∃ log s', exchanges env s events = some (log, s') ∧ log.map Prod.fst = events ∧
      List.Forall₂ Agrees (answers (storeRules env) (fun _ => none) (requests env events))
        (documentLog env log) ∧
      Holds env.cfg users s.tree (after (storeRules env) (fun _ => none) (requests env events))
        s'.tree :=
  run_holds hstart hstart.holds fun e he => (hevents e he).toOrdinary

def twoUsers : Env := { sampleEnv with getpwnam := fun _ => .entry ⟨1000, 1000⟩ }

def twoHomes : Node :=
  folder [(str "home", folder [(str "me", folder [(str "storage", folder [])]),
    (str "you", folder [(str "storage", folder [])])])]

def eventOf (user : Bytes) (method : Method) (path file : Bytes) : Event where
  lookup := rootRecord
  written := 5
  req := { samplePut path file with user := user, method := method }

def twoUsersRun : List Event :=
  [eventOf (str "me") .PUT (str "/a") (str "a"), eventOf (str "you") .PUT (str "/a/b") (str "b"),
    eventOf (str "me") .PUT (str "/a/b") (str "b"), eventOf (str "you") .GET (str "/a/b") (str "b"),
    eventOf (str "me") .DELETE (str "/a") (str "a")]

def meAndYou : Set Bytes := {str "me", str "you"}

theorem emptyRoots_twoHomes : EmptyRoots twoUsers.cfg meAndYou twoHomes where
  owners := by
    rintro u (rfl | rfl)
    · exact ⟨by decide, by decide, by decide, by decide⟩
    · exact ⟨by decide, by decide, by decide, by decide⟩
  empty := by
    rintro u (rfl | rfl)
    · exact ⟨noXattrs, rfl⟩
    · exact ⟨noXattrs, rfl⟩
  named := by
    have empty : WellNamed (folder []) := wellNamed_branch (by simp) (by simp) _
    have single : ∀ name (child : Node), PlainName name → WellNamed child →
        WellNamed (folder [(name, child)]) := fun name child hname hchild =>
      wellNamed_branch (by simp) (List.forall_mem_singleton.2 ⟨hname, hchild⟩) _
    have storage := single (str "storage") _ ⟨by decide, by decide, by decide, by decide⟩ empty
    refine single _ _ plainName_home (wellNamed_branch (by decide) ?_ _)
    refine List.forall_mem_cons.2 ⟨⟨⟨by decide, by decide, by decide, by decide⟩, storage⟩, ?_⟩
    exact List.forall_mem_singleton.2 ⟨⟨by decide, by decide, by decide, by decide⟩, storage⟩
  uncached := by
    have empty : ∀ q kind, (folder []).look q = some kind → Sample kind := sample_folder (by simp)
    have all : ∀ q kind, twoHomes.look q = some kind → Sample kind := by
      refine sample_only (sample_folder ?_)
      exact List.forall_mem_cons.2
        ⟨sample_only empty, List.forall_mem_singleton.2 (sample_only empty)⟩
    intro loc kind hlook
    rw [(all loc kind hlook).1]
    rfl

theorem ordinary_eventOf {user : Bytes} (huser : user ∈ meAndYou) (method : Method)
    {path file : Bytes} (hpath : Canonical path) : Ordinary meAndYou (eventOf user method path file) where
  user := huser
  parsed := ⟨hpath.starts, by simp [eventOf, samplePut, hpath.ends]⟩
  path := Or.inl hpath
  typed := fun _ untyped => by
    obtain ⟨contentType, hheader, hall⟩ := untyped
    rw [← Option.some.inj hheader] at hall
    exact absurd hall (by decide)
  written := show (str "hello").length ≤ 5 by decide

theorem ordinary_twoUsersRun : ∀ e ∈ twoUsersRun, Ordinary meAndYou e := by
  have a : Canonical (str "/a") := ⟨by decide, by decide, by decide⟩
  have b : Canonical (str "/a/b") := ⟨by decide, by decide, by decide⟩
  have me : str "me" ∈ meAndYou := Or.inl rfl
  have you : str "you" ∈ meAndYou := Or.inr rfl
  simp only [twoUsersRun, List.forall_mem_cons, List.not_mem_nil, false_implies, implies_true,
    and_true]
  exact ⟨ordinary_eventOf me _ a, ordinary_eventOf you _ b, ordinary_eventOf me _ b,
    ordinary_eventOf you _ b, ordinary_eventOf me _ a⟩

theorem usual_twoUsersRun : ∀ e ∈ twoUsersRun, Usual twoUsers meAndYou e := by
  have within : ∀ e ∈ twoUsersRun,
      WithinLimits (makeDiskPath twoUsers.cfg e.req.user e.req.path).diskPath := by decide +kernel
  exact fun e he => ⟨ordinary_twoUsersRun e he, within e he⟩

theorem server_refines_store_sample :
    ((exchanges twoUsers ⟨twoHomes, [0, 1, 2]⟩ twoUsersRun).map
      (fun run => run.1.map (·.2.status)) = some [201, 201, 400, 200, 200]) ∧
      ∃ log s', exchanges twoUsers ⟨twoHomes, [0, 1, 2]⟩ twoUsersRun = some (log, s') ∧
        log.map Prod.fst = twoUsersRun ∧
        List.Forall₂ Agrees (answers (storeRules twoUsers) (fun _ => none)
          (requests twoUsers twoUsersRun)) (documentLog twoUsers log) ∧
        Holds twoUsers.cfg meAndYou twoHomes (after (storeRules twoUsers) (fun _ => none)
          (requests twoUsers twoUsersRun)) s'.tree :=
  ⟨by decide +kernel,
    server_refines_store (s := ⟨twoHomes, [0, 1, 2]⟩) emptyRoots_twoHomes usual_twoUsersRun⟩

end RsServe.UserStores
