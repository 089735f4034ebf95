import RsServe.ConditionalWrites
import RsServe.Documents

/-! What a storage root holds after a run of requests, told by their answers alone. -/

namespace RsServe.Histories
open CString NameTree Kernel Attributes DiskPath Storage StorageRules Users Authorize Dispatch
open PutResults Responses CanonicalPaths DocumentMap Documents ConditionalWrites

structure Exchange where
  req : Request
  status : Nat

def Exchange.effect (x : Exchange) : Option (Option Bytes) :=
  match x.req.method with
  | .PUT => if x.status = 200 ∨ x.status = 201 then some (some x.req.bufferIn) else none
  | .DELETE => if x.status = 200 then some none else none
  | _ => none

/-- The body of the last PUT to a path that succeeded, if no DELETE of it did after that; the
last exchange comes first. -/
def latest (path : Bytes) : List Exchange → Option Bytes
  | [] => none
  | x :: past =>
    match x.effect with
    | none => latest path past
    | some content => if x.req.path = path then content else latest path past

def PathAbove (q p : Bytes) : Prop := q ++ [slash] <+: p

def Allowed (past : List Exchange) (path : Bytes) : Prop :=
  ∀ q, Canonical q → PathAbove q path ∨ PathAbove path q → latest q past = none

def told (env : Env) : List Exchange → Server → List Event → List (List Exchange × Server × Event)
  | _, _, [] => []
  | past, s, e :: events =>
    (past, s, e) :: match serve env s e, replied env s e with
      | some s', some reply => told env (⟨e.req, reply.status⟩ :: past) s' events
      | _, _ => []

def contents : List Exchange → Docs Bytes Bytes
  | [] => fun _ => none
  | x :: past =>
    match x.effect with
    | none => contents past
    | some content => Function.update (contents past) (components x.req.path) content

variable {past : List Exchange}

theorem components_inj {p q : Bytes} (hp : Canonical p) (hq : Canonical q) :
    components p = components q ↔ p = q := by
  constructor
  · intro same
    rw [← hp.pathOf_components, same, hq.pathOf_components]
  · intro same
    rw [same]

theorem contents_components (hpast : ∀ x ∈ past, Canonical x.req.path) {path : Bytes}
    (h : Canonical path) : contents past (components path) = latest path past := by
  induction past with
  | nil => rfl
  | cons x past ih =>
    have rest := ih fun y hy => hpast y (List.mem_cons_of_mem x hy)
    have hx := hpast x List.mem_cons_self
    unfold contents latest
    cases x.effect with
    | none => exact rest
    | some content =>
      simp only [Function.update_apply, components_inj h hx, rest, eq_comm]

theorem exists_of_contents (hpast : ∀ x ∈ past, Canonical x.req.path) {names : List Bytes}
    (h : contents past names ≠ none) : ∃ path, Canonical path ∧ components path = names := by
  induction past with
  | nil => exact absurd rfl h
  | cons x past ih =>
    have rest := ih fun y hy => hpast y (List.mem_cons_of_mem x hy)
    unfold contents at h
    cases heffect : x.effect with
    | none =>
      rw [heffect] at h
      exact rest h
    | some content =>
      rw [heffect] at h
      by_cases hnames : names = components x.req.path
      · exact ⟨x.req.path, hpast x List.mem_cons_self, hnames.symm⟩
      · simp only [Function.update_of_ne hnames] at h
        exact rest h

theorem pathAbove_iff {p q : Bytes} (hp : Canonical p) (hq : Canonical q) :
    PathAbove q p ↔ Above (components q) (components p) := by
  constructor
  · intro above
    obtain ⟨rest, rfl⟩ := above
    have split : components (q ++ [slash] ++ rest) = components q ++ components rest := by
      rw [List.append_assoc, List.singleton_append, components_append_slash]
    refine ⟨components rest, fun none => ?_, split⟩
    rw [none, List.append_nil] at split
    have same := (components_inj hp hq).1 split
    have length := congrArg List.length same
    simp at length
  · intro above
    obtain ⟨rest, hrest, split⟩ := above
    obtain ⟨name, names, rfl⟩ := List.exists_cons_of_ne_nil hrest
    refine ⟨name ++ pathOf names, ?_⟩
    rw [← hp.pathOf_components, split, ← congrArg (· ++ _) hq.pathOf_components]
    simp [pathOf]

theorem allowed_iff (hpast : ∀ x ∈ past, Canonical x.req.path) {path : Bytes}
    (h : Canonical path) : Allowed past path ↔ Free (contents past) (components path) := by
  constructor
  · intro allowed
    have free : ∀ names, Above names (components path) ∨ Above (components path) names →
        contents past names = none := by
      intro names above
      by_contra some
      obtain ⟨q, hq, rfl⟩ := exists_of_contents hpast some
      rw [contents_components hpast hq] at some
      rw [← pathAbove_iff h hq, ← pathAbove_iff hq h] at above
      exact some (allowed q hq above)
    refine ⟨fun names above => free names (Or.inl above), fun ancestor => ?_⟩
    obtain ⟨names, above, hnames⟩ := ancestor
    exact hnames (free names (Or.inr above))
  · intro free q hq above
    rw [← contents_components hpast hq]
    rcases above with habove | hbelow
    · exact free.1 _ ((pathAbove_iff h hq).1 habove)
    · by_contra some
      exact free.2 ⟨components q, (pathAbove_iff hq h).1 hbelow, some⟩

def documentAt (env : Env) (user : Bytes) (tree : Node) (path : Bytes) : Option Bytes :=
  match viewAt tree (makeDiskPath env.cfg user path).diskPath with
  | some (.leaf content) => some content
  | _ => none

/-- The tree has the documents, at their paths and nowhere else, the directories above them and
no others, and is elsewhere as it was at the start. -/
structure Mirrors (env : Env) (user : Bytes) (start : Node) (root : Loc) (past : List Exchange)
    (tree : Node) : Prop where
  documents : ∀ path, Canonical path → documentAt env user tree path = latest path past
  files : ∀ names content, plain tree (root ++ names) = some (.leaf content) ↔
    ∃ path, Canonical path ∧ components path = names ∧ latest path past = some content
  directories : ∀ names, names ≠ [] → (plain tree (root ++ names) = some (.branch ()) ↔
    ∃ path, Canonical path ∧ Above names (components path) ∧ latest path past ≠ none)
  outside : ∀ q, ¬ (root <+: q ∧ q ≠ root) → plain tree q = plain start q

variable {env : Env} {user : Bytes} {start tree : Node} {root : Loc}

theorem documentAt_eq {docs : Docs Bytes Bytes} (hstart : EmptyRoot env.cfg user start root)
    (htree : Refines start root docs tree) {path : Bytes} (h : Canonical path) :
    documentAt env user tree path = docs (components path) := by
  have hview := htree.viewAt hstart h
  have hleaf := htree.inside.leaf (components path)
  unfold documentAt
  rw [hview]
  cases hplain : plain tree (root ++ components path) with
  | none =>
    cases hdoc : docs (components path) with
    | none => rfl
    | some content => simp [(hleaf content).2 hdoc] at hplain
  | some kind =>
    cases kind with
    | leaf content => exact ((hleaf content).1 hplain).symm
    | branch u =>
      cases hdoc : docs (components path) with
      | none => rfl
      | some content => simp [(hleaf content).2 hdoc] at hplain

theorem mirrors_of_refines (hstart : EmptyRoot env.cfg user start root)
    (hpast : ∀ x ∈ past, Canonical x.req.path) (htree : Refines start root (contents past) tree) :
    Mirrors env user start root past tree where
  documents := fun path hpath => by
    rw [documentAt_eq hstart htree hpath, contents_components hpast hpath]
  files := by
    intro names content
    rw [htree.inside.leaf]
    constructor
    · intro hdoc
      have some : contents past names ≠ none := by simp [hdoc]
      obtain ⟨path, hpath, rfl⟩ := exists_of_contents hpast some
      exact ⟨path, hpath, rfl, by rw [← contents_components hpast hpath, hdoc]⟩
    · intro stored
      obtain ⟨path, hpath, rfl, hlatest⟩ := stored
      rw [contents_components hpast hpath, hlatest]
  directories := by
    intro names hne
    rw [htree.inside.branch names hne]
    simp only [List.prefix_nil, hne, or_false]
    constructor
    · intro ancestor
      obtain ⟨q, above, hq⟩ := ancestor
      obtain ⟨path, hpath, rfl⟩ := exists_of_contents hpast hq
      exact ⟨path, hpath, above, by rwa [← contents_components hpast hpath]⟩
    · intro stored
      obtain ⟨path, hpath, above, hlatest⟩ := stored
      exact ⟨components path, above, by rwa [contents_components hpast hpath]⟩
  outside := htree.outside

/-- A PUT, GET or DELETE of a document without conditions, and a PUT with a media type, whose body
evbuffer_write writes in whole. -/
structure DocumentRequest (user : Bytes) (e : Event) : Prop where
  ofUser : e.req.user = user
  method : e.req.method = .PUT ∨ e.req.method = .GET ∨ e.req.method = .DELETE
  parsed : e.req.Parsed
  path : Canonical e.req.path
  unconditional : Unconditional e.req
  typed : e.req.method = .PUT → ¬ NoMediaType e.req
  written : e.req.bufferIn.length ≤ e.written

theorem DocumentRequest.file {e : Event} (h : DocumentRequest user e) : e.req.file ≠ none :=
  fun none => h.path.ends (h.parsed.2.1 none)

structure Law (env : Env) (start : Node) (root : Loc) (past : List Exchange) (s : Server)
    (e : Event) : Prop where
  before : Mirrors env e.req.user start root past s.tree
  put : LetThrough env e.lookup e.req → e.req.method = .PUT → ∃ reply,
    replied env s e = some reply ∧
    (Allowed past e.req.path →
      reply.status = if latest e.req.path past = none then 201 else 200) ∧
    (¬ Allowed past e.req.path →
      IsError reply.status ∧ plain (treeAfter env s e) = plain s.tree)
  delete : LetThrough env e.lookup e.req → e.req.method = .DELETE → ∃ reply,
    replied env s e = some reply ∧
    (latest e.req.path past ≠ none → reply.status = 200 ∧
      documentAt env e.req.user (treeAfter env s e) e.req.path = none) ∧
    (latest e.req.path past = none →
      IsError reply.status ∧ plain (treeAfter env s e) = plain s.tree)
  get : LetThrough env e.lookup e.req → e.req.method = .GET → ∃ reply,
    replied env s e = some reply ∧
    (∀ body, latest e.req.path past = some body → reply.status = 200 ∧ reply.body = body) ∧
    (latest e.req.path past = none → reply.status = 404) ∧
    plain (treeAfter env s e) = plain s.tree
  barred : ¬ LetThrough env e.lookup e.req → ∃ reply, replied env s e = some reply ∧
    (reply.status = 401 ∨ reply.status = 404 ∨ reply.status = 500) ∧ treeAfter env s e = s.tree
  others : ∀ path, Canonical path → path ≠ e.req.path →
    documentAt env e.req.user (treeAfter env s e) path = documentAt env e.req.user s.tree path
  after : ∀ reply, replied env s e = some reply →
    Mirrors env e.req.user start root (⟨e.req, reply.status⟩ :: past) (treeAfter env s e)

section
variable {s : Server} {e : Event} (hstart : EmptyRoot env.cfg e.req.user start root)
  (hpast : ∀ x ∈ past, Canonical x.req.path)
  (htree : Refines start root (contents past) s.tree) (he : DocumentRequest user e)

theorem contents_of_effect {x : Exchange} {content : Option Bytes} (h : x.effect = some content) :
    contents (x :: past) = Function.update (contents past) (components x.req.path) content := by
  rw [contents, h]

theorem contents_of_no_effect {x : Exchange} (h : x.effect = none) :
    contents (x :: past) = contents past := by
  rw [contents, h]

theorem contents_other {x : Exchange} {names : List Bytes} (h : names ≠ components x.req.path) :
    contents (x :: past) names = contents past names := by
  cases heffect : x.effect with
  | none => rw [contents_of_no_effect heffect]
  | some content => rw [contents_of_effect heffect, Function.update_of_ne h]

theorem effect_of_error {req : Request} {status : Nat} (h : IsError status) :
    Exchange.effect ⟨req, status⟩ = none := by
  unfold Exchange.effect
  cases req.method <;> rcases h with rfl | rfl | rfl | rfl <;> simp

theorem replied_of_run {p : Handler Nat} {status : Nat} {w : World}
    (hreplied : replied env s e = answer p s.tree s.fds ∧
      treeAfter env s e = (p (arrival s.tree s.fds)).state.tree)
    (hrun : p (arrival s.tree s.fds) = .next status w ∨ p (arrival s.tree s.fds) = .stop status w) :
    replied env s e = some ⟨status, w.headersOut, w.bufferOut⟩ ∧ treeAfter env s e = w.tree := by
  rw [hreplied.1, hreplied.2, answer]
  rcases hrun with hrun | hrun
  · rw [hrun]
    exact ⟨rfl, rfl⟩
  · rw [hrun]
    exact ⟨rfl, rfl⟩

include hstart hpast htree he

theorem put_told (hlet : LetThrough env e.lookup e.req) (hmethod : e.req.method = .PUT) :
    ∃ reply, replied env s e = some reply ∧
      (Allowed past e.req.path →
        reply.status = if latest e.req.path past = none then 201 else 200) ∧
      (¬ Allowed past e.req.path →
        IsError reply.status ∧ plain (treeAfter env s e) = plain s.tree) ∧
      Refines start root (contents (⟨e.req, reply.status⟩ :: past)) (treeAfter env s e) := by
  have calls := replied_calls (s := s) hlet
    (p := storageHandlePut env e.written e.req) (by simp only [callHandler, hmethod])
  have run := put_refines (w := arrival s.tree s.fds) hstart htree hlet.1 he.path he.file
    he.unconditional (he.typed hmethod) e.written
  rw [List.take_of_length_le he.written, ← allowed_iff hpast he.path,
    contents_components hpast he.path] at run
  by_cases hallowed : Allowed past e.req.path
  · obtain ⟨w, hrun, hrefines⟩ := run.1 hallowed
    have reply := replied_of_run calls (Or.inl hrun)
    refine ⟨_, reply.1, fun _ => rfl, fun blocked => absurd hallowed blocked, ?_⟩
    rw [reply.2]
    have effect : Exchange.effect ⟨e.req, if latest e.req.path past = none then 201 else 200⟩ =
        some (some e.req.bufferIn) := by
      simp only [Exchange.effect, hmethod]
      split <;> simp
    rw [contents_of_effect effect]
    exact hrefines
  · obtain ⟨status, w, herror, hrun, hplain⟩ := run.2 hallowed
    have reply := replied_of_run calls (Or.inr hrun)
    refine ⟨_, reply.1, fun allowed => absurd allowed hallowed, fun _ => ?_, ?_⟩
    · rw [reply.2]
      exact ⟨herror, hplain⟩
    · rw [reply.2, contents_of_no_effect (effect_of_error herror)]
      exact htree.congr hplain

theorem delete_told (hlet : LetThrough env e.lookup e.req) (hmethod : e.req.method = .DELETE) :
    ∃ reply, replied env s e = some reply ∧
      (latest e.req.path past ≠ none → reply.status = 200) ∧
      (latest e.req.path past = none →
        IsError reply.status ∧ plain (treeAfter env s e) = plain s.tree) ∧
      Refines start root (contents (⟨e.req, reply.status⟩ :: past)) (treeAfter env s e) := by
  have calls := replied_calls (s := s) hlet
    (p := storageHandleDelete env e.req) (by simp only [callHandler, hmethod])
  have run := delete_refines (w := arrival s.tree s.fds) hstart htree he.path he.file
    he.unconditional
  rw [contents_components hpast he.path] at run
  by_cases hstored : latest e.req.path past = none
  · obtain ⟨status, w, herror, hrun, hplain⟩ := run.2 hstored
    have reply := replied_of_run calls (Or.inr hrun)
    refine ⟨_, reply.1, fun stored => absurd hstored stored, fun _ => ?_, ?_⟩
    · rw [reply.2]
      exact ⟨herror, hplain⟩
    · rw [reply.2, contents_of_no_effect (effect_of_error herror)]
      exact htree.congr hplain
  · obtain ⟨w, hrun, hrefines⟩ := run.1 hstored
    have reply := replied_of_run calls (Or.inl hrun)
    refine ⟨_, reply.1, fun _ => rfl, fun none => absurd none hstored, ?_⟩
    have effect : Exchange.effect ⟨e.req, 200⟩ = some none := by
      simp only [Exchange.effect, hmethod, if_pos]
    rw [reply.2, contents_of_effect effect]
    exact hrefines

theorem get_told (hlet : LetThrough env e.lookup e.req) (hmethod : e.req.method = .GET) :
    ∃ reply, replied env s e = some reply ∧
      (∀ body, latest e.req.path past = some body → reply.status = 200 ∧ reply.body = body) ∧
      (latest e.req.path past = none → reply.status = 404) ∧
      plain (treeAfter env s e) = plain s.tree ∧
      Refines start root (contents (⟨e.req, reply.status⟩ :: past)) (treeAfter env s e) := by
  have calls := replied_calls (s := s) hlet
    (p := storageHandleGet env e.req) (by simp only [callHandler, hmethod])
  have run := get_refines hstart htree he.path he.file he.unconditional s.fds
  rw [contents_components hpast he.path] at run
  have same : plain (treeAfter env s e) = plain s.tree := by
    rw [calls.2]
    exact run.2.2
  have effect : ∀ status, Exchange.effect ⟨e.req, status⟩ = none := fun status => by
    simp only [Exchange.effect, hmethod]
  have refines : ∀ status,
      Refines start root (contents (⟨e.req, status⟩ :: past)) (treeAfter env s e) := by
    intro status
    rw [contents_of_no_effect (effect status)]
    exact htree.congr same
  cases hlatest : latest e.req.path past with
  | none =>
    obtain ⟨reply, hreply, hstatus⟩ := run.2.1 hlatest
    refine ⟨reply, calls.1.trans hreply, fun body hbody => ?_, fun _ => hstatus, same, refines _⟩
    cases hbody
  | some content =>
    obtain ⟨reply, hreply, hstatus, hbody⟩ := run.1 content hlatest
    refine ⟨reply, calls.1.trans hreply, fun body same => ?_, fun none => ?_, same, refines _⟩
    · rw [Option.some.inj same] at hbody
      exact ⟨hstatus, hbody⟩
    · cases none

omit hstart hpast in
theorem barred_told (hlet : ¬ LetThrough env e.lookup e.req) :
    ∃ reply, replied env s e = some reply ∧
      (reply.status = 401 ∨ reply.status = 404 ∨ reply.status = 500) ∧
      treeAfter env s e = s.tree ∧
      Refines start root (contents (⟨e.req, reply.status⟩ :: past)) (treeAfter env s e) := by
  obtain ⟨same, status, hstatus, -, -, hreply⟩ := replied_barred (s := s) hlet
  have known : e.req.method ≠ .OPTIONS := by
    intro options
    simpa [options] using he.method
  have effect : Exchange.effect ⟨e.req, status⟩ = none := by
    unfold Exchange.effect
    cases e.req.method <;> rcases hstatus known with rfl | rfl | rfl <;> simp
  refine ⟨_, hreply, hstatus known, same, ?_⟩
  rw [contents_of_no_effect effect, same]
  exact htree

theorem step_told : ∃ reply, replied env s e = some reply ∧
    Refines start root (contents (⟨e.req, reply.status⟩ :: past)) (treeAfter env s e) := by
  by_cases hlet : LetThrough env e.lookup e.req
  · rcases he.method with hmethod | hmethod | hmethod
    · obtain ⟨reply, hreply, -, -, hrefines⟩ := put_told hstart hpast htree he hlet hmethod
      exact ⟨reply, hreply, hrefines⟩
    · obtain ⟨reply, hreply, -, -, -, hrefines⟩ := get_told hstart hpast htree he hlet hmethod
      exact ⟨reply, hreply, hrefines⟩
    · obtain ⟨reply, hreply, -, -, hrefines⟩ := delete_told hstart hpast htree he hlet hmethod
      exact ⟨reply, hreply, hrefines⟩
  · obtain ⟨reply, hreply, -, -, hrefines⟩ := barred_told htree he hlet
    exact ⟨reply, hreply, hrefines⟩

theorem law_told : Law env start root past s e := by
  obtain ⟨reply, hreply, hrefines⟩ := step_told hstart hpast htree he
  have longer : ∀ x ∈ (⟨e.req, reply.status⟩ :: past : List Exchange), Canonical x.req.path :=
    List.forall_mem_cons.2 ⟨he.path, hpast⟩
  have document := fun path (hpath : Canonical path) => documentAt_eq hstart hrefines hpath
  refine ⟨mirrors_of_refines hstart hpast htree, fun hlet hmethod => ?_, fun hlet hmethod => ?_,
    fun hlet hmethod => ?_, fun hlet => ?_, fun path hpath hother => ?_, fun reply' hreply' => ?_⟩
  · obtain ⟨sent, hsent, allowed, blocked, -⟩ := put_told hstart hpast htree he hlet hmethod
    exact ⟨sent, hsent, allowed, blocked⟩
  · obtain ⟨sent, hsent, stored, absent, hshown⟩ := delete_told hstart hpast htree he hlet hmethod
    refine ⟨sent, hsent, fun there => ⟨stored there, ?_⟩, absent⟩
    have effect : Exchange.effect ⟨e.req, sent.status⟩ = some none := by
      simp only [Exchange.effect, hmethod, stored there, if_pos]
    rw [documentAt_eq hstart hshown he.path, contents_of_effect effect, Function.update_self]
  · obtain ⟨sent, hsent, found, missing, same, -⟩ := get_told hstart hpast htree he hlet hmethod
    exact ⟨sent, hsent, found, missing, same⟩
  · obtain ⟨sent, hsent, hstatus, same, -⟩ := barred_told htree he hlet
    exact ⟨sent, hsent, hstatus, same⟩
  · have names : components path ≠ components e.req.path := by
      rwa [ne_eq, components_inj hpath he.path]
    rw [document path hpath, contents_other names, documentAt_eq hstart htree hpath]
  · rw [hreply, Option.some_inj] at hreply'
    rw [← hreply']
    exact mirrors_of_refines hstart longer hrefines

end

theorem serve_of_replied {s : Server} {e : Event} {reply : Reply}
    (h : replied env s e = some reply) :
    ∃ s', serve env s e = some s' ∧ s'.tree = treeAfter env s e := by
  unfold replied at h
  unfold serve treeAfter
  rcases hserved : dispatchStorage env e.lookup e.written e.req s.tree s.fds with ⟨statuses, w⟩
  rw [hserved] at h
  cases statuses with
  | nil => cases h
  | cons status statuses => exact ⟨_, rfl, rfl⟩

theorem told_lawful (hstart : EmptyRoot env.cfg user start root)
    (hpast : ∀ x ∈ past, Canonical x.req.path) {s : Server}
    (htree : Refines start root (contents past) s.tree) {events : List Event}
    (hevents : ∀ e ∈ events, DocumentRequest user e) :
    (told env past s events).map (·.2.2) = events ∧
      ∀ step ∈ told env past s events, Law env start root step.1 step.2.1 step.2.2 := by
  induction events generalizing past s with
  | nil => simp [told]
  | cons e events ih =>
    have he := hevents e List.mem_cons_self
    have own : EmptyRoot env.cfg e.req.user start root := he.ofUser.symm ▸ hstart
    obtain ⟨reply, hreply, hrefines⟩ := step_told own hpast htree he
    obtain ⟨s', hserve, hsame⟩ := serve_of_replied hreply
    rw [← hsame] at hrefines
    have rest := ih (List.forall_mem_cons.2 ⟨he.path, hpast⟩) hrefines
      fun e' he' => hevents e' (List.mem_cons_of_mem e he')
    rw [told, hserve, hreply]
    refine ⟨by rw [List.map_cons, rest.1], fun step hstep => ?_⟩
    rcases List.mem_cons.1 hstep with rfl | later
    · exact law_told own hpast htree he
    · exact rest.2 step later

/-- From an empty storage root, what every run of such requests stores is what it is told to. -/
theorem history_of_documents {s : Server} {events : List Event}
    (hstart : EmptyRoot env.cfg user s.tree root)
    (hevents : ∀ e ∈ events, DocumentRequest user e) :
    (told env [] s events).map (·.2.2) = events ∧
      ∀ step ∈ told env [] s events, Law env s.tree root step.1 step.2.1 step.2.2 := by
  have nothing : Refines s.tree root (contents []) s.tree := refines_start hstart
  exact told_lawful hstart (by simp) nothing hevents

def sampleExchange (method : Method) : Event where
  lookup := oneRecord
  written := 5
  req := { samplePut (str "/a/b") (str "b") with method := method }

theorem sampleExchange_document {method : Method}
    (h : method = .PUT ∨ method = .GET ∨ method = .DELETE) :
    DocumentRequest (str "me") (sampleExchange method) where
  ofUser := rfl
  method := h
  parsed := ⟨rfl, show some (str "b") = none ↔ (str "/a/b").getLast? = some slash by decide⟩
  path := show Canonical (str "/a/b") from ⟨by decide, by decide, by decide⟩
  unconditional := ⟨rfl, rfl⟩
  typed := fun _ untyped => by
    obtain ⟨contentType, hheader, hall⟩ := untyped
    rw [← Option.some.inj hheader] at hall
    exact absurd hall (by decide)
  written := show (str "hello").length ≤ 5 by decide

def sampleRun : List Event := [.PUT, .GET, .DELETE, .GET].map sampleExchange

theorem history_sample :
    EmptyRoot sampleEnv.cfg (str "me") emptyHome [str "home", str "me", str "storage"] ∧
      (∀ e ∈ sampleRun, DocumentRequest (str "me") e) ∧
      (told sampleEnv [] ⟨emptyHome, [0, 1, 2]⟩ sampleRun).map
        (fun step => step.1.map Exchange.status) = [[], [201], [200, 201], [200, 200, 201]] ∧
      ∀ step ∈ told sampleEnv [] ⟨emptyHome, [0, 1, 2]⟩ sampleRun,
        Law sampleEnv emptyHome [str "home", str "me", str "storage"] step.1 step.2.1 step.2.2 := by
  have empty : EmptyRoot sampleEnv.cfg (str "me") emptyHome
      [str "home", str "me", str "storage"] := ⟨by decide +kernel, noXattrs, rfl⟩
  have requests : ∀ e ∈ sampleRun, DocumentRequest (str "me") e := by
    intro e he
    obtain ⟨method, hmethod, rfl⟩ := List.mem_map.1 he
    refine sampleExchange_document ?_
    simp only [List.mem_cons, List.not_mem_nil, or_false] at hmethod
    rcases hmethod with rfl | rfl | rfl | rfl <;> simp
  refine ⟨empty, requests, by decide +kernel, ?_⟩
  exact (history_of_documents (s := ⟨emptyHome, [0, 1, 2]⟩) empty requests).2

end RsServe.Histories
