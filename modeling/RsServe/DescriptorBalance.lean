import RsServe.SystemCalls

/-! Which requests leave descriptors open, whatever the calls of the handlers are answered. -/

namespace RsServe.DescriptorBalance
open CString Attributes Authorize AuthRecord Descriptors EarlyExit SystemCalls Users

/-- The calls after which a descriptor is not closed any more: get_etag has opened what it
computes the version of, serve_directory has no memory for an entry of its open stream, and
storage_handle_delete returns from its loop over the parents. -/
inductive Loses : Event → Prop where
  | etagFile (path : Bytes) : Loses ⟨.getEtag, .opens (.file path), .ok ()⟩
  | noEntry : Loses ⟨.serveDirectory, .alloc, false⟩
  | parentStays (dirPath : Bytes) (e : Errno) (hnotempty : e ≠ ENOTEMPTY) (hexist : e ≠ EEXIST) :
    Loses ⟨.storageHandleDelete, .unlinkat dirPath, .error e⟩

/-- From `h` and `fds` on: besides `fds` and what is `kept` to be closed later something is
open exactly if a descriptor was lost, as it `must` have been. -/
def Since (h : List Event) (fds kept : List Nat) (must : Prop) (p : Process) : Prop :=
  ∃ new left, p.history = h ++ new ∧ p.fds.Perm (left ++ (kept ++ fds)) ∧
    (∀ fd ∈ left ++ kept, fd ∉ fds) ∧ (left ≠ [] ↔ ∃ e ∈ new, Loses e) ∧
    (must → ∃ e ∈ new, Loses e)

variable {system : System} {h : List Event} {fds kept : List Nat} {must : Prop} {p : Process}

theorem since_start (p : Process) : Since p.history p.fds [] False p :=
  ⟨[], [], by simp, by simp, by simp, by simp, False.elim⟩

theorem Since.weaken (hp : Since h fds kept True p) : Since h fds kept must p := by
  obtain ⟨new, left, hnew, hperm, hfresh, hiff, hmust⟩ := hp
  exact ⟨new, left, hnew, hperm, hfresh, hiff, fun _ => hmust trivial⟩

theorem Since.answered {caller : Caller} {c : Syscall}
    (hc : ¬ Loses ⟨caller, c, system p.history c⟩) (hp : Since h fds kept must p) :
    Since h fds kept must (p.answered system caller c) := by
  obtain ⟨new, left, hnew, hperm, hfresh, hiff, hmust⟩ := hp
  have same : (∃ e ∈ new ++ [⟨caller, c, system p.history c⟩], Loses e) ↔ ∃ e ∈ new, Loses e := by
    simp [or_and_right, exists_or, hc]
  refine ⟨new ++ [⟨caller, c, system p.history c⟩], left, ?_, hperm, hfresh, ?_, ?_⟩
  · simp [Process.answered, hnew]
  · rw [same, hiff]
  · rwa [same]

theorem Since.opened (hp : Since h fds kept must p) :
    Since h fds (freshFd p.fds :: kept) must p.opened := by
  obtain ⟨new, left, hnew, hperm, hfresh, hiff, hmust⟩ := hp
  refine ⟨new, left, hnew, ?_, ?_, hiff, hmust⟩
  · exact (hperm.cons _).trans List.perm_middle.symm
  · have unused : freshFd p.fds ∉ fds := by
      intro used
      exact freshFd_not_mem p.fds (hperm.mem_iff.2 (by simp [used]))
    intro fd hfd
    rcases List.mem_append.1 hfd with lost | own
    · exact hfresh fd (List.mem_append_left _ lost)
    · rcases List.mem_cons.1 own with rfl | older
      · exact unused
      · exact hfresh fd (List.mem_append_right _ older)

theorem Since.closed {fd : Nat} (hp : Since h fds (fd :: kept) must p) :
    Since h fds kept must (p.closed fd) := by
  obtain ⟨new, left, hnew, hperm, hfresh, hiff, hmust⟩ := hp
  refine ⟨new, left, hnew, ?_, ?_, hiff, hmust⟩
  · have front : p.fds.Perm (fd :: (left ++ (kept ++ fds))) := hperm.trans List.perm_middle
    simpa [Process.closed] using front.erase fd
  · intro other hother
    exact hfresh other (by
      rcases List.mem_append.1 hother with lost | own
      · exact List.mem_append_left _ lost
      · exact List.mem_append_right _ (List.mem_cons_of_mem fd own))

theorem Since.perm {kept' : List Nat} (same : kept.Perm kept') (hp : Since h fds kept must p) :
    Since h fds kept' must p := by
  obtain ⟨new, left, hnew, hperm, hfresh, hiff, hmust⟩ := hp
  refine ⟨new, left, hnew, ?_, fun fd hfd => ?_, hiff, hmust⟩
  · exact hperm.trans ((same.append_right fds).append_left left)
  · exact hfresh fd ((same.append_left left).mem_iff.2 hfd)

theorem Since.drop {fd : Nat} (hp : Since h fds (fd :: kept) True p) :
    Since h fds kept True p := by
  obtain ⟨new, left, hnew, hperm, hfresh, hiff, hmust⟩ := hp
  refine ⟨new, fd :: left, hnew, hperm.trans List.perm_middle, fun other hother => ?_, ?_, hmust⟩
  · exact hfresh other (List.perm_middle.mem_iff.2 hother)
  · exact iff_of_true (by simp) (hmust trivial)

theorem Since.lost {fd : Nat} {caller : Caller} {c : Syscall}
    (hc : Loses ⟨caller, c, system p.history c⟩) (hp : Since h fds (fd :: kept) must p) :
    Since h fds kept True (p.answered system caller c) := by
  obtain ⟨new, left, hnew, hperm, hfresh, -, -⟩ := hp
  have some : ∃ e ∈ new ++ [⟨caller, c, system p.history c⟩], Loses e := ⟨_, by simp, hc⟩
  refine ⟨new ++ [⟨caller, c, system p.history c⟩], fd :: left, ?_, ?_, fun other hother => ?_,
    iff_of_true (by simp) some, fun _ => some⟩
  · simp [Process.answered, hnew]
  · exact hperm.trans List.perm_middle
  · exact hfresh other (List.perm_middle.mem_iff.2 hother)

def Keeps {ε α : Type} (prog : Sys ε α) : Prop :=
  ∀ h fds kept must, Triple (Since h fds kept must) prog (fun _ => Since h fds kept must)
    (fun _ => Since h fds kept must) fun _ => True

section Rules
variable {ε α β : Type} {R : ε → Process → Prop} {C : Process → Prop}

theorem triple_ask {caller : Caller} {c : Syscall} (hc : ∀ answer, ¬ Loses ⟨caller, c, answer⟩) :
    Triple (Since h fds kept must) (ask system caller c) (fun _ => Since h fds kept must) R C :=
  fun _ hp => hp.answered (hc _)

theorem triple_closeFd {fd : Nat} :
    Triple (Since h fds (fd :: kept) must) (closeFd fd) (fun _ => Since h fds kept must) R C :=
  triple_update fun _ hp => hp.closed

theorem triple_newFd :
    Triple (Since h fds kept must) newFd (fun fd => Since h fds (fd :: kept) must) R C :=
  fun _ hp => hp.opened

def Opened (h : List Event) (fds kept : List Nat) (must : Prop) (fd : Option Nat) :
    Process → Prop := Since h fds (fd.toList ++ kept) must

theorem triple_openFd {caller : Caller} {how : Opening}
    (hc : ∀ answer, ¬ Loses ⟨caller, .opens how, answer⟩) :
    Triple (Since h fds kept must) (openFd system caller how) (Opened h fds kept must) R C := by
  refine triple_bind (triple_ask hc) fun answer => ?_
  cases answer with
  | error e => exact triple_pure fun _ hp => hp
  | ok done => exact triple_bind triple_newFd fun fd => triple_pure fun _ hp => hp

theorem triple_openDir {caller : Caller} {path : Bytes}
    (hc : ∀ answer, ¬ Loses ⟨caller, .opendir path, answer⟩) :
    Triple (Since h fds kept must) (openDir system caller path)
      (fun dir => Opened h fds kept must (dir.map Prod.fst)) R C := by
  refine triple_bind (triple_ask hc) fun answer => ?_
  cases answer with
  | error e => exact triple_pure fun _ hp => hp
  | ok names => exact triple_bind triple_newFd fun fd => triple_pure fun _ hp => hp

theorem triple_check {e : ε} {ok : Bool} {P : Process → Prop} (hR : ∀ p, P p → R e p) :
    Triple P (check e ok) (fun _ => P) R C :=
  triple_ite (fun _ => triple_pure fun _ hp => hp) fun _ => triple_stop hR

theorem triple_alloc {caller : Caller} {e : ε} (hc : ∀ answer, ¬ Loses ⟨caller, .alloc, answer⟩)
    (hR : ∀ p, Since h fds kept must p → R e p) :
    Triple (Since h fds kept must) (alloc system caller e) (fun _ => Since h fds kept must) R C :=
  triple_bind (triple_ask hc) fun _ => triple_check hR

theorem Keeps.call {prog : Sys α α} (hprog : Keeps prog) :
    Triple (Since h fds kept must) (EarlyExit.call prog) (fun _ => Since h fds kept must) R
      fun _ => True :=
  triple_call (hprog h fds kept must)

theorem triple_orStop_bind {δ : Type} {o : Option δ} {e : ε} {f : δ → Sys ε β}
    {P : Option δ → Process → Prop} {Q : β → Process → Prop} (hnone : ∀ p, P none p → R e p)
    (hsome : ∀ d, Triple (P (some d)) (f d) Q R C) : Triple (P o) (orStop e o >>= f) Q R C := by
  cases o with
  | none => exact hnone
  | some d => exact hsome d

end Rules

theorem keeps_userGetEntry (username : Bytes) : Keeps (userGetEntry system username) := by
  intro h fds kept must
  refine triple_seq (triple_alloc (nofun) fun _ hp => hp) fun _ => ?_
  refine triple_seq (triple_alloc (nofun) fun _ hp => hp) fun _ => ?_
  refine triple_seq (triple_ask nofun) fun answer => ?_
  cases answer <;> exact triple_pure fun _ hp => hp

theorem keeps_getXattrLoop (path key : Bytes) (lens : List Nat) :
    Keeps (getXattrLoop system path key lens) := by
  intro h fds kept must
  induction lens with
  | nil => exact triple_seq (triple_ask nofun) fun _ => triple_pure fun _ hp => hp
  | cons len lens ih =>
    refine triple_seq (triple_alloc nofun fun _ hp => hp) fun _ => ?_
    refine triple_seq (triple_ask nofun) fun read => ?_
    refine triple_ite (fun _ => triple_pure fun _ hp => hp) fun _ => ?_
    exact triple_ite (fun _ => ih) fun _ => triple_pure fun _ hp => hp

theorem triple_getXattr {ε : Type} {R : ε → Process → Prop} (path key : Bytes) (maxlen : Nat) :
    Triple (Since h fds kept must) (getXattr system path key maxlen)
      (fun _ => Since h fds kept must) R fun _ => True :=
  (keeps_getXattrLoop path key _).call

theorem keeps_contentTypeFromXattr (path : Bytes) : Keeps (contentTypeFromXattr system path) := by
  intro h fds kept must
  refine triple_seq (triple_getXattr path _ 128) fun found => ?_
  refine triple_seq (triple_orStop (fun _ _ hp _ => hp) fun _ hp _ => hp) fun mimeType => ?_
  refine triple_seq (triple_getXattr path _ 64) fun charset => ?_
  cases charset with
  | none => exact triple_pure fun _ hp => hp
  | some charset =>
    exact triple_seq (triple_alloc nofun fun _ hp => hp) fun _ => triple_pure fun _ hp => hp

theorem keeps_contentTypeToXattr (path contentType : Bytes) :
    Keeps (contentTypeToXattr system path contentType) := by
  intro h fds kept must
  refine triple_seq (triple_alloc nofun fun _ hp => hp) fun _ => ?_
  refine triple_seq (triple_deref (fun _ _ hp _ => hp) fun _ _ _ => trivial) fun parts => ?_
  refine triple_seq (triple_ask nofun) fun _ => ?_
  exact triple_seq (triple_ask nofun) fun _ => triple_pure fun _ hp => hp

theorem triple_openEtag {R : Option Bytes → Process → Prop} {C : Process → Prop} (path : Bytes) :
    Triple (Since h fds kept must) (openFd system .getEtag (.file path))
      (fun fd => Since h fds kept (fd.isSome ∨ must)) R C := by
  intro p hp
  rw [openFd, bind_apply, ask]
  cases hanswer : system p.history (.opens (.file path)) with
  | error e =>
    have hnot : ¬ Loses ⟨.getEtag, .opens (.file path), system p.history (.opens (.file path))⟩ := by
      rw [hanswer]
      nofun
    simpa using hp.answered hnot
  | ok done =>
    have hlost : Loses ⟨.getEtag, .opens (.file path),
        system p.opened.history (.opens (.file path))⟩ := by
      rw [Process.opened, hanswer]
      exact .etagFile path
    exact (hp.opened.lost hlost).weaken

section Etag
variable {etagOf : Bytes → Sys (Option Bytes) (Option Bytes)} (hchild : ∀ path, Keeps (etagOf path))
include hchild

theorem keeps_hashEntries (diskPath : Bytes) (names : List Bytes) :
    Keeps (hashEntries system etagOf diskPath names) := by
  intro h fds kept must
  induction names with
  | nil => exact triple_pure fun _ hp => hp
  | cons name names ih =>
    refine triple_seq (hchild _).call fun etag => ?_
    refine triple_seq (triple_deref (fun _ _ hp _ => hp) fun _ _ _ => trivial) fun _ => ?_
    exact triple_seq (triple_ask nofun) fun _ => ih

omit hchild in
theorem keeps_hashPieces (pieces : List Bytes) : Keeps (hashPieces system pieces) := by
  intro h fds kept must
  induction pieces with
  | nil => exact triple_pure fun _ hp => hp
  | cons piece pieces ih =>
    refine triple_seq (triple_ask nofun) fun ok => ?_
    exact triple_seq (triple_check fun _ hp => hp) fun _ => ih

omit hchild in
theorem keeps_hashFile : Keeps (hashFile system) := by
  intro h fds kept must
  refine triple_seq (triple_ask nofun) fun read => ?_
  refine triple_seq (keeps_hashPieces read.1 h fds kept must) fun _ => ?_
  exact triple_check fun _ hp => hp

theorem triple_hashDirectory (diskPath : Bytes) :
    Triple (Since h fds kept True) (hashDirectory system etagOf diskPath)
      (fun _ => Since h fds kept True) (fun _ => Since h fds kept True) fun _ => True := by
  refine triple_bind (triple_openDir nofun) fun dir => ?_
  refine triple_orStop_bind (P := fun dir => Opened h fds kept True (dir.map Prod.fst))
    (fun _ hp => hp) fun dir => ?_
  refine triple_seq (triple_alloc nofun fun _ hp => hp.drop) fun _ => ?_
  refine triple_seq ?_ fun _ => triple_closeFd
  exact (keeps_hashEntries hchild diskPath dir.2 h fds (dir.1 :: kept) True).mono
    (fun _ hp => hp) (fun _ _ hp => hp) (fun _ _ hp => hp.drop) fun _ _ => trivial

theorem keeps_computeEtag (diskPath : Bytes) : Keeps (computeEtag system etagOf diskPath) := by
  intro h fds kept must
  refine triple_seq (triple_alloc nofun fun _ hp => hp) fun _ => ?_
  refine triple_seq (triple_ask nofun) fun ok => ?_
  refine triple_seq (triple_check fun _ hp => hp) fun _ => ?_
  refine triple_bind (triple_openEtag diskPath) fun fd => ?_
  refine triple_orStop_bind (P := fun fd => Since h fds kept (fd.isSome ∨ must))
    (fun _ hp => by simpa using hp) fun fd => ?_
  suffices rest : Triple (Since h fds kept True) _ (fun _ => Since h fds kept True)
      (fun _ => Since h fds kept True) fun _ => True from
    rest.mono (fun _ hp => by simpa using hp) (fun _ _ hp => hp.weaken)
      (fun _ _ hp => hp.weaken) fun _ hp => hp
  refine triple_seq (triple_ask nofun) fun stat => ?_
  cases stat with
  | error e => exact triple_stop fun _ hp => hp
  | ok isDir =>
    have hashed : Triple (Since h fds kept True) (hashNode system etagOf diskPath isDir)
        (fun _ => Since h fds kept True) (fun _ => Since h fds kept True) fun _ => True :=
      triple_ite (fun _ => triple_hashDirectory hchild diskPath)
        fun _ => keeps_hashFile h fds kept True
    refine triple_seq hashed fun _ => ?_
    refine triple_seq (triple_ask nofun) fun digest => ?_
    refine triple_seq (triple_orStop (fun _ _ hp _ => hp) fun _ hp _ => hp) fun digest => ?_
    exact triple_seq (triple_ask nofun) fun _ => triple_pure fun _ hp => hp

end Etag

theorem keeps_getEtag (depth : Nat) (diskPath : Bytes) : Keeps (getEtag system depth diskPath) := by
  induction depth generalizing diskPath with
  | zero => exact fun _ _ _ _ => triple_crash fun _ _ => trivial
  | succ depth ih =>
    intro h fds kept must
    refine triple_seq (triple_getXattr diskPath _ 41) fun cached => ?_
    cases cached with
    | some etag => exact triple_pure fun _ hp => hp
    | none => exact keeps_computeEtag ih diskPath h fds kept must

variable {setting : Setting}

theorem triple_etagText {R : Nat → Process → Prop} (etag : Option Bytes) :
    Triple (Since h fds kept must) (deref etag : Sys Nat Bytes) (fun _ => Since h fds kept must) R
      fun _ => True :=
  triple_deref (fun _ _ hp _ => hp) fun _ _ _ => trivial

theorem keeps_makeDiskPath (withRoot : Bool) (req : Request) :
    Keeps (makeDiskPath system setting withRoot req) := by
  intro h fds kept must
  refine triple_seq (triple_alloc nofun fun _ hp => hp) fun _ => ?_
  refine triple_seq ?_ fun _ => triple_pure fun _ hp => hp
  exact triple_ite (fun _ => triple_alloc nofun fun _ hp => hp) fun _ => triple_pure fun _ hp => hp

theorem keeps_checkIfMatch (diskPath : Bytes) (existed : Bool) (ifMatch : Option Bytes) :
    Keeps (checkIfMatch system setting diskPath existed ifMatch) := by
  intro h fds kept must
  cases ifMatch with
  | none => exact triple_pure fun _ hp => hp
  | some ifMatch =>
    refine triple_ite (fun _ => triple_stop fun _ hp => hp) fun _ => ?_
    refine triple_seq (keeps_getEtag _ _).call fun etag => ?_
    refine triple_seq (triple_etagText etag) fun etag => ?_
    exact triple_ite (fun _ => triple_stop fun _ hp => hp) fun _ => triple_pure fun _ hp => hp

theorem keeps_needUserEntry (username : Bytes) : Keeps (needUserEntry system username) := by
  intro h fds kept must
  refine triple_seq (keeps_userGetEntry username).call fun entry => ?_
  cases entry with
  | found pw => exact triple_pure fun _ hp => hp
  | notFound => exact triple_crash fun _ _ => trivial
  | null => exact triple_stop fun _ hp => hp

theorem triple_ensureDirectory (dirfd : Nat) (dirName : Bytes) :
    Triple (Since h fds (dirfd :: kept) must) (ensureDirectory system dirfd dirName)
      (fun _ => Since h fds (dirfd :: kept) must) (fun _ => Since h fds kept must)
      fun _ => True := by
  have fails : ∀ status, Triple (Since h fds (dirfd :: kept) must)
      (closeFd dirfd >>= fun _ => stop status : Sys Nat Unit)
      (fun _ => Since h fds (dirfd :: kept) must) (fun _ => Since h fds kept must)
      fun _ => True :=
    fun status => triple_bind triple_closeFd fun _ => triple_stop fun _ hp => hp
  refine triple_seq (triple_ask nofun) fun found => ?_
  cases found with
  | ok isDir =>
    cases isDir with
    | true => exact triple_pure fun _ hp => hp
    | false => exact fails 400
  | error e =>
    refine triple_seq (triple_ask nofun) fun made => ?_
    cases made with
    | ok done => exact triple_pure fun _ hp => hp
    | error e => exact fails 500

theorem triple_makeParents (dirNames : List Bytes) (dirfd : Nat) :
    Triple (Since h fds (dirfd :: kept) must) (makeParents system dirfd dirNames)
      (fun _ => Since h fds kept must) (fun _ => Since h fds kept must) fun _ => True := by
  induction dirNames generalizing dirfd with
  | nil => exact triple_closeFd
  | cons dirName dirNames ih =>
    refine triple_bind (triple_ensureDirectory dirfd dirName) fun _ => ?_
    refine triple_bind (triple_openFd nofun) fun next => ?_
    have closing : Triple (Opened h fds (dirfd :: kept) must next) (closeFd dirfd : Sys Nat Unit)
        (fun _ => Opened h fds kept must next) (fun _ => Since h fds kept must) fun _ => True :=
      triple_update fun p hp =>
        Since.closed (Since.perm List.perm_middle hp)
    refine triple_bind closing fun _ => ?_
    exact triple_orStop_bind (fun _ hp => hp) ih

theorem keeps_createParents (target : DiskPath.Target) : Keeps (createParents system target) := by
  intro h fds kept must
  refine triple_seq (triple_alloc nofun fun _ hp => hp) fun _ => ?_
  refine triple_ite (fun _ => triple_pure fun _ hp => hp) fun _ => ?_
  refine triple_bind (triple_openFd nofun) fun dirfd => ?_
  exact triple_orStop_bind (fun _ hp => hp) fun dirfd => triple_makeParents _ dirfd

theorem keeps_storageHandlePut (req : Request) : Keeps (storageHandlePut system setting req) := by
  intro h fds kept must
  refine triple_ite (fun _ => triple_stop fun _ hp => hp) fun _ => ?_
  refine triple_seq (keeps_makeDiskPath true req h fds kept must) fun target => ?_
  refine triple_seq (triple_ask nofun) fun found => ?_
  refine triple_seq (keeps_checkIfMatch _ _ _ h fds kept must) fun _ => ?_
  refine triple_seq ?_ fun _ => ?_
  · exact triple_ite (fun _ => triple_stop fun _ hp => hp) fun _ => triple_pure fun _ hp => hp
  refine triple_seq (keeps_needUserEntry _ h fds kept must) fun _ => ?_
  refine triple_seq (keeps_createParents target h fds kept must) fun _ => ?_
  refine triple_bind (triple_openFd nofun) fun fd => ?_
  refine triple_orStop_bind (fun _ hp => hp) fun fd => ?_
  refine triple_seq (keeps_contentTypeToXattr _ _).call fun _ => ?_
  refine triple_bind triple_closeFd fun _ => ?_
  refine triple_seq (triple_ask nofun) fun found' => ?_
  refine triple_seq (triple_check fun _ hp => hp) fun _ => ?_
  exact triple_seq (keeps_getEtag _ _).call fun etag => triple_pure fun _ hp => hp

theorem triple_removeParents (rootdirfd depth : Nat) (dirPath : Bytes) :
    Triple (Since h fds (rootdirfd :: kept) must) (removeParents system rootdirfd depth dirPath)
      (fun _ => Since h fds (rootdirfd :: kept) must) (fun _ => Since h fds kept must)
      fun _ => True := by
  induction depth generalizing dirPath with
  | zero => exact triple_crash fun _ _ => trivial
  | succ depth ih =>
    refine triple_ite (fun _ => triple_pure fun _ hp => hp) fun _ => ?_
    intro p hp
    rw [bind_apply, ask]
    cases hanswer : system p.history (.unlinkat dirPath) with
    | ok done =>
      have hnot : ¬ Loses ⟨.storageHandleDelete, .unlinkat dirPath,
          system p.history (.unlinkat dirPath)⟩ := by
        rw [hanswer]
        nofun
      exact ih (Dirname.dirname dirPath) _ (hp.answered hnot)
    | error e =>
      by_cases used : e = ENOTEMPTY ∨ e = EEXIST
      · have hnot : ¬ Loses ⟨.storageHandleDelete, .unlinkat dirPath,
            system p.history (.unlinkat dirPath)⟩ := by
          rw [hanswer]
          rintro ⟨⟩
          tauto
        simpa [used] using hp.answered hnot
      · have hlost : Loses ⟨.storageHandleDelete, .unlinkat dirPath,
            system p.history (.unlinkat dirPath)⟩ := by
          rw [hanswer]
          exact .parentStays dirPath e (fun h => used (.inl h)) fun h => used (.inr h)
        simpa [used] using (hp.lost hlost).weaken

theorem keeps_storageHandleDelete (req : Request) :
    Keeps (storageHandleDelete system setting req) := by
  intro h fds kept must
  refine triple_ite (fun _ => triple_stop fun _ hp => hp) fun _ => ?_
  refine triple_seq (keeps_makeDiskPath true req h fds kept must) fun target => ?_
  refine triple_seq (triple_ask nofun) fun found => ?_
  cases found with
  | error e => exact triple_stop fun _ hp => hp
  | ok isDir =>
    cases isDir with
    | true => exact triple_stop fun _ hp => hp
    | false =>
      refine triple_seq (keeps_getEtag _ _).call fun etag => ?_
      refine triple_seq ?_ fun _ => ?_
      · cases req.headersIn.ifMatch with
        | none => exact triple_pure fun _ hp => hp
        | some ifMatch =>
          refine triple_seq (triple_etagText etag) fun etag => ?_
          exact triple_ite (fun _ => triple_stop fun _ hp => hp) fun _ => triple_pure fun _ hp => hp
      refine triple_seq (triple_ask nofun) fun unlinked => ?_
      refine triple_seq (triple_check fun _ hp => hp) fun _ => ?_
      refine triple_seq (triple_alloc nofun fun _ hp => hp) fun _ => ?_
      refine triple_bind (triple_openFd nofun) fun root => ?_
      refine triple_orStop_bind (fun _ hp => hp) fun rootdirfd => ?_
      refine triple_bind (triple_removeParents rootdirfd _ _) fun _ => ?_
      exact triple_bind triple_closeFd fun _ => triple_pure fun _ hp => hp

theorem triple_serveEntries {R : Nat → Process → Prop} (diskPath : Bytes) (names : List Bytes) :
    Triple (Since h fds kept must) (serveEntries system setting diskPath names)
      (fun _ => Since h fds kept must) R fun _ => True := by
  induction names with
  | nil => exact triple_pure fun _ hp => hp
  | cons name names ih =>
    refine triple_seq (triple_ask nofun) fun found => ?_
    refine triple_seq (keeps_getEtag _ _).call fun etag => ?_
    exact triple_seq (triple_etagText etag) fun _ => ih

theorem triple_newJson {R : Nat → Process → Prop} :
    Triple (Since h fds kept must) (newJson system) (fun _ => Since h fds kept must) R
      fun _ => True := by
  refine triple_seq (triple_ask nofun) fun json => ?_
  cases json with
  | true => exact triple_pure fun _ hp => hp
  | false => exact triple_crash fun _ _ => trivial

theorem triple_allocEntry {dir : Nat} :
    Triple (Since h fds (dir :: kept) must) (alloc system .serveDirectory 500 : Sys Nat Unit)
      (fun _ => Since h fds (dir :: kept) must) (fun _ => Since h fds kept must)
      fun _ => True := by
  intro p hp
  rw [alloc, bind_apply, ask]
  cases hanswer : system p.history .alloc with
  | true =>
    have hnot : ¬ Loses ⟨.serveDirectory, .alloc, system p.history .alloc⟩ := by
      rw [hanswer]
      nofun
    exact hp.answered hnot
  | false =>
    have hlost : Loses ⟨.serveDirectory, .alloc, system p.history .alloc⟩ := by
      rw [hanswer]
      exact .noEntry
    exact (hp.lost hlost).weaken

theorem keeps_serveDirectory (diskPath : Bytes) :
    Keeps (serveDirectory system setting diskPath) := by
  intro h fds kept must
  refine triple_bind (triple_openDir nofun) fun dir => ?_
  refine triple_orStop_bind (P := fun dir => Opened h fds kept must (dir.map Prod.fst))
    (fun _ hp => hp) fun dir => ?_
  refine triple_seq triple_allocEntry fun _ => ?_
  refine triple_seq triple_newJson fun _ => ?_
  refine triple_seq (triple_serveEntries diskPath dir.2) fun _ => ?_
  refine triple_seq (keeps_getEtag _ _).call fun etag => ?_
  cases etag with
  | none => exact triple_bind triple_closeFd fun _ => triple_stop fun _ hp => hp
  | some etag => exact triple_bind triple_closeFd fun _ => triple_pure fun _ hp => hp

theorem keeps_serveFileHead (req : Request) (diskPath : Bytes) (isDir : Bool)
    (mimeType : Option Bytes) : Keeps (serveFileHead system setting req diskPath isDir mimeType) := by
  intro h fds kept must
  refine triple_ite (fun _ => triple_stop fun _ hp => hp) fun _ => ?_
  refine triple_seq (keeps_getEtag _ _).call fun found => ?_
  refine triple_seq (triple_orStop (fun _ _ hp _ => hp) fun _ hp _ => hp) fun etag => ?_
  refine triple_ite (fun _ => triple_stop fun _ hp => hp) fun _ => ?_
  refine triple_seq (triple_alloc nofun fun _ hp => hp) fun _ => ?_
  refine triple_ite (fun _ => ?_) fun _ => triple_pure fun _ hp => hp
  exact triple_seq (keeps_contentTypeFromXattr _).call fun _ => triple_pure fun _ hp => hp

theorem keeps_serveFile (diskPath : Bytes) : Keeps (serveFile system diskPath) := by
  intro h fds kept must
  refine triple_bind (triple_openFd nofun) fun fd => ?_
  refine triple_orStop_bind (fun _ hp => hp) fun fd => ?_
  refine triple_seq (triple_ask nofun) fun _ => ?_
  exact triple_bind triple_closeFd fun _ => triple_pure fun _ hp => hp

theorem keeps_handleGetOrHead (includeBody : Bool) (req : Request) :
    Keeps (handleGetOrHead system setting includeBody req) := by
  intro h fds kept must
  refine triple_seq (keeps_makeDiskPath false req h fds kept must) fun target => ?_
  refine triple_seq (triple_ask nofun) fun found => ?_
  cases found with
  | error e => exact triple_stop fun _ hp => hp
  | ok isDir =>
    refine triple_ite (fun _ => triple_ite (fun _ => ?_) fun _ => ?_) fun _ => ?_
    · exact (keeps_serveDirectory _).call
    · exact triple_seq (keeps_serveFileHead _ _ _ _).call fun status => triple_pure fun _ hp => hp
    · refine triple_seq (keeps_serveFileHead _ _ _ _).call fun status => ?_
      refine triple_ite (fun _ => triple_pure fun _ hp => hp) fun _ => ?_
      exact triple_ite (fun _ => (keeps_serveFile _).call) fun _ => triple_pure fun _ hp => hp

theorem keeps_verifyUser (username : Bytes) : Keeps (verifyUser system username) := fun _ _ _ _ =>
  triple_seq (keeps_userGetEntry username).call fun _ => triple_pure fun _ hp => hp

theorem keeps_callHandler (req : Request) : Keeps (callHandler system setting req) := by
  intro h fds kept must
  unfold callHandler
  cases req.method with
  | GET => exact (keeps_handleGetOrHead true req).call
  | HEAD =>
    exact triple_ite (fun _ => (keeps_handleGetOrHead false req).call)
      fun _ => triple_pure fun _ hp => hp
  | PUT => exact (keeps_storageHandlePut req).call
  | DELETE => exact (keeps_storageHandleDelete req).call
  | _ => exact triple_pure fun _ hp => hp

theorem keeps_dispatchStorage (lookup : Bytes → Bytes → Option RsAuthorization) (req : Request) :
    Keeps (dispatchStorage system setting lookup req) := by
  intro h fds kept must
  refine triple_seq (keeps_verifyUser _).call fun status => ?_
  refine triple_ite (fun _ => triple_pure fun _ hp => hp) fun _ => ?_
  refine triple_ite (fun _ => triple_pure fun _ hp => hp) fun _ => ?_
  exact keeps_callHandler req h fds kept must

structure Arrival where
  lookup : Bytes → Bytes → Option RsAuthorization
  req : Request

/-- The process after the reply; there is none without a status. -/
def serve (system : System) (setting : Setting) (p : Process) (a : Arrival) : Option Process :=
  match (call (dispatchStorage system setting a.lookup a.req) : Sys Empty Nat) p with
  | .next status p' => if status ≠ 0 then some p' else none
  | .crash _ => none

def completed (system : System) (setting : Setting) :
    Process → List Arrival → List (Process × Arrival × Process)
  | _, [] => []
  | p, a :: arrivals =>
    match serve system setting p a with
    | none => []
    | some p' => (p, a, p') :: completed system setting p' arrivals

def Balanced (system : System) (setting : Setting) (p : Process) (arrivals : List Arrival) : Prop :=
  ∀ step ∈ completed system setting p arrivals, ∀ fd, fd ∈ step.2.2.fds ↔ fd ∈ step.1.fds

def callsBetween (p p' : Process) : List Event := p'.history.drop p.history.length

theorem serve_of_mem {p : Process} {arrivals : List Arrival} {step : Process × Arrival × Process}
    (hstep : step ∈ completed system setting p arrivals) :
    serve system setting step.1 step.2.1 = some step.2.2 := by
  induction arrivals generalizing p with
  | nil => simp [completed] at hstep
  | cons a arrivals ih =>
    rw [completed] at hstep
    cases hserve : serve system setting p a with
    | none => simp [hserve] at hstep
    | some p' =>
      rw [hserve] at hstep
      rcases List.mem_cons.1 hstep with rfl | later
      · exact hserve
      · exact ih later

theorem since_serve {p p' : Process} {a : Arrival} (hserve : serve system setting p a = some p') :
    Since p.history p.fds [] False p' := by
  have keeps : Keeps (dispatchStorage system setting a.lookup a.req) :=
    keeps_dispatchStorage a.lookup a.req
  have run := keeps p.history p.fds [] False p (since_start p)
  unfold serve EarlyExit.call at hserve
  cases hrun : dispatchStorage system setting a.lookup a.req p with
  | next status q =>
    rw [hrun] at run hserve
    by_cases hstatus : status = 0
    · simp [hstatus] at hserve
    · simp only [ne_eq, hstatus, not_false_eq_true, if_true, Option.some.injEq] at hserve
      rwa [← hserve]
  | stop status q =>
    rw [hrun] at run hserve
    by_cases hstatus : status = 0
    · simp [hstatus] at hserve
    · simp only [ne_eq, hstatus, not_false_eq_true, if_true, Option.some.injEq] at hserve
      rwa [← hserve]
  | crash q =>
    rw [hrun] at hserve
    cases hserve

theorem Since.same_iff {p p' : Process} (hp : Since p.history p.fds [] False p') :
    (∀ fd, fd ∈ p'.fds ↔ fd ∈ p.fds) ↔ ∀ e ∈ callsBetween p p', ¬ Loses e := by
  obtain ⟨new, left, hnew, hperm, hfresh, hiff, -⟩ := hp
  have calls : callsBetween p p' = new := by rw [callsBetween, hnew, List.drop_left]
  have none : (∀ e ∈ new, ¬ Loses e) ↔ left = [] := by
    rw [← not_iff_not, ← ne_eq, hiff]
    simp
  rw [calls, none]
  constructor
  · intro same
    by_contra some
    obtain ⟨fd, hfd⟩ := List.exists_mem_of_ne_nil left some
    exact hfresh fd (by simp [hfd]) ((same fd).1 (hperm.mem_iff.2 (by simp [hfd])))
  · intro empty fd
    rw [hperm.mem_iff, empty]
    simp

/-- Descriptors are in balance over a run if and only if none of its requests loses one. -/
theorem balanced_iff_loses_none (system : System) (setting : Setting) (p : Process)
    (arrivals : List Arrival) :
    Balanced system setting p arrivals ↔
      ∀ step ∈ completed system setting p arrivals,
        ∀ e ∈ callsBetween step.1 step.2.2, ¬ Loses e := by
  unfold Balanced
  refine forall_congr' fun step => forall_congr' fun hstep => ?_
  exact (since_serve (serve_of_mem hstep)).same_iff

def oneDocument : System := fun _ c =>
  match c with
  | .alloc | .sha1Init | .sha1Update => true
  | .getpwnam _ => .entry ⟨1000, 1000⟩
  | .getxattr .. => ([], 61)
  | .opendir _ => .error ENOTDIR
  | .read => ([str "hello"], true)
  | .stat _ | .fstatat _ => .ok false
  | .sha1Final => some (List.replicate 20 0)
  | .setxattr .. | .opens _ | .mkdirat _ | .unlink _ | .unlinkat _ => .ok ()

def documentGet : Arrival where
  lookup := oneRecord
  req := { gluingPut with method := .GET, path := str "/a/b", bufferIn := [] }

theorem documentGet_loses :
    ¬ Balanced oneDocument ⟨defaultConfig, 8⟩ ⟨[], [0, 1, 2]⟩ [documentGet] := by
  intro balanced
  have opened : ([0, 1, 2], [3, 0, 1, 2]) ∈
      (completed oneDocument ⟨defaultConfig, 8⟩ ⟨[], [0, 1, 2]⟩ [documentGet]).map
        fun step => (step.1.fds, step.2.2.fds) := by decide +kernel
  obtain ⟨step, hstep, hfds⟩ := List.mem_map.1 opened
  rw [Prod.mk.injEq] at hfds
  have used := (balanced step hstep 3).1 (by rw [hfds.2]; decide)
  rw [hfds.1] at used
  exact absurd used (by decide)

end RsServe.DescriptorBalance
