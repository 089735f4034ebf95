import Mathlib.Data.List.Forall2
import RsServe.Stamping
import RsServe.Storage

/-! Triples of the storage handlers: what get_etag may do to the tree while nothing else
happens, which statuses are returned, and which reads end in a crash. -/

namespace RsServe.StorageRules
open CString NameTree Kernel Attributes Stamping Descriptors DiskPath EarlyExit JsonWriter Storage

variable {env : Env}

def Stampable (env : Env) (I : Node → Prop) : Prop :=
  ∀ tree path r, I tree → getEtag env.sha1 tree path = some r → I r.2

theorem stampable_plain (env : Env) (view : Loc → Option View) :
    Stampable env fun tree => plain tree = view :=
  fun _ _ _ h hr => (plain_getEtag hr).trans h

theorem stampable_uncached (env : Env) : Stampable env Uncached :=
  fun _ _ _ h hr => uncached_getEtag env.sha1_length h hr

/-- A property of the tree beside one of what is collected for the reply. -/
def Frame (I : Node → Prop) (H : List (Bytes × Bytes) → Bytes → Prop) (w : World) : Prop :=
  I w.tree ∧ H w.headersOut w.bufferOut

theorem triple_etagOf {I : Node → Prop} {H : List (Bytes × Bytes) → Bytes → Prop}
    (hI : Stampable env I) (path : Bytes) {R : Nat → World → Prop} {C : World → Prop} :
    Triple (Frame I H) (etagOf env path) (fun _ => Frame I H) R C := by
  intro w hw
  unfold etagOf
  cases h : getEtag env.sha1 w.tree path with
  | none => exact hw
  | some r => exact ⟨hI w.tree path r hw.1 h, hw.2⟩

abbrev OnTree (I : Node → Prop) : World → Prop := Frame I fun _ _ => True

theorem triple_openFd {I : Node → Prop} {H : List (Bytes × Bytes) → Bytes → Prop}
    {R : Nat → World → Prop} {C : World → Prop} :
    Triple (Frame I H) openFd (fun _ => Frame I H) R C := fun _ hw => hw

theorem triple_closeFd {I : Node → Prop} {H : List (Bytes × Bytes) → Bytes → Prop} (fd : Nat)
    {R : Nat → World → Prop} {C : World → Prop} :
    Triple (Frame I H) (closeFd fd) (fun _ => Frame I H) R C := triple_update fun _ hw => hw

def Answered (J : World → Prop) (status : Nat) (w : World) : Prop := status ≠ 0 ∧ J w

def IsError (status : Nat) : Prop := status = 400 ∨ status = 404 ∨ status = 412 ∨ status = 500

def Succeeded (J : World → Prop) (status : Nat) (w : World) : Prop :=
  (status = 200 ∨ status = 201) ∧ J w

def Failed (J : World → Prop) (status : Nat) (w : World) : Prop := IsError status ∧ J w

theorem IsError.ne_zero {status : Nat} (h : IsError status) : status ≠ 0 := by
  rcases h with rfl | rfl | rfl | rfl <;> simp

theorem Succeeded.answered {J : World → Prop} {status : Nat} {w : World} (h : Succeeded J status w) :
    Answered J status w := by
  refine ⟨?_, h.2⟩
  rcases h.1 with rfl | rfl <;> simp

theorem Failed.answered {J : World → Prop} {status : Nat} {w : World} (h : Failed J status w) :
    Answered J status w := ⟨h.1.ne_zero, h.2⟩

section Reads
variable {I : Node → Prop} {H : List (Bytes × Bytes) → Bytes → Prop} (hI : Stampable env I)
include hI

theorem triple_serveFileHead (hH : ∀ headers body header, H headers body →
    H (headers ++ [header]) body) (req : Request) (diskPath : Bytes) (statBuf : Stat)
    (mimeType : Option Bytes) {C : World → Prop} :
    Triple (Frame I H) (serveFileHead env req diskPath statBuf mimeType) (fun _ => Frame I H)
      (fun _ => Frame I H) C := by
  have header : ∀ key val, Triple (Frame I H) (addRespHeader key val) (fun _ => Frame I H)
      (fun _ => Frame I H) C := fun key val => triple_update fun w hw => ⟨hw.1, hH _ _ _ hw.2⟩
  refine triple_ite (fun _ => triple_stop fun w hw => hw) fun _ => ?_
  refine triple_seq (triple_etagOf hI diskPath) fun found => ?_
  refine triple_seq (triple_orStop (fun w etag hw _ => hw) fun w hw _ => hw) fun etag => ?_
  refine triple_ite (fun _ => triple_stop fun w hw => hw) fun _ => ?_
  refine triple_seq (triple_read fun w hw => hw) fun detected => ?_
  refine triple_seq (header _ _) fun _ => ?_
  refine triple_seq (header _ _) fun _ => ?_
  refine triple_seq (header _ _) fun _ => ?_
  exact triple_pure fun w hw => hw

theorem triple_serveEntries (diskPath : Bytes) (names : List Bytes) (json : Json)
    {R : Nat → World → Prop} :
    Triple (Frame I H) (serveEntries env diskPath names json) (fun _ => Frame I H) R
      (Frame I H) := by
  induction names generalizing json with
  | nil => exact triple_pure fun w hw => hw
  | cons name names ih =>
    refine triple_seq (triple_read fun w hw => hw) fun isDir => ?_
    refine triple_seq (triple_etagOf hI _) fun found => ?_
    refine triple_seq (triple_deref (fun w etag hw _ => hw) fun w hw _ => hw) fun etag => ?_
    exact ih _

theorem triple_serveDirectory (diskPath : Bytes) :
    Triple (OnTree I) (serveDirectory env diskPath) (Answered (OnTree I)) (Answered (OnTree I))
      (OnTree I) := by
  refine triple_seq (triple_attempt (fun w names hw _ => hw) fun w e hw _ => ⟨by simp, hw⟩)
    fun names => ?_
  refine triple_seq triple_openFd fun dir => ?_
  refine triple_seq (triple_read fun w hw => hw) fun start => ?_
  refine triple_seq (triple_serveEntries hI diskPath names start) fun json => ?_
  refine triple_seq (triple_update fun w hw => hw) fun _ => ?_
  refine triple_seq (triple_etagOf hI diskPath) fun found => ?_
  refine triple_seq (triple_orStop (fun w etag hw _ => hw) fun w hw _ => ⟨by simp, hw⟩)
    fun etag => ?_
  refine triple_seq (triple_update fun w hw => hw) fun _ => ?_
  refine triple_seq (triple_update fun w hw => hw) fun _ => ?_
  refine triple_seq (triple_closeFd dir) fun _ => ?_
  exact triple_pure fun w hw => ⟨by simp, hw⟩

omit hI in
theorem triple_serveFile (diskPath : Bytes) {C : World → Prop} :
    Triple (OnTree I) (serveFile diskPath) (Answered (OnTree I)) (Answered (OnTree I)) C := by
  refine triple_seq (triple_attempt (fun w file hw _ => hw) fun w e hw _ => ⟨by simp, hw⟩)
    fun file => ?_
  refine triple_seq triple_openFd fun fd => ?_
  refine triple_seq (triple_update fun w hw => hw) fun _ => ?_
  refine triple_seq (triple_closeFd fd) fun _ => ?_
  exact triple_pure fun w hw => ⟨by simp, hw⟩

omit hI in
theorem statFailed_ne_zero (e : Errno) : statFailed e ≠ 0 := by
  cases e <;> simp [statFailed]

theorem triple_handleGetOrHead (includeBody : Bool) (req : Request) :
    Triple (OnTree I) (handleGetOrHead env includeBody req) (Answered (OnTree I))
      (Answered (OnTree I)) (OnTree I) := by
  have head := fun statBuf mimeType => triple_serveFileHead hI (fun _ _ _ h => h) req
    (makeDiskPath env.cfg req.user req.path).diskPath statBuf mimeType (H := fun _ _ => True)
    (C := OnTree I)
  refine triple_seq (triple_read fun w hw => hw) fun result => ?_
  cases result with
  | error e => exact triple_stop fun w hw => ⟨statFailed_ne_zero e, hw⟩
  | ok statBuf =>
    refine triple_ite (fun _ => ?_) fun _ => ?_
    · refine triple_ite (fun _ => triple_call (triple_serveDirectory hI _)) fun _ => ?_
      refine triple_seq (triple_call (head statBuf _)) fun status => ?_
      refine triple_pure fun w hw => ⟨?_, hw⟩
      by_cases h : status = 0
      · simp [h]
      · simp [h]
    · refine triple_seq (triple_call (head statBuf _)) fun status => ?_
      refine triple_ite (fun h => triple_pure fun w hw => ⟨h, hw⟩) fun _ => ?_
      refine triple_ite (fun _ => triple_call (triple_serveFile _)) fun _ => ?_
      exact triple_pure fun w hw => ⟨by simp, hw⟩

end Reads

structure KeptByPut (env : Env) (stored : Bytes) (I : Node → Prop) : Prop where
  stamp : Stampable env I
  mkdirat : ∀ tree dir name tree', I tree → mkdirat tree dir name = .ok tree' → I tree'
  openCreate : ∀ tree path r, I tree → openCreate tree path = .ok r → I r.2
  write : ∀ tree fd, I tree → I (write tree fd stored)
  setxattr : ∀ tree path contentType f, I tree → contentTypeToXattr contentType = some f →
    I (setxattr tree path f)

structure KeptByCalls (env : Env) (stored : Bytes) (I : Node → Prop) : Prop extends
    KeptByPut env stored I where
  unlink : ∀ tree path tree', I tree → unlink tree path = .ok tree' → I tree'
  rmdirat : ∀ tree dir path tree', I tree → rmdirat tree dir path = .ok tree' → I tree'

structure KeptByPutTo (env : Env) (diskPath stored : Bytes) (I : Node → Prop) : Prop where
  stamp : Stampable env I
  mkdirat : ∀ tree dir name tree', I tree → mkdirat tree dir name = .ok tree' → I tree'
  openCreate : ∀ tree path r, I tree → openCreate tree path = .ok r → I r.2
  write : ∀ tree fd, I tree → I (write tree fd stored)
  setxattr : ∀ tree contentType f, I tree → contentTypeToXattr contentType = some f →
    I (setxattr tree diskPath f)

structure KeptByDeleteOf (env : Env) (diskPath : Bytes) (I : Node → Prop) : Prop where
  stamp : Stampable env I
  unlink : ∀ tree tree', I tree → unlink tree diskPath = .ok tree' → I tree'
  rmdirat : ∀ tree dir path tree', I tree → rmdirat tree dir path = .ok tree' → I tree'

theorem KeptByPut.putTo {stored : Bytes} {I : Node → Prop} (h : KeptByPut env stored I)
    (diskPath : Bytes) : KeptByPutTo env diskPath stored I where
  stamp := h.stamp
  mkdirat := h.mkdirat
  openCreate := h.openCreate
  write := h.write
  setxattr := fun tree => h.setxattr tree diskPath

theorem KeptByCalls.deleteOf {stored : Bytes} {I : Node → Prop} (h : KeptByCalls env stored I)
    (diskPath : Bytes) : KeptByDeleteOf env diskPath I where
  stamp := h.stamp
  unlink := fun tree => h.unlink tree diskPath
  rmdirat := h.rmdirat

theorem keptByCalls_true (env : Env) (stored : Bytes) : KeptByCalls env stored fun _ => True where
  stamp := fun _ _ _ _ _ => trivial
  mkdirat := fun _ _ _ _ _ _ => trivial
  openCreate := fun _ _ _ _ _ => trivial
  write := fun _ _ _ => trivial
  setxattr := fun _ _ _ _ _ _ => trivial
  unlink := fun _ _ _ _ _ => trivial
  rmdirat := fun _ _ _ _ _ _ => trivial

theorem keptByCalls_of_paths {stored : Bytes} {I : Node → Prop}
    (hput : ∀ diskPath, KeptByPutTo env diskPath stored I)
    (hdelete : ∀ diskPath, KeptByDeleteOf env diskPath I) : KeptByCalls env stored I where
  stamp := (hput []).stamp
  mkdirat := (hput []).mkdirat
  openCreate := (hput []).openCreate
  write := (hput []).write
  setxattr := fun tree path => (hput path).setxattr tree
  unlink := fun tree path => (hdelete path).unlink tree
  rmdirat := (hdelete []).rmdirat

def AtEach (P : Loc → Option Stat → Prop) (tree : Node) : Prop := ∀ q, P q (tree.look q)

structure AllowsPut (diskPath stored : Bytes) (P : Loc → Option Stat → Prop) : Prop where
  made : ∀ q, P q none → P q (some (.branch noXattrs))
  created : ∀ q, P q none → P q (some (.leaf ⟨[], noXattrs⟩))
  written : ∀ q f content, content = [] ∨ content = stored → P q (some (.leaf f)) →
    P q (some (.leaf ⟨content, f.xattrs⟩))
  typed : ∀ q contentType g kind, q = resolved diskPath →
    contentTypeToXattr contentType = some g → P q (some kind) → P q (some (mapKind g kind))

structure AllowsDelete (diskPath : Bytes) (P : Loc → Option Stat → Prop) : Prop where
  unlinked : ∀ q f, q = resolved diskPath → P q (some (.leaf f)) → P q none
  removed : ∀ q x, P q (some (.branch x)) → P q none

theorem namei_resolved {tree : Node} {path : Bytes} {loc : Loc} (h : namei tree path = .ok loc) :
    loc = resolved path := by
  have hwalk : TreeWalk.walk (str ".") (str "..") (TreeWalk.shape tree) [] (pathNames path) =
      .ok loc := by
    unfold namei lookupAt at h
    cases hw : TreeWalk.walk (str ".") (str "..") (TreeWalk.shape tree) [] (pathNames path) with
    | error e => simp [hw] at h
    | ok l => simpa [hw] using h
  rw [TreeWalk.walk_lexical hwalk, pathNames, List.foldl_append, resolved, LexicalPath.resolve]
  by_cases hslash : path.getLast? = some slash
  · rw [if_pos hslash, List.foldl_cons, List.foldl_nil, LexicalPath.enter, if_pos rfl]
    rfl
  · rw [if_neg hslash, List.foldl_nil]
    rfl

section AtEach
variable {diskPath stored : Bytes} {P : Loc → Option Stat → Prop}

theorem atEach_mkdirat {tree tree' : Node} {dir : Loc} {name : Bytes}
    (hP : AllowsPut diskPath stored P) (h : AtEach P tree)
    (hcall : mkdirat tree dir name = .ok tree') : AtEach P tree' := by
  intro q
  obtain ⟨-, -, -, fresh, hlook⟩ := mkdirat_ok hcall
  have before := h q
  rw [hlook]
  by_cases hq : q = dir ++ [name]
  · rw [hq, fresh] at before
    rw [if_pos hq, hq]
    exact hP.made _ before
  · rw [if_neg hq]
    exact before

theorem atEach_openCreate {tree : Node} {path : Bytes} {r : Loc × Node}
    (hP : AllowsPut diskPath stored P) (h : AtEach P tree)
    (hcall : openCreate tree path = .ok r) : AtEach P r.2 := by
  intro q
  obtain ⟨dir, last, x, -, -, -, -, -, -, -, hold, hlook⟩ := openCreate_ok hcall
  have before := h q
  rw [hlook]
  by_cases hq : q = r.1
  · rw [hq] at before
    rw [if_pos hq, hq]
    rcases hold with ⟨hnone, rfl⟩ | ⟨content, hleaf⟩
    · rw [hnone] at before
      exact hP.created _ before
    · rw [hleaf] at before
      exact hP.written _ ⟨content, x⟩ [] (Or.inl rfl) before
  · rw [if_neg hq]
    exact before

theorem atEach_modify {tree tree' : Node} {file : Loc} {change : Stat → Stat} (h : AtEach P tree)
    (hlook : ∀ q, tree'.look q = if q = file then (tree.look q).map change else tree.look q)
    (hchange : ∀ kind, P file (some kind) → P file (some (change kind))) : AtEach P tree' := by
  intro q
  have before := h q
  rw [hlook]
  by_cases hq : q = file
  · rw [if_pos hq, hq]
    rw [hq] at before
    cases hfound : tree.look file with
    | none => rwa [hfound] at before
    | some kind =>
      rw [hfound] at before
      exact hchange kind before
  · rw [if_neg hq]
    exact before

theorem keptByPutTo_atEach (hP : AllowsPut diskPath stored P) (hstamp : Stampable env (AtEach P)) :
    KeptByPutTo env diskPath stored (AtEach P) where
  stamp := hstamp
  mkdirat := fun _ _ _ _ h hcall => atEach_mkdirat hP h hcall
  openCreate := fun _ _ _ h hcall => atEach_openCreate hP h hcall
  write := by
    intro tree file h
    refine atEach_modify h (look_modify_setContent tree stored file) fun kind hkind => ?_
    cases kind with
    | leaf f => exact hP.written file f stored (Or.inr rfl) hkind
    | branch x => exact hkind
  setxattr := by
    intro tree contentType g h hg
    unfold setxattr
    cases hnamei : namei tree diskPath with
    | error e => exact h
    | ok file =>
      refine atEach_modify h (look_modify_mapXattrs tree g file) fun kind hkind => ?_
      exact hP.typed file contentType g kind (namei_resolved hnamei) hg hkind

theorem keptByDeleteOf_atEach (hP : AllowsDelete diskPath P) (hstamp : Stampable env (AtEach P)) :
    KeptByDeleteOf env diskPath (AtEach P) where
  stamp := hstamp
  unlink := by
    intro tree tree' h hcall q
    obtain ⟨file, f, hnamei, hleaf, hlook⟩ := unlink_look hcall
    have before := h q
    rcases hlook q with same | ⟨rfl, hnone⟩
    · rwa [same]
    · rw [hleaf] at before
      rw [hnone]
      exact hP.unlinked q f (namei_resolved hnamei) before
  rmdirat := by
    intro tree dir path tree' h hcall q
    obtain ⟨parent, last, x, -, -, hnode, hlook⟩ := rmdirat_ok hcall
    have before := h q
    rw [hlook]
    by_cases hq : q = parent ++ [last]
    · rw [hq, Tree.look, hnode] at before
      rw [if_pos hq, hq]
      exact hP.removed _ x before
    · rw [if_neg hq]
      exact before

end AtEach

theorem keptByCalls_uncached (env : Env) (stored : Bytes) : KeptByCalls env stored Uncached := by
  let P : Loc → Option Stat → Prop := fun _ found =>
    ∀ kind, found = some kind → getXattr (kindXattrs kind).etag 41 = none
  have hstamp : Stampable env (AtEach P) := stampable_uncached env
  refine keptByCalls_of_paths (fun diskPath => keptByPutTo_atEach ⟨?_, ?_, ?_, ?_⟩ hstamp)
    fun diskPath => keptByDeleteOf_atEach ⟨?_, ?_⟩ hstamp
  · rintro q - kind ⟨⟩
    rfl
  · rintro q - kind ⟨⟩
    rfl
  · rintro q f content - h kind ⟨⟩
    exact h (.leaf f) rfl
  · rintro q contentType g kind - hg h mapped ⟨⟩
    have same : (kindXattrs (mapKind g kind)).etag = (kindXattrs kind).etag := by
      cases kind <;> exact contentTypeToXattr_etag hg _
    rw [same]
    exact h kind rfl
  · rintro q f - - kind ⟨⟩
  · rintro q x - kind ⟨⟩

theorem KeptByCalls.and {stored : Bytes} {I J : Node → Prop} (hI : KeptByCalls env stored I)
    (hJ : KeptByCalls env stored J) : KeptByCalls env stored fun tree => I tree ∧ J tree where
  stamp := fun _ _ _ h hr => ⟨hI.stamp _ _ _ h.1 hr, hJ.stamp _ _ _ h.2 hr⟩
  mkdirat := fun _ _ _ _ h hr => ⟨hI.mkdirat _ _ _ _ h.1 hr, hJ.mkdirat _ _ _ _ h.2 hr⟩
  openCreate := fun _ _ _ h hr => ⟨hI.openCreate _ _ _ h.1 hr, hJ.openCreate _ _ _ h.2 hr⟩
  write := fun _ _ h => ⟨hI.write _ _ h.1, hJ.write _ _ h.2⟩
  setxattr := fun _ _ _ _ h hr => ⟨hI.setxattr _ _ _ _ h.1 hr, hJ.setxattr _ _ _ _ h.2 hr⟩
  unlink := fun _ _ _ h hr => ⟨hI.unlink _ _ _ h.1 hr, hJ.unlink _ _ _ h.2 hr⟩
  rmdirat := fun _ _ _ _ h hr => ⟨hI.rmdirat _ _ _ _ h.1 hr, hJ.rmdirat _ _ _ _ h.2 hr⟩

section Writes
variable {I : Node → Prop} {H : List (Bytes × Bytes) → Bytes → Prop} {diskPath stored : Bytes}
  (hI : KeptByPutTo env diskPath stored I)
include hI

omit hI in
theorem triple_setTree (tree : Node) {R : Nat → World → Prop} {C : World → Prop} :
    Triple (fun w => I tree ∧ H w.headersOut w.bufferOut) (setTree tree) (fun _ => Frame I H) R C :=
  triple_update fun _ h => h

omit hI in
theorem triple_attempt_tree {δ : Type} {f : World → Except Errno δ} {cleanup : World → World}
    {newTree : δ → Node} (hcleanup : ∀ w, Frame I H w → Frame I H (cleanup w))
    (hcall : ∀ w a, I w.tree → f w = .ok a → I (newTree a)) {C : World → Prop} :
    Triple (Frame I H) (attempt 500 f cleanup)
      (fun a w => I (newTree a) ∧ H w.headersOut w.bufferOut) (Failed (Frame I H)) C :=
  triple_attempt (fun w a hw ha => ⟨hcall w a hw.1 ha, hw.2⟩)
    fun w _ hw _ => ⟨by simp [IsError], hcleanup w hw⟩

theorem triple_checkIfMatch (path : Bytes) (existed : Bool) (ifMatch : Option Bytes) :
    Triple (Frame I H) (checkIfMatch env path existed ifMatch) (fun _ => Frame I H)
      (Failed (Frame I H)) (Frame I H) := by
  cases ifMatch with
  | none => exact triple_pure fun w hw => hw
  | some ifMatch =>
    refine triple_ite (fun _ => triple_stop fun w hw => ⟨by simp [IsError], hw⟩) fun _ => ?_
    refine triple_seq (triple_etagOf hI.stamp path) fun found => ?_
    refine triple_seq (triple_deref (fun w etag hw _ => hw) fun w hw _ => hw) fun etag => ?_
    exact triple_ite (fun _ => triple_stop fun w hw => ⟨by simp [IsError], hw⟩)
      fun _ => triple_pure fun w hw => hw

omit hI in
theorem triple_needUserEntry (user : Bytes) :
    Triple (Frame I H) (needUserEntry env user) (fun _ => Frame I H) (Failed (Frame I H))
      (Frame I H) := by
  unfold needUserEntry
  cases Users.userGetEntry env.getpwnam user with
  | found pw => exact triple_pure fun w hw => hw
  | notFound => exact triple_crash fun w hw => hw
  | null => exact triple_stop fun w hw => ⟨by simp [IsError], hw⟩

theorem triple_ensureDirectory (dirfd : Nat) (dir : Loc) (name : Bytes) {C : World → Prop} :
    Triple (Frame I H) (ensureDirectory dirfd dir name) (fun _ => Frame I H)
      (Failed (Frame I H)) C := by
  refine triple_seq (triple_read fun w hw => hw) fun result => ?_
  cases result with
  | ok kind =>
    cases kind with
    | leaf f =>
      refine triple_seq (triple_closeFd dirfd) fun _ => ?_
      exact triple_stop fun w hw => ⟨by simp [IsError], hw⟩
    | branch x => exact triple_pure fun w hw => hw
  | error e =>
    have made : Triple (Frame I H) (attempt 500 (fun w => mkdirat w.tree dir name)
        (closing dirfd)) (fun tree w => I tree ∧ H w.headersOut w.bufferOut)
        (Failed (Frame I H)) C :=
      triple_attempt (fun w tree hw hcall => ⟨hI.mkdirat _ _ _ tree hw.1 hcall, hw.2⟩)
        fun w e hw _ => ⟨by simp [IsError], hw⟩
    exact triple_bind made fun tree => triple_setTree tree

theorem triple_makeParents (dirfd : Nat) (dir : Loc) (names : List Bytes) {C : World → Prop} :
    Triple (Frame I H) (makeParents dirfd dir names) (fun _ => Frame I H) (Failed (Frame I H))
      C := by
  induction names generalizing dirfd dir with
  | nil => exact triple_closeFd dirfd
  | cons name names ih =>
    refine triple_seq (triple_ensureDirectory hI dirfd dir name) fun _ => ?_
    refine triple_seq (triple_attempt (fun w next hw _ => hw)
      fun w e hw _ => ⟨by simp [IsError], hw⟩) fun next => ?_
    refine triple_seq triple_openFd fun nextfd => ?_
    refine triple_seq (triple_closeFd dirfd) fun _ => ?_
    exact ih nextfd next

theorem triple_createParents (target : Target) {C : World → Prop} :
    Triple (Frame I H) (createParents target) (fun _ => Frame I H) (Failed (Frame I H)) C := by
  refine triple_ite (fun _ => triple_pure fun w hw => hw) fun _ => ?_
  refine triple_seq (triple_attempt (fun w root hw _ => hw) fun w e hw _ => ⟨by simp [IsError], hw⟩)
    fun root => ?_
  exact triple_seq triple_openFd fun dirfd => triple_makeParents hI dirfd root _

theorem triple_openTarget (req : Request) (target : Target) :
    Triple (Frame I H) (openTarget env req target) (fun _ => Frame I H) (Failed (Frame I H))
      (Frame I H) := by
  refine triple_seq (triple_read fun w hw => hw) fun existed => ?_
  refine triple_seq (triple_checkIfMatch hI _ _ _) fun _ => ?_
  refine triple_seq (triple_ite (fun _ => triple_stop fun w hw => ⟨by simp [IsError], hw⟩)
    fun _ => triple_pure fun w hw => hw) fun _ => ?_
  refine triple_seq (triple_needUserEntry _) fun _ => ?_
  refine triple_seq (triple_createParents hI target) fun _ => ?_
  refine triple_bind (triple_attempt_tree (fun _ hw => hw)
    fun w created hw hcall => hI.openCreate _ _ created hw hcall) fun created => ?_
  refine triple_bind (triple_setTree created.2) fun _ => ?_
  exact triple_seq triple_openFd fun fd => triple_pure fun w hw => hw

theorem triple_storeContentType (contentType : Bytes) {R : Nat → World → Prop} :
    Triple (Frame I H) (storeContentType diskPath contentType) (fun _ => Frame I H) R
      (Frame I H) := by
  unfold storeContentType
  cases h : contentTypeToXattr contentType with
  | none => exact triple_crash fun w hw => hw
  | some f => exact triple_update fun w hw => ⟨hI.setxattr _ _ f hw.1 h, hw.2⟩

omit hI in
theorem triple_storeBody {written : Nat} {req : Request}
    (hI : KeptByPutTo env diskPath (req.bufferIn.take written) I) (opened : Opened) :
    Triple (OnTree I) (storeBody env written req diskPath opened) (Succeeded (OnTree I))
      (Failed (OnTree I)) (OnTree I) := by
  refine triple_seq (triple_update fun w hw => ⟨hI.write _ _ hw.1, hw.2⟩) fun _ => ?_
  refine triple_seq (triple_storeContentType hI _) fun _ => ?_
  refine triple_seq (triple_closeFd _) fun _ => ?_
  refine triple_seq (triple_attempt (fun w kind hw _ => hw) fun w e hw _ => ⟨by simp [IsError], hw⟩)
    fun kind => ?_
  refine triple_seq (triple_etagOf hI.stamp diskPath) fun found => ?_
  refine triple_seq (triple_deref (fun w etag hw _ => hw) fun w hw _ => hw) fun etag => ?_
  refine triple_seq (triple_update fun w hw => hw) fun _ => ?_
  refine triple_seq (triple_update fun w hw => hw) fun _ => ?_
  refine triple_pure fun w hw => ⟨?_, hw⟩
  cases opened.existed <;> simp

omit hI in
theorem triple_storageHandlePut {written : Nat} {req : Request}
    (hI : KeptByPutTo env (makeDiskPath env.cfg req.user req.path).diskPath
      (req.bufferIn.take written) I) :
    Triple (OnTree I) (storageHandlePut env written req) (Succeeded (OnTree I))
      (Failed (OnTree I)) (OnTree I) := by
  refine triple_ite (fun _ => triple_stop fun w hw => ⟨by simp [IsError], hw⟩) fun _ => ?_
  exact triple_seq (triple_openTarget hI req _) fun opened => triple_storeBody hI opened

end Writes

section Removals
variable {I : Node → Prop} {H : List (Bytes × Bytes) → Bytes → Prop}

theorem removeParents_kept
    (hrmdir : ∀ tree dir path tree', I tree → rmdirat tree dir path = .ok tree' → I tree')
    (root : Loc) (dirPath : Bytes) {tree : Node} (h : I tree) :
    ((removeParents root dirPath tree).2 = 200 ∨ IsError (removeParents root dirPath tree).2) ∧
      I (removeParents root dirPath tree).1 := by
  fun_induction removeParents root dirPath tree with
  | case1 => exact ⟨Or.inl rfl, h⟩
  | case2 => exact ⟨Or.inl rfl, h⟩
  | case3 => exact ⟨Or.inr (by simp [IsError]), h⟩
  | case4 dirPath tree hdir tree' hcall ih => exact ih (hrmdir _ _ _ _ h hcall)

variable {diskPath : Bytes} (hI : KeptByDeleteOf env diskPath I)
include hI

theorem triple_removeEmptyParents (target : Target) {C : World → Prop} :
    Triple (Frame I H) (removeEmptyParents target) (Succeeded (Frame I H)) (Failed (Frame I H))
      C := by
  refine triple_seq (triple_attempt (fun w root hw _ => hw)
    fun w e hw _ => ⟨by simp [IsError], hw⟩) fun root => ?_
  refine triple_seq triple_openFd fun rootdirfd => ?_
  refine triple_read_bind fun removed => ?_
  have kept : Triple (fun w => Frame I H w ∧
      removeParents root (Dirname.dirname (target.path.drop 1)) w.tree = removed)
      (setTree removed.1) (fun _ w => (removed.2 = 200 ∨ IsError removed.2) ∧ Frame I H w)
      (Failed (Frame I H)) C := by
    refine triple_update fun w hw => ?_
    have both := removeParents_kept hI.rmdirat root (Dirname.dirname (target.path.drop 1)) hw.1.1
    rw [hw.2] at both
    exact ⟨both.1, both.2, hw.1.2⟩
  refine triple_bind kept fun _ => ?_
  refine triple_ite (fun h => triple_stop fun w hw => ⟨hw.1.resolve_left h, hw.2⟩) fun _ => ?_
  refine triple_seq (triple_update fun w hw => hw) fun _ => ?_
  exact triple_pure fun w hw => ⟨Or.inl rfl, hw.2⟩

omit hI in
theorem triple_storageHandleDelete (req : Request)
    (hI : KeptByDeleteOf env (makeDiskPath env.cfg req.user req.path).diskPath I) :
    Triple (OnTree I) (storageHandleDelete env req) (Succeeded (OnTree I)) (Failed (OnTree I))
      (OnTree I) := by
  refine triple_ite (fun _ => triple_stop fun w hw => ⟨by simp [IsError], hw⟩) fun _ => ?_
  refine triple_seq (triple_attempt (fun w kind hw _ => hw)
    fun w e hw _ => ⟨by simp [IsError], hw⟩) fun kind => ?_
  refine triple_ite (fun _ => triple_stop fun w hw => ⟨by simp [IsError], hw⟩) fun _ => ?_
  refine triple_seq (triple_etagOf hI.stamp _) fun found => ?_
  refine triple_seq (triple_deref (fun w etag hw _ => hw) fun w hw _ => hw) fun etag => ?_
  refine triple_ite (fun _ => triple_stop fun w hw => ⟨by simp [IsError], hw⟩) fun _ => ?_
  refine triple_seq (triple_update fun w hw => hw) fun _ => ?_
  refine triple_bind (triple_attempt_tree (fun _ hw => hw)
    fun w tree hw hcall => hI.unlink _ tree hw hcall) fun tree => ?_
  have set : Triple (fun w => I tree ∧ True) (setTree tree) (fun _ => OnTree I)
      (Failed (OnTree I)) (OnTree I) := triple_update fun _ h => h
  exact triple_bind set fun _ => triple_removeEmptyParents hI _

end Removals

abbrev Safe (P : World → Prop) {α : Type} (p : Handler α) : Prop :=
  Triple P p (fun _ _ => True) (fun _ _ => True) fun _ => False

theorem not_crashed_of_safe {α : Type} {p : Handler α} (h : Safe (fun _ => True) p) (w : World) :
    ¬ (p w).Crashed := h.not_crashed trivial

theorem triple_etagOf_found (path : Bytes) {R : Nat → World → Prop} {C : World → Prop} :
    Triple (fun w => viewAt w.tree path ≠ none) (etagOf env path) (fun found _ => found ≠ none)
      R C := by
  intro w hw
  unfold etagOf
  cases h : getEtag env.sha1 w.tree path with
  | some r => simp
  | none => exact absurd (getEtag_eq_none.1 h) hw

theorem safe_deref {α : Type} {o : Option α} : Safe (fun _ => o ≠ none) (deref o) := by
  intro w hw
  cases o with
  | some a => trivial
  | none => exact hw rfl

theorem safe_openFd : Safe (fun _ => True) openFd := fun _ _ => trivial

theorem safe_closeFd (fd : Nat) : Safe (fun _ => True) (closeFd fd) := triple_update fun _ _ => trivial

theorem viewAt_of_isOk {tree : Node} {path : Bytes} (h : (stat tree path).isOk) :
    viewAt tree path ≠ none := by
  cases hstat : stat tree path with
  | ok kind => simp [viewAt_of_stat hstat]
  | error e => simp [hstat, Except.isOk, Except.toBool] at h

theorem safe_checkIfMatch (diskPath : Bytes) (existed : Bool) (ifMatch : Option Bytes) :
    Safe (fun w => existed → viewAt w.tree diskPath ≠ none)
      (checkIfMatch env diskPath existed ifMatch) := by
  cases ifMatch with
  | none => exact triple_pure fun _ _ => trivial
  | some ifMatch =>
    cases existed with
    | false => exact triple_stop fun _ _ => trivial
    | true =>
      refine triple_bind ((triple_etagOf_found diskPath).mono (fun w hw => hw rfl)
        (fun _ _ h => h) (fun _ _ h => h) fun _ h => h) fun found => ?_
      refine triple_bind safe_deref fun etag => ?_
      exact triple_ite (fun _ => triple_stop fun _ _ => trivial)
        fun _ => triple_pure fun _ _ => trivial

theorem safe_createParents (env : Env) (target : Target) :
    Safe (fun _ => True) (createParents target) :=
  (triple_createParents ((keptByCalls_true env []).putTo []) target (H := fun _ _ => True)).mono
    (fun _ _ => ⟨trivial, trivial⟩) (fun _ _ _ => trivial) (fun _ _ _ => trivial) fun _ h => h

theorem safe_openTarget {req : Request} {pw : Users.Passwd}
    (hfound : Users.userGetEntry env.getpwnam req.user = .found pw) (target : Target) :
    Safe (fun _ => True) (openTarget env req target) := by
  refine triple_read_bind fun existed => ?_
  refine triple_bind ((safe_checkIfMatch target.diskPath existed _).mono ?_
    (fun _ _ h => h) (fun _ _ h => h) fun _ h => h) fun _ => ?_
  · intro w hw hexisted
    exact viewAt_of_isOk (hw.2.trans hexisted)
  refine triple_seq (triple_ite (fun _ => triple_stop fun _ _ => trivial)
    fun _ => triple_pure fun _ _ => trivial) fun _ => ?_
  refine triple_seq ?_ fun _ => ?_
  · unfold needUserEntry
    rw [hfound]
    exact triple_pure fun _ _ => trivial
  refine triple_seq (safe_createParents env target) fun _ => ?_
  refine triple_seq (triple_attempt (fun _ _ _ _ => trivial) fun _ _ _ _ => trivial) fun opened => ?_
  refine triple_seq (triple_update fun _ _ => trivial) fun _ => ?_
  exact triple_seq safe_openFd fun _ => triple_pure fun _ _ => trivial

theorem safe_storeBody (env : Env) {contentType : Bytes} {f : Xattrs → Xattrs} {req : Request}
    (htype : req.headersIn.contentType.getD defaultContentType = contentType)
    (hmedia : contentTypeToXattr contentType = some f) (written : Nat) (diskPath : Bytes)
    (opened : Opened) :
    Safe (fun _ => True) (storeBody env written req diskPath opened) := by
  refine triple_seq (triple_update fun _ _ => trivial) fun _ => ?_
  refine triple_seq ?_ fun _ => ?_
  · rw [storeContentType, htype, hmedia]
    exact triple_update fun _ _ => trivial
  refine triple_seq (safe_closeFd _) fun _ => ?_
  refine triple_attempt_bind (fun kind => ?_) fun _ _ _ _ => trivial
  refine triple_bind ((triple_etagOf_found diskPath).mono ?_
    (fun _ _ h => h) (fun _ _ h => h) fun _ h => h) fun found => ?_
  · intro w hw
    simp [viewAt_of_stat hw.2]
  refine triple_bind safe_deref fun etag => ?_
  refine triple_seq (triple_update fun _ _ => trivial) fun _ => ?_
  refine triple_seq (triple_update fun _ _ => trivial) fun _ => ?_
  exact triple_pure fun _ _ => trivial

/-- PUT crashes where it has opened the file and finds no media type to store. -/
theorem storageHandlePut_crashed_iff {req : Request} {pw : Users.Passwd}
    (hfound : Users.userGetEntry env.getpwnam req.user = .found pw) (written : Nat) (w : World) :
    (storageHandlePut env written req w).Crashed ↔
      req.file ≠ none ∧
        (∃ opened w', openTarget env req (makeDiskPath env.cfg req.user req.path) w =
          .next opened w') ∧
        mediaType (req.headersIn.contentType.getD defaultContentType) = none := by
  unfold storageHandlePut
  by_cases hfile : req.file = none
  · simp [hfile, Outcome.Crashed]
  · rw [if_neg hfile]
    have safe := safe_openTarget hfound (makeDiskPath env.cfg req.user req.path) w trivial
    cases hopen : openTarget env req (makeDiskPath env.cfg req.user req.path) w with
    | stop e w' => simp [bind_of_stop hopen, Outcome.Crashed]
    | crash w' => simp [hopen] at safe
    | next opened w' =>
      rw [bind_of_next hopen]
      cases hmedia : contentTypeToXattr (req.headersIn.contentType.getD defaultContentType) with
      | none =>
        have none : mediaType (req.headersIn.contentType.getD defaultContentType) = none := by
          unfold contentTypeToXattr at hmedia
          cases h : mediaType (req.headersIn.contentType.getD defaultContentType) with
          | none => rfl
          | some parts => simp [h] at hmedia
        have crashed : storeBody env written req
            (makeDiskPath env.cfg req.user req.path).diskPath opened w' =
              .crash { w' with tree := write w'.tree opened.loc (req.bufferIn.take written) } := by
          simp [storeBody, storeContentType, hmedia, bind_apply, update, deref]
        simp [crashed, none, hfile, Outcome.Crashed]
      | some f =>
        have some : mediaType (req.headersIn.contentType.getD defaultContentType) ≠ none := by
          intro none
          simp [contentTypeToXattr, none] at hmedia
        have safe := safe_storeBody env rfl hmedia written
          (makeDiskPath env.cfg req.user req.path).diskPath opened w' trivial
        cases hstore : storeBody env written req
          (makeDiskPath env.cfg req.user req.path).diskPath opened w' with
        | next status w'' => simp [some, Outcome.Crashed]
        | stop status w'' => simp [some, Outcome.Crashed]
        | crash w'' => simp [hstore] at safe

theorem safe_storageHandleDelete (env : Env) (req : Request) :
    Safe (fun _ => True) (storageHandleDelete env req) := by
  refine triple_ite (fun _ => triple_stop fun _ _ => trivial) fun _ => ?_
  refine triple_attempt_bind (fun kind => ?_) fun _ _ _ _ => trivial
  refine triple_ite (fun _ => triple_stop fun _ _ => trivial) fun _ => ?_
  refine triple_bind ((triple_etagOf_found _).mono ?_
    (fun _ _ h => h) (fun _ _ h => h) fun _ h => h) fun found => ?_
  · intro w hw
    simp [viewAt_of_stat hw.2]
  refine triple_bind safe_deref fun etag => ?_
  refine triple_ite (fun _ => triple_stop fun _ _ => trivial) fun _ => ?_
  refine triple_seq (triple_update fun _ _ => trivial) fun _ => ?_
  refine triple_seq (triple_attempt (fun _ _ _ _ => trivial) fun _ _ _ _ => trivial) fun tree => ?_
  refine triple_seq (triple_update fun _ _ => trivial) fun _ => ?_
  have kept := (keptByCalls_true env []).deleteOf []
  exact (triple_removeEmptyParents kept _ (H := fun _ _ => True)).mono
    (fun _ _ => ⟨trivial, trivial⟩) (fun _ _ _ => trivial) (fun _ _ _ => trivial) fun _ h => h

def Describes (env : Env) (tree : Node) (diskPath name : Bytes) (member : Bytes × Bytes) : Prop :=
  ∃ view, viewAt tree (diskPath ++ name) = some view ∧
    member.1 = name ++ (if view.isBranch then str "/" else []) ∧
    (getEtag env.sha1 tree (diskPath ++ name)).map Prod.fst = some member.2

theorem serveEntries_cons (diskPath name : Bytes) (names : List Bytes) (json : Json) (w : World) :
    (viewAt w.tree (diskPath ++ name) = none ∧
      serveEntries env diskPath (name :: names) json w = .crash w) ∨
    ∃ member tree fds, Describes env w.tree diskPath name member ∧ legible tree = legible w.tree ∧
      Leaves (Computes w.tree (diskPath ++ name)) w.fds fds ∧
      serveEntries env diskPath (name :: names) json w =
        serveEntries env diskPath names (json.writeKeyVal member.1 member.2)
          { w with tree := tree, fds := fds } := by
  rw [serveEntries]
  simp only [read_bind]
  cases hetag : getEtag env.sha1 w.tree (diskPath ++ name) with
  | none =>
    refine Or.inl ⟨getEtag_eq_none.1 hetag, ?_⟩
    simp [bind_apply, etagOf, hetag, deref]
  | some r =>
    cases hstat : stat w.tree (diskPath ++ name) with
    | error e =>
      have none : getEtag env.sha1 w.tree (diskPath ++ name) = none :=
        getEtag_eq_none.2 (viewAt_eq_none.2 ⟨e, hstat⟩)
      simp [none] at hetag
    | ok kind =>
      refine Or.inr ⟨(name ++ if kind.isBranch then str "/" else [], r.1), r.2,
        getEtagFds w.tree (diskPath ++ name) w.fds, ?_,
        legible_getEtag env.sha1_length hetag, leaves_getEtagFds _ _ _, ?_⟩
      · exact ⟨plainKind kind, viewAt_of_stat hstat, by rw [isBranch_plainKind], by simp [hetag]⟩
      · simp [bind_apply, etagOf, hetag, deref, Except.toOption]
        rfl

theorem Describes.congr {tree tree' : Node} (h : legible tree' = legible tree)
    {diskPath name : Bytes} {member : Bytes × Bytes}
    (hmember : Describes env tree' diskPath name member) :
    Describes env tree diskPath name member := by
  obtain ⟨view, hview, hkey, hversion⟩ := hmember
  exact ⟨view, (viewAt_congr (plain_of_legible h.symm) _).trans hview, hkey,
    (getEtag_of_legible env.sha1 h.symm _).trans hversion⟩

theorem serveEntries_run (env : Env) (diskPath : Bytes) (names : List Bytes) (json : Json) (w : World) :
    ((∃ name ∈ names, viewAt w.tree (diskPath ++ name) = none) ∧
      (serveEntries env diskPath names json w).Crashed) ∨
    ∃ members tree fds, List.Forall₂ (Describes env w.tree diskPath) names members ∧
      legible tree = legible w.tree ∧
      Leaves (∃ name ∈ names, Computes w.tree (diskPath ++ name)) w.fds fds ∧
      serveEntries env diskPath names json w =
        .next (writeMembers json members) { w with tree := tree, fds := fds } := by
  induction names generalizing json w with
  | nil =>
    exact Or.inr ⟨[], w.tree, w.fds, List.Forall₂.nil, rfl, (leaves_none _).congr (by simp), rfl⟩
  | cons name names ih =>
    rcases serveEntries_cons diskPath name names json w with
      ⟨hnone, hcrash⟩ | ⟨member, tree, fds, hmember, hlegible, hleaves, hstep⟩
    · rw [hcrash]
      exact Or.inl ⟨⟨name, by simp, hnone⟩, trivial⟩
    · rw [hstep]
      rcases ih (json.writeKeyVal member.1 member.2) { w with tree := tree, fds := fds } with
        ⟨⟨missing, hmem, hnone⟩, hcrash⟩ | ⟨members, tree', fds', hall, hlegible', hleaves', hrun⟩
      · refine Or.inl ⟨⟨missing, by simp [hmem], ?_⟩, hcrash⟩
        rw [← hnone]
        exact viewAt_congr (plain_of_legible hlegible.symm) _
      · refine Or.inr ⟨member :: members, tree', fds', ?_, hlegible'.trans hlegible, ?_, hrun⟩
        · exact List.Forall₂.cons hmember (hall.imp fun _ _ h => Describes.congr hlegible h)
        · refine (hleaves.trans hleaves').congr ?_
          simp only [computes_of_legible hlegible, List.exists_mem_cons_iff]

/-- The directory has an entry that is looked for where there is nothing. -/
def MissesEntry (tree : Node) (diskPath : Bytes) : Prop :=
  ∃ names, opendir tree diskPath = .ok names ∧ ∃ name ∈ names, viewAt tree (diskPath ++ name) = none

theorem viewAt_of_opendir {tree : Node} {path : Bytes} {names : List Bytes}
    (h : opendir tree path = .ok names) : viewAt tree path = some (.branch ()) := by
  obtain ⟨loc, entries, x, hnamei, hnode, -⟩ := opendir_ok h
  have hlook : tree.look loc = some (.branch x) := by simp [Tree.look, hnode, Tree.kind]
  exact viewAt_of_stat (stat_eq_ok.2 ⟨loc, hnamei, hlook⟩)

theorem serveDirectory_run (env : Env) (diskPath : Bytes) (w : World) :
    (MissesEntry w.tree diskPath ∧ (serveDirectory env diskPath w).Crashed) ∨
    (∃ e, opendir w.tree diskPath = .error e ∧ serveDirectory env diskPath w = .stop 500 w) ∨
    ∃ names members etag w', opendir w.tree diskPath = .ok names ∧
      List.Forall₂ (Describes env w.tree diskPath) names members ∧
      (getEtag env.sha1 w.tree diskPath).map Prod.fst = some etag ∧
      serveDirectory env diskPath w = .next 200 w' ∧
      w'.headersOut = w.headersOut ++
        [(str "Content-Type", str "application/json; charset=UTF-8")] ++ [(str "ETag", etag)] ∧
      w'.bufferOut = w.bufferOut ++ objectText members ∧
      Leaves ((∃ name ∈ names, Computes w.tree (diskPath ++ name)) ∨ Computes w.tree diskPath)
        w.fds w'.fds := by
  unfold serveDirectory
  cases hdir : opendir w.tree diskPath with
  | error e => exact Or.inr (Or.inl ⟨e, rfl, by simp only [attempt_bind, hdir, id]⟩)
  | ok names =>
    let opened : World := { w with fds := freshFd w.fds :: w.fds }
    have hopen : openFd w = .next (freshFd w.fds) opened := rfl
    simp only [attempt_bind, hdir]
    rw [bind_of_next hopen]
    simp only [read_bind]
    rcases serveEntries_run env diskPath names (newJson w.bufferOut).startObject opened with
      ⟨missing, hcrash⟩ | ⟨members, tree, fds, hall, hlegible, hleaves, hrun⟩
    · exact Or.inl ⟨⟨names, hdir, missing⟩, crashed_bind hcrash _⟩
    · rw [bind_of_next hrun]
      simp only [update_bind]
      have here : viewAt tree diskPath = some (.branch ()) :=
        (viewAt_congr (plain_of_legible hlegible) _).trans (viewAt_of_opendir hdir)
      have same := getEtag_of_legible env.sha1 hlegible diskPath
      cases hetag : getEtag env.sha1 tree diskPath with
      | none => simp [getEtag_eq_none.1 hetag] at here
      | some r =>
        rw [hetag, Option.map_some] at same
        let headers := w.headersOut ++
          [(str "Content-Type", str "application/json; charset=UTF-8")] ++ [(str "ETag", r.1)]
        refine Or.inr (Or.inr ⟨names, members, r.1, closing (freshFd w.fds)
          ⟨r.2, getEtagFds tree diskPath fds, headers, _⟩, rfl, hall, same.symm, ?_, rfl,
          writeMembers_object w.bufferOut members, ?_⟩)
        · simp only [bind_apply, etagOf, hetag, orStop, addRespHeader, closeFd, update, pure_apply]
          rfl
        · have here := leaves_getEtagFds tree diskPath fds
          exact (hleaves.trans (here.congr (computes_of_legible hlegible _))).closed

theorem viewAt_of_forall₂ {tree : Node} {diskPath : Bytes} {names : List Bytes}
    {members : List (Bytes × Bytes)}
    (h : List.Forall₂ (Describes env tree diskPath) names members) {name : Bytes}
    (hname : name ∈ names) : viewAt tree (diskPath ++ name) ≠ none := by
  induction h with
  | nil => simp at hname
  | cons hmember _ ih =>
    rcases List.mem_cons.1 hname with rfl | later
    · obtain ⟨view, hview, -⟩ := hmember
      simp [hview]
    · exact ih later

theorem serveDirectory_crashed_iff (env : Env) (diskPath : Bytes) (w : World) :
    (serveDirectory env diskPath w).Crashed ↔ MissesEntry w.tree diskPath := by
  rcases serveDirectory_run env diskPath w with
    ⟨misses, hcrash⟩ | ⟨e, hdir, hstop⟩ | ⟨names, members, etag, w', hdir, hall, -, hnext, -⟩
  · exact iff_of_true hcrash misses
  · rw [hstop]
    refine iff_of_false id fun misses => ?_
    obtain ⟨names, hnames, -⟩ := misses
    simp [hdir] at hnames
  · rw [hnext]
    refine iff_of_false id fun misses => ?_
    obtain ⟨names', hnames', name, hname, hnone⟩ := misses
    rw [hdir, Except.ok.injEq] at hnames'
    exact viewAt_of_forall₂ hall (hnames' ▸ hname) hnone

theorem safe_serveFileHead (env : Env) (req : Request) (diskPath : Bytes) (statBuf : Stat)
    (mimeType : Option Bytes) :
    Safe (fun _ => True) (serveFileHead env req diskPath statBuf mimeType) :=
  (triple_serveFileHead (keptByCalls_true env []).stamp (H := fun _ _ => True) (fun _ _ _ h => h)
    req diskPath statBuf mimeType).mono (fun _ _ => ⟨trivial, trivial⟩) (fun _ _ _ => trivial)
    (fun _ _ _ => trivial) fun _ h => h

theorem safe_serveFile (diskPath : Bytes) : Safe (fun _ => True) (serveFile diskPath) := by
  refine triple_seq (triple_attempt (fun _ _ _ _ => trivial) fun _ _ _ _ => trivial) fun file => ?_
  refine triple_seq safe_openFd fun fd => ?_
  refine triple_seq (triple_update fun _ _ => trivial) fun _ => ?_
  exact triple_seq (safe_closeFd fd) fun _ => triple_pure fun _ _ => trivial

/-- Only a listing crashes, over an entry that it looks for in the wrong place. -/
theorem handleGetOrHead_crashed_iff (includeBody : Bool) (req : Request) (w : World) :
    (handleGetOrHead env includeBody req w).Crashed ↔
      includeBody ∧ req.file = none ∧
        MissesEntry w.tree (makeDiskPath env.cfg req.user req.path).diskPath := by
  unfold handleGetOrHead
  simp only [read_bind]
  cases hstat : stat w.tree (makeDiskPath env.cfg req.user req.path).diskPath with
  | error e =>
    refine iff_of_false id fun misses => ?_
    obtain ⟨names, hnames, -⟩ := misses.2.2
    have found := viewAt_of_opendir hnames
    rw [viewAt_eq_none.2 ⟨e, hstat⟩] at found
    cases found
  | ok statBuf =>
    by_cases hfile : req.file = none
    · cases includeBody with
      | true => simp only [hfile, if_true, crashed_call_iff, serveDirectory_crashed_iff, true_and]
      | false =>
        simp only [hfile, if_true, Bool.false_eq_true, if_false]
        refine iff_of_false ?_ fun misses => misses.1
        refine not_crashed_of_safe ?_ w
        refine triple_seq (triple_call (safe_serveFileHead env req _ _ _)) fun status => ?_
        exact triple_pure fun _ _ => trivial
    · simp only [hfile, if_false]
      refine iff_of_false ?_ fun misses => misses.2.1
      refine not_crashed_of_safe ?_ w
      refine triple_seq (triple_call (safe_serveFileHead env req _ _ _)) fun status => ?_
      refine triple_ite (fun _ => triple_pure fun _ _ => trivial) fun _ => ?_
      refine triple_ite (fun _ => triple_call (safe_serveFile _)) fun _ => ?_
      exact triple_pure fun _ _ => trivial

end RsServe.StorageRules
