import RsServe.Descriptors
import RsServe.Dirname
import RsServe.DiskPath
import RsServe.EarlyExit
import RsServe.JsonWriter
import RsServe.Users

/-! storage.c: the handlers of the storage area, over the file system. The first two
kinds of result are those of a return statement, the third is a crash of the process.
There is memory for everything here. -/

namespace RsServe.Storage
open CString NameTree Kernel Attributes Descriptors DiskPath Dirname EarlyExit JsonWriter Users

structure Env where
  cfg : Config
  getpwnam : Bytes → Getpwnam
  sha1 : Bytes → Bytes
  sha1_length : ∀ m, (sha1 m).length = 20
  magicFile : Node → Bytes → Option Bytes
  /-- st_size of a directory -/
  dirSize : Bytes → Nat

structure World where
  tree : Node
  fds : List Nat
  headersOut : List (Bytes × Bytes)
  bufferOut : Bytes

abbrev Handler := Prog World Nat

variable (env : Env)

def setTree (tree : Node) : Handler Unit := update fun w => { w with tree := tree }

/-- ADD_RESP_HEADER and ADD_RESP_HEADER_CP -/
def addRespHeader (key val : Bytes) : Handler Unit :=
  update fun w => { w with headersOut := w.headersOut ++ [(key, val)] }

def openFd : Handler Nat := fun w => .next (freshFd w.fds) { w with fds := freshFd w.fds :: w.fds }

def closing (fd : Nat) (w : World) : World := { w with fds := w.fds.erase fd }

def closeFd (fd : Nat) : Handler Unit := update (closing fd)

/-- get_etag, which also stores versions and leaves descriptors open -/
def etagOf (path : Bytes) : Handler (Option Bytes) := fun w =>
  match getEtag env.sha1 w.tree path with
  | none => .next none w
  | some (etag, tree) =>
    .next (some etag) { w with tree := tree, fds := getEtagFds w.tree path w.fds }

theorem etagOf_of_getEtag {path : Bytes} {w : World} {r : Bytes × Node}
    (h : getEtag env.sha1 w.tree path = some r) :
    etagOf env path w =
      .next (some r.1) { w with tree := r.2, fds := getEtagFds w.tree path w.fds } := by
  rw [etagOf, h]

def checkIfMatch (diskPath : Bytes) (existed : Bool) : Option Bytes → Handler Unit
  | none => pure ()
  | some ifMatch =>
    if !existed then stop 412
    else do
      let etag ← deref (← etagOf env diskPath)
      if etag ≠ ifMatch then stop 412 else pure ()

def checkIfNoneMatch (existed : Bool) (ifNoneMatch : Option Bytes) : Handler Unit :=
  if ifNoneMatch = some (str "*") ∧ existed then stop 412 else pure ()

/-- The entry only serves chown. USER_NOT_FOUND is the pointer -1, which passes the test
and is followed. -/
def needUserEntry (user : Bytes) : Handler Unit :=
  match userGetEntry env.getpwnam user with
  | .found _ => pure ()
  | .notFound => crash
  | .null => stop 500

/-- One round of the walk along the parents: the name is a directory, or becomes one. -/
def ensureDirectory (dirfd : Nat) (dir : Loc) (name : Bytes) : Handler Unit := do
  match ← read fun w => fstatat w.tree dir name with
  | .ok (.leaf _) => do
    closeFd dirfd
    stop 400
  | .ok (.branch _) => pure ()
  | .error _ => do
    let tree ← attempt 500 (fun w => mkdirat w.tree dir name) (closing dirfd)
    setTree tree

def makeParents : Nat → Loc → List Bytes → Handler Unit
  | dirfd, _, [] => closeFd dirfd
  | prevfd, dir, name :: names => do
    ensureDirectory prevfd dir name
    let next ← attempt 500 (fun w => openat w.tree dir name) (closing prevfd)
    let dirfd ← openFd
    closeFd prevfd
    makeParents dirfd next names

/-- strtok_r visits the components of the directory part; for `.` the walk is skipped. -/
def createParents (target : Target) : Handler Unit :=
  if dirname target.path = str "." then pure ()
  else do
    let root ← attempt 500 fun w => openRead w.tree target.storageRoot
    let dirfd ← openFd
    makeParents dirfd root (components (dirname target.path))

structure Opened where
  existed : Bool
  fd : Nat
  loc : Loc

def openTarget (req : Request) (target : Target) : Handler Opened := do
  let existed ← read fun w => (stat w.tree target.diskPath).isOk
  checkIfMatch env target.diskPath existed req.headersIn.ifMatch
  checkIfNoneMatch existed req.headersIn.ifNoneMatch
  needUserEntry env req.user
  createParents target
  let created ← attempt 500 fun w => openCreate w.tree target.diskPath
  setTree created.2
  let fd ← openFd
  pure ⟨existed, fd, created.1⟩

def storeContentType (diskPath contentType : Bytes) : Handler Unit := do
  let attributes ← deref (contentTypeToXattr contentType)
  update fun w => { w with tree := setxattr w.tree diskPath attributes }

/-- storage_handle_put from the write on, which stores as many bytes of the body as
evbuffer_write writes. -/
def storeBody (written : Nat) (req : Request) (diskPath : Bytes) (opened : Opened) :
    Handler Nat := do
  update fun w => { w with tree := write w.tree opened.loc (req.bufferIn.take written) }
  let contentType := req.headersIn.contentType.getD defaultContentType
  storeContentType diskPath contentType
  closeFd opened.fd
  let _ ← attempt 500 fun w => stat w.tree diskPath
  let etag ← deref (← etagOf env diskPath)
  addRespHeader (str "Content-Type") contentType
  addRespHeader (str "ETag") etag
  pure (if opened.existed then 200 else 201)

def storageHandlePut (written : Nat) (req : Request) : Handler Nat :=
  if req.file = none then stop 400
  else do
    let target := makeDiskPath env.cfg req.user req.path
    let opened ← openTarget env req target
    storeBody env written req target.diskPath opened

/-- The loop that removes the parents which are empty now, and the status after it. -/
def removeParents (root : Loc) (dirPath : Bytes) (tree : Node) : Node × Nat :=
  if dirPath = str "." then (tree, 200)
  else
    match _h : rmdirat tree root dirPath with
    | .error e => if e = .ENOTEMPTY ∨ e = .EEXIST then (tree, 200) else (tree, 500)
    | .ok tree' => removeParents root (dirname dirPath) tree'
termination_by if dirPath = str "." then 0 else dirPath.length + 1
decreasing_by
  rename_i hdir
  rw [if_neg hdir]
  have named : components dirPath ≠ [] := by
    intro none
    simp [rmdirat, none] at _h
  by_cases hroot : dirname dirPath = str "."
  · rw [if_pos hroot]
    omega
  · rw [if_neg hroot]
    have := length_dirname_lt named hroot
    omega

/-- What storage_handle_delete does after the file is gone; where the loop fails it
returns without closing the root. -/
def removeEmptyParents (target : Target) : Handler Nat := do
  let root ← attempt 500 fun w => openRead w.tree target.storageRoot
  let rootdirfd ← openFd
  let removed ← read fun w => removeParents root (dirname (target.path.drop 1)) w.tree
  setTree removed.1
  if removed.2 ≠ 200 then stop removed.2
  else do
    closeFd rootdirfd
    pure 200

def storageHandleDelete (req : Request) : Handler Nat :=
  if req.file = none then stop 400
  else do
    let target := makeDiskPath env.cfg req.user req.path
    let statBuf ← attempt 404 fun w => stat w.tree target.diskPath
    if statBuf.isBranch then stop 400
    else do
      let etag ← deref (← etagOf env target.diskPath)
      if req.headersIn.ifMatch.any (· ≠ etag) then stop 412
      else do
        addRespHeader (str "ETag") etag
        let tree ← attempt 500 fun w => unlink w.tree target.diskPath
        setTree tree
        removeEmptyParents target

/-- The loop over readdir: the path of an entry is the disk path with its name behind it,
and what get_etag returns for it is written as it is. -/
def serveEntries (diskPath : Bytes) : List Bytes → Json → Handler Json
  | [], json => pure json
  | name :: names, json => do
    let fullPath := diskPath ++ name
    let isDir ← read fun w => (stat w.tree fullPath).toOption.any Kind.isBranch
    let etag ← deref (← etagOf env fullPath)
    let key := name ++ if isDir then str "/" else []
    serveEntries diskPath names (json.writeKeyVal key etag)

def serveDirectory (diskPath : Bytes) : Handler Nat := do
  let names ← attempt 500 fun w => opendir w.tree diskPath
  let dir ← openFd
  let start ← read fun w => (newJson w.bufferOut).startObject
  let json ← serveEntries env diskPath names start
  update fun w => { w with bufferOut := json.endObject.out }
  let etag ← orStop 500 (← etagOf env diskPath) (closing dir)
  addRespHeader (str "Content-Type") (str "application/json; charset=UTF-8")
  addRespHeader (str "ETag") etag
  closeFd dir
  pure 200

def statSize (diskPath : Bytes) : Stat → Nat
  | .leaf f => f.content.length
  | .branch _ => env.dirSize diskPath

/-- The content type of the attributes, or else libmagic's, or else the default. -/
def detectedType (diskPath : Bytes) (tree : Node) : Bytes :=
  match (getxattrs tree diskPath).bind contentTypeFromXattr with
  | some mimeType => mimeType
  | none => (env.magicFile tree diskPath).getD defaultContentType

/-- The result 0 tells the caller to go on. -/
def serveFileHead (req : Request) (diskPath : Bytes) (statBuf : Stat) (mimeType : Option Bytes) :
    Handler Nat :=
  if req.file.isNone ≠ statBuf.isBranch then stop 404
  else do
    let etag ← orStop 500 (← etagOf env diskPath)
    if req.headersIn.ifNoneMatch = some etag then stop 304
    else do
      let detected ← read fun w => detectedType env diskPath w.tree
      addRespHeader (str "Content-Type") (mimeType.getD detected)
      addRespHeader (str "Content-Length") (decimal (statSize env diskPath statBuf))
      addRespHeader (str "ETag") etag
      pure 0

/-- evbuffer_read moves at most 4096 bytes at a time, until none are left. -/
def readLoop (bufferOut rest : Bytes) : Bytes :=
  if rest = [] then bufferOut else readLoop (bufferOut ++ rest.take 4096) (rest.drop 4096)
termination_by rest.length
decreasing_by
  rename_i h
  have := List.length_pos_iff.2 h
  rw [List.length_drop]
  omega

def contentAt (tree : Node) (file : Loc) : Bytes :=
  match tree.look file with
  | some (.leaf f) => f.content
  | _ => []

def serveFile (diskPath : Bytes) : Handler Nat := do
  let file ← attempt 500 fun w => openRead w.tree diskPath
  let fd ← openFd
  update fun w => { w with bufferOut := readLoop w.bufferOut (contentAt w.tree file) }
  closeFd fd
  pure 200

def statFailed : Errno → Nat
  | .ENOENT | .ENOTDIR => 404
  | _ => 500

def handleGetOrHead (includeBody : Bool) (req : Request) : Handler Nat := do
  let target := makeDiskPath env.cfg req.user req.path
  match ← read fun w => stat w.tree target.diskPath with
  | .error e => stop (statFailed e)
  | .ok statBuf =>
    if req.file = none then
      if includeBody then call (serveDirectory env target.diskPath)
      else do
        let headStatus ← call (serveFileHead env req target.diskPath statBuf
          (some (str "application/json")))
        pure (if headStatus ≠ 0 then headStatus else 200)
    else do
      let headResult ← call (serveFileHead env req target.diskPath statBuf none)
      if headResult ≠ 0 then pure headResult
      else if includeBody then call (serveFile target.diskPath)
      else pure 200

def storageHandleGet (req : Request) : Handler Nat := handleGetOrHead env true req

def storageHandleHead (req : Request) : Handler Nat :=
  if env.cfg.experimental then call (handleGetOrHead env false req) else pure 405

end RsServe.Storage
