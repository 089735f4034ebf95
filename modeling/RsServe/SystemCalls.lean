import RsServe.Authorize
import RsServe.Descriptors
import RsServe.Dirname
import RsServe.DiskPath
import RsServe.EarlyExit
import RsServe.Users

/-! The request handlers once more, call by call, with get_etag and what else they use.
Every call is answered from outside and any call may fail; what is left of the handlers
is their flow of control and the descriptors. -/

namespace RsServe.SystemCalls
open CString Attributes Authorize AuthRecord Descriptors DiskPath Dirname EarlyExit Users

/-- The function of the source that makes the call. -/
inductive Caller where
  | userGetEntry | getXattr | contentTypeFromXattr | contentTypeToXattr | getEtag | makeDiskPath
  | storageHandlePut | storageHandleDelete | newJson | serveDirectory | serveFileHead | serveFile
  | handleGetOrHead
deriving DecidableEq

inductive Opening where
  | file (path : Bytes)
  | create (path : Bytes)
  | at (name : Bytes)
deriving DecidableEq

/-- malloc, realloc and strdup are one; `read` stands for all rounds of its loop. -/
inductive Syscall where
  | alloc
  | getpwnam (username : Bytes)
  | getxattr (path key : Bytes) (len : Nat)
  | setxattr (path key value : Bytes)
  | opens (how : Opening)
  | opendir (path : Bytes)
  | read
  | stat (path : Bytes)
  | fstatat (name : Bytes)
  | mkdirat (name : Bytes)
  | unlink (path : Bytes)
  | unlinkat (name : Bytes)
  | sha1Init
  | sha1Update
  | sha1Final
deriving DecidableEq

abbrev Errno := Nat

def ENOENT : Errno := 2
def EEXIST : Errno := 17
def ENOTDIR : Errno := 20
def ERANGE : Errno := 34
def ENOTEMPTY : Errno := 39

/-- getxattr leaves a value, empty after an error, and an errno, which is an old one where
the attribute is there and empty. A stat tells a directory from the rest; opendir, the
names besides `.` and `..` that the stream is going to give; `read`, the pieces that were
read, and whether the end was reached. -/
def Syscall.Answer : Syscall → Type
  | .alloc | .sha1Init | .sha1Update => Bool
  | .getpwnam _ => Getpwnam
  | .getxattr .. => Bytes × Errno
  | .opendir _ => Except Errno (List Bytes)
  | .read => List Bytes × Bool
  | .stat _ | .fstatat _ => Except Errno Bool
  | .sha1Final => Option Bytes
  | .setxattr .. | .opens _ | .mkdirat _ | .unlink _ | .unlinkat _ => Except Errno Unit

structure Event where
  caller : Caller
  call : Syscall
  answer : call.Answer

/-- What answers a call after all those before it: any file tree, and any failures. -/
abbrev System := List Event → (c : Syscall) → c.Answer

structure Process where
  history : List Event
  fds : List Nat

abbrev Sys (ε α : Type) := Prog Process ε α

section Calls
variable (system : System) {ε : Type}

def Process.answered (p : Process) (caller : Caller) (c : Syscall) : Process :=
  { p with history := p.history ++ [⟨caller, c, system p.history c⟩] }

def ask (caller : Caller) (c : Syscall) : Sys ε c.Answer := fun p =>
  .next (system p.history c) (p.answered system caller c)

def Process.opened (p : Process) : Process := { p with fds := freshFd p.fds :: p.fds }

def Process.closed (fd : Nat) (p : Process) : Process := { p with fds := p.fds.erase fd }

def newFd : Sys ε Nat := fun p => .next (freshFd p.fds) p.opened

def openFd (caller : Caller) (how : Opening) : Sys ε (Option Nat) := do
  match ← ask system caller (.opens how) with
  | .error _ => pure none
  | .ok () => return some (← newFd)

/-- opendir; its stream holds a descriptor as well. -/
def openDir (caller : Caller) (path : Bytes) : Sys ε (Option (Nat × List Bytes)) := do
  match ← ask system caller (.opendir path) with
  | .error _ => pure none
  | .ok names => return some (← newFd, names)

def closeFd (fd : Nat) : Sys ε Unit := update (Process.closed fd)

def check (e : ε) (ok : Bool) : Sys ε Unit := if ok then pure () else stop e

def alloc (caller : Caller) (e : ε) : Sys ε Unit := do
  check e (← ask system caller .alloc)

end Calls

variable (system : System)

def userGetEntry (username : Bytes) : Sys UserEntry UserEntry := do
  alloc system .userGetEntry .null
  alloc system .userGetEntry .null
  match ← ask system .userGetEntry (.getpwnam username) with
  | .entry pw => pure (.found pw)
  | .absent => pure .notFound
  | .failed => pure .null

def getXattrLoop (path key : Bytes) : List Nat → Sys (Option Bytes) (Option Bytes)
  | [] => do
    let _ ← ask system .getXattr .alloc
    pure none
  | len :: lens => do
    alloc system .getXattr none
    let (value, errno) ← ask system .getXattr (.getxattr path key len)
    if value ≠ [] then pure (some (cstr (value.take len)))
    else if errno = ERANGE then getXattrLoop path key lens
    else pure none

def getXattr {ε : Type} (path key : Bytes) (maxlen : Nat) : Sys ε (Option Bytes) :=
  call (getXattrLoop system path key (List.range' 32 ((maxlen - 16) / 16) 16))

def contentTypeFromXattr (path : Bytes) : Sys (Option Bytes) (Option Bytes) := do
  let mimeType ← orStop none (← getXattr system path (str "user.mime_type") 128)
  match ← getXattr system path (str "user.charset") 64 with
  | none => pure (some mimeType)
  | some charset => do
    alloc system .contentTypeFromXattr (some mimeType)
    pure (some (mimeType ++ str "; charset=" ++ charset))

/-- What set_xattr returns is not looked at. -/
def contentTypeToXattr (path contentType : Bytes) : Sys Int Int := do
  alloc system .contentTypeToXattr (-1)
  let (mimeType, rest) ← deref (mediaType contentType)
  let charset := (charsetIn rest).getD (str "UTF-8")
  let _ ← ask system .contentTypeToXattr (.setxattr path (str "user.mime_type") (mimeType ++ [0]))
  let _ ← ask system .contentTypeToXattr (.setxattr path (str "user.charset") (charset ++ [0]))
  pure 0

/-- The loop over the entries of a directory; the result of SHA1_Update is not looked at. -/
def hashEntries (etagOf : Bytes → Sys (Option Bytes) (Option Bytes)) (diskPath : Bytes) :
    List Bytes → Sys (Option Bytes) Unit
  | [] => pure ()
  | name :: names => do
    let nameBuf := if diskPath.getLast? = some slash then diskPath ++ name
      else diskPath ++ slash :: name
    let _ ← deref (← call (etagOf nameBuf))
    let _ ← ask system .getEtag .sha1Update
    hashEntries etagOf diskPath names

def hashPieces : List Bytes → Sys (Option Bytes) Unit
  | [] => pure ()
  | _ :: pieces => do
    check none (← ask system .getEtag .sha1Update)
    hashPieces pieces

def hashDirectory (etagOf : Bytes → Sys (Option Bytes) (Option Bytes)) (diskPath : Bytes) :
    Sys (Option Bytes) Unit := do
  let (dir, names) ← orStop none (← openDir system .getEtag diskPath)
  alloc system .getEtag none
  hashEntries system etagOf diskPath names
  closeFd dir

def hashFile : Sys (Option Bytes) Unit := do
  let (pieces, ended) ← ask system .getEtag .read
  hashPieces system pieces
  check none ended

def hashNode (etagOf : Bytes → Sys (Option Bytes) (Option Bytes)) (diskPath : Bytes)
    (isDir : Bool) : Sys (Option Bytes) Unit :=
  if isDir then hashDirectory system etagOf diskPath else hashFile system

/-- get_etag where the attribute gave nothing. `fd` is not used again: no path closes it. -/
def computeEtag (etagOf : Bytes → Sys (Option Bytes) (Option Bytes)) (diskPath : Bytes) :
    Sys (Option Bytes) (Option Bytes) := do
  alloc system .getEtag none
  check none (← ask system .getEtag .sha1Init)
  let _ ← orStop none (← openFd system .getEtag (.file diskPath))
  match ← ask system .getEtag (.stat diskPath) with
  | .error _ => stop none
  | .ok isDir => do
    hashNode system etagOf diskPath isDir
    let digest ← orStop none (← ask system .getEtag .sha1Final)
    let etag := hexString digest
    let _ ← ask system .getEtag (.setxattr diskPath (str "user.etag") etag)
    pure (some etag)

/-- Deeper than `depth` the stack overflows. -/
def getEtag : Nat → Bytes → Sys (Option Bytes) (Option Bytes)
  | 0, _ => crash
  | depth + 1, diskPath => do
    match ← getXattr system diskPath (str "user.etag") 41 with
    | some etag => pure (some etag)
    | none => computeEtag system (getEtag depth) diskPath

/-- The configuration, and how deep get_etag can recurse before the stack overflows. -/
structure Setting where
  cfg : Config
  depth : Nat

variable (setting : Setting)

/-- Without a pointer for it, the storage root is not allocated. -/
def allocRoot (withRoot : Bool) : Sys Nat Unit :=
  if withRoot then alloc system .makeDiskPath 500 else pure ()

def makeDiskPath (withRoot : Bool) (req : Request) : Sys Nat Target := do
  alloc system .makeDiskPath 500
  allocRoot system withRoot
  pure (DiskPath.makeDiskPath setting.cfg req.user req.path)

def checkIfMatch (diskPath : Bytes) (existed : Bool) : Option Bytes → Sys Nat Unit
  | none => pure ()
  | some ifMatch =>
    if !existed then stop 412
    else do
      let etag ← deref (← call (getEtag system setting.depth diskPath))
      if etag ≠ ifMatch then stop 412 else pure ()

def checkIfNoneMatch (existed : Bool) (ifNoneMatch : Option Bytes) : Sys Nat Unit :=
  if ifNoneMatch = some (str "*") ∧ existed then stop 412 else pure ()

def needUserEntry (username : Bytes) : Sys Nat Unit := do
  match ← call (userGetEntry system username) with
  | .found _ => pure ()
  | .notFound => crash
  | .null => stop 500

def ensureDirectory (dirfd : Nat) (dirName : Bytes) : Sys Nat Unit := do
  match ← ask system .storageHandlePut (.fstatat dirName) with
  | .ok true => pure ()
  | .ok false => do
    closeFd dirfd
    stop 400
  | .error _ =>
    match ← ask system .storageHandlePut (.mkdirat dirName) with
    | .ok () => pure ()
    | .error _ => do
      closeFd dirfd
      stop 500

def makeParents : Nat → List Bytes → Sys Nat Unit
  | dirfd, [] => closeFd dirfd
  | prevfd, dirName :: dirNames => do
    ensureDirectory system prevfd dirName
    let next ← openFd system .storageHandlePut (.at dirName)
    closeFd prevfd
    makeParents (← orStop 500 next) dirNames

def createParents (target : Target) : Sys Nat Unit := do
  alloc system .storageHandlePut 500
  if dirname target.path = str "." then pure ()
  else do
    let dirfd ← orStop 500 (← openFd system .storageHandlePut (.file target.storageRoot))
    makeParents system dirfd (components (dirname target.path))

def storageHandlePut (req : Request) : Sys Nat Nat :=
  if req.file = none then stop 400
  else do
    let target ← makeDiskPath system setting true req
    let existed := (← ask system .storageHandlePut (.stat target.diskPath)).isOk
    checkIfMatch system setting target.diskPath existed req.headersIn.ifMatch
    checkIfNoneMatch existed req.headersIn.ifNoneMatch
    needUserEntry system req.user
    createParents system target
    let fd ← orStop 500 (← openFd system .storageHandlePut (.create target.diskPath))
    let contentType := req.headersIn.contentType.getD defaultContentType
    let _ ← call (contentTypeToXattr system target.diskPath contentType)
    closeFd fd
    check 500 (← ask system .storageHandlePut (.stat target.diskPath)).isOk
    let _ ← call (getEtag system setting.depth target.diskPath)
    pure (if existed then 200 else 201)

def compareIfMatch (etag : Option Bytes) : Option Bytes → Sys Nat Unit
  | none => pure ()
  | some ifMatch => do
    let etag ← deref etag
    if etag ≠ ifMatch then stop 412 else pure ()

/-- The loop over the parents; one that goes on for longer than `depth` rounds does not end. -/
def removeParents (rootdirfd : Nat) : Nat → Bytes → Sys Nat Unit
  | 0, _ => crash
  | depth + 1, dirPath =>
    if dirPath = str "." then pure ()
    else do
      match ← ask system .storageHandleDelete (.unlinkat dirPath) with
      | .ok () => removeParents rootdirfd depth (dirname dirPath)
      | .error e => if e = ENOTEMPTY ∨ e = EEXIST then pure () else stop 500

def storageHandleDelete (req : Request) : Sys Nat Nat :=
  if req.file = none then stop 400
  else do
    let target ← makeDiskPath system setting true req
    match ← ask system .storageHandleDelete (.stat target.diskPath) with
    | .error _ => stop 404
    | .ok true => stop 400
    | .ok false => do
      let etag ← call (getEtag system setting.depth target.diskPath)
      compareIfMatch etag req.headersIn.ifMatch
      check 500 (← ask system .storageHandleDelete (.unlink target.diskPath)).isOk
      alloc system .storageHandleDelete 500
      let root ← openFd system .storageHandleDelete (.file target.storageRoot)
      let rootdirfd ← orStop 500 root
      removeParents system rootdirfd setting.depth (dirname (target.path.drop 1))
      closeFd rootdirfd
      pure 200

/-- The loop over readdir: what stat returns is not looked at, and the name is written
with the ETag, which must not be NULL. -/
def serveEntries (diskPath : Bytes) : List Bytes → Sys Nat Unit
  | [] => pure ()
  | name :: names => do
    let _ ← ask system .serveDirectory (.stat (diskPath ++ name))
    let _ ← deref (← call (getEtag system setting.depth (diskPath ++ name)))
    serveEntries diskPath names

/-- json_start_object follows the pointer. -/
def newJson : Sys Nat Unit := do
  match ← ask system .newJson .alloc with
  | true => pure ()
  | false => crash

/-- After a failed malloc the stream stays open. -/
def serveDirectory (diskPath : Bytes) : Sys Nat Nat := do
  let (dir, names) ← orStop 500 (← openDir system .serveDirectory diskPath)
  alloc system .serveDirectory 500
  newJson system
  serveEntries system setting diskPath names
  match ← call (getEtag system setting.depth diskPath) with
  | none => do
    closeFd dir
    stop 500
  | some _ => do
    closeFd dir
    pure 200

def serveFileHead (req : Request) (diskPath : Bytes) (isDir : Bool) (mimeType : Option Bytes) :
    Sys Nat Nat :=
  if req.file.isNone ≠ isDir then stop 404
  else do
    let etag ← orStop 500 (← call (getEtag system setting.depth diskPath))
    if req.headersIn.ifNoneMatch = some etag then stop 304
    else do
      alloc system .serveFileHead 500
      if mimeType = none then
        let _ ← call (contentTypeFromXattr system diskPath)
      pure 0

def serveFile (diskPath : Bytes) : Sys Nat Nat := do
  let fd ← orStop 500 (← openFd system .serveFile (.file diskPath))
  let _ ← ask system .serveFile .read
  closeFd fd
  pure 200

def handleGetOrHead (includeBody : Bool) (req : Request) : Sys Nat Nat := do
  let target ← makeDiskPath system setting false req
  match ← ask system .handleGetOrHead (.stat target.diskPath) with
  | .error e => stop (if e = ENOENT ∨ e = ENOTDIR then 404 else 500)
  | .ok isDir =>
    if req.file = none then
      if includeBody then call (serveDirectory system setting target.diskPath)
      else do
        let headStatus ← call (serveFileHead system setting req target.diskPath isDir
          (some (str "application/json")))
        pure (if headStatus ≠ 0 then headStatus else 200)
    else do
      let headResult ← call (serveFileHead system setting req target.diskPath isDir none)
      if headResult ≠ 0 then pure headResult
      else if includeBody then call (serveFile system target.diskPath)
      else pure 200

def verifyUser (username : Bytes) : Sys Nat Nat := do
  let entry ← call (userGetEntry system username)
  let uid : UInt32 := match entry with
    | .notFound => -1
    | .null => -2
    | .found pw => pw.uid
  pure (if uid = -1 then 404 else if uid = -2 then 500 else if !uidAllowed uid then 404 else 0)

def callHandler (req : Request) : Sys Nat Nat :=
  match req.method with
  | .OPTIONS => pure 204
  | .GET => call (handleGetOrHead system setting true req)
  | .HEAD =>
    if setting.cfg.experimental then call (handleGetOrHead system setting false req) else pure 405
  | .PUT => call (storageHandlePut system setting req)
  | .DELETE => call (storageHandleDelete system setting req)
  | _ => pure 405

def dispatchStorage (lookup : Bytes → Bytes → Option RsAuthorization) (req : Request) :
    Sys Nat Nat := do
  let status ← call (verifyUser system req.user)
  if status ≠ 0 then pure status
  else if req.method ≠ .OPTIONS ∧ authorizeRequest lookup req ≠ 0 then pure 401
  else callHandler system setting req

end RsServe.SystemCalls
