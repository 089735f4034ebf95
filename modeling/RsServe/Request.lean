import RsServe.CString

/-! Configuration and requests, with what libevhtp hands to the handlers. -/

namespace RsServe
open CString

/-- A single directory name: `.` and `..` excluded. -/
structure PlainName (n : Bytes) : Prop where
  ne_nil : n ≠ []
  not_mem : slash ∉ n
  ne_here : n ≠ str "."
  ne_up : n ≠ str ".."

/-- Command line options; `--dir` names a directory of the user's home. `--no-xattr` is left
out: get_meta_attr and set_meta_attr only say that they are not implemented, and abort. -/
structure Config where
  homeServeRoot : Bytes
  plainRoot : PlainName homeServeRoot
  experimental : Bool
  useSsl : Bool
  hostname : Bytes
  plainHostname : percent ∉ hostname
  /-- A printf format with one `%s`; without it webfinger is off. -/
  authUri : Option Bytes

def Config.scheme (cfg : Config) : Bytes := if cfg.useSsl then str "https" else str "http"

/-- init_config without any option -/
def defaultConfig : Config where
  homeServeRoot := str "storage"
  plainRoot := ⟨by decide, by decide, by decide, by decide⟩
  experimental := false
  useSsl := false
  hostname := str "local.dev"
  plainHostname := by decide
  authUri := none

inductive Method where
  | GET | HEAD | POST | PUT | DELETE | MKCOL | COPY | MOVE | OPTIONS | PROPFIND | PROPPATCH
  | LOCK | UNLOCK | TRACE | CONNECT | PATCH
deriving DecidableEq, Repr

/-- IS_READ -/
def Method.isRead (m : Method) : Bool := m = .GET || m = .HEAD

/-- The request headers that the handlers look up. -/
structure HeadersIn where
  authorization : Option Bytes
  ifMatch : Option Bytes
  ifNoneMatch : Option Bytes
  contentType : Option Bytes
deriving DecidableEq, Repr

structure Request where
  method : Method
  /-- REQUEST_GET_USER -/
  user : Bytes
  /-- REQUEST_GET_PATH -/
  path : Bytes
  /-- uri->path->file -/
  file : Option Bytes
  headersIn : HeadersIn
  bufferIn : Bytes
deriving DecidableEq, Repr

/-- libevhtp leaves the file part out exactly when the path ends in a slash. -/
def Request.Parsed (r : Request) : Prop :=
  r.path.head? = some slash ∧ (r.file = none ↔ r.path.getLast? = some slash)

end RsServe
