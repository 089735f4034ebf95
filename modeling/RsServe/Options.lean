import Mathlib.Logic.Function.Basic
import RsServe.Numerals
import RsServe.Request

/-! init_config: the loop over what getopt_long returns, and the checks behind it. -/

namespace RsServe.Options
open CString Numerals

/-- The files that pid files are, by their paths. -/
structure Files where
  entry : Bytes → Option Nat
  content : Nat → Bytes
  next : Nat

/-- What fopen says where no pid file decides: nothing is created where a log file is. -/
structure Host where
  appends : Bytes → Bool
  creates : Bytes → Bool
  reads : Bytes → Bool

def Files.add (files : Files) (path : Bytes) : Files where
  entry := Function.update files.entry path (some files.next)
  content := Function.update files.content files.next []
  next := files.next + 1

/-- fopen(path, "wx") -/
def Files.create (host : Host) (files : Files) (path : Bytes) : Option (Nat × Files) :=
  if host.creates path ∧ files.entry path = none then some (files.next, files.add path) else none

/-- fopen(path, "r") -/
def Files.openRead (host : Host) (files : Files) (path : Bytes) : Option Nat :=
  if host.reads path then files.entry path else none

/-- What getopt_long returns, with optarg. -/
inductive Opt where
  | invalid
  | port (optarg : Bytes)
  | hostname (optarg : Bytes)
  /-- The option r, whose argument nothing reads -/
  | ignored (optarg : Bytes)
  | logFile (optarg : Bytes)
  | detach
  | help
  | version
  | pidFile (optarg : Bytes)
  | stop
  | debug
  /-- The argument stands behind `--dir=`, or is the next one. -/
  | dir (attached : Bool) (optarg : Bytes)
  | authUri (optarg : Bytes)
  | experimental
  | ssl
  | certPath (optarg : Bytes)
  | keyPath (optarg : Bytes)
  | caPath (optarg : Bytes)
  | noXattr
deriving DecidableEq

inductive LogFile where
  | opened (path : Bytes)
  | stdout
deriving DecidableEq

inductive LogDebug where
  | doLogDebug
  | dontLogDebug
deriving DecidableEq

/-- The variables of config.c -/
structure Settings where
  port : ℤ
  scheme : Bytes
  hostname : Bytes
  detach : Bool
  logFile : Option LogFile
  pidFile : Option Nat
  pidFilePath : Option Bytes
  homeServeRoot : Option Bytes
  homeServeRootLen : Nat
  stopOther : Bool
  authUri : Option Bytes
  authUriLen : Nat
  webfingerEnabled : Bool
  experimental : Bool
  useSsl : Bool
  sslCertPath : Option Bytes
  sslKeyPath : Option Bytes
  sslCaPath : Option Bytes
  useXattr : Bool
  currentLogDebug : Option LogDebug
  /-- How often atexit got close_pid_file -/
  exitHandlers : Nat
deriving DecidableEq

def initial : Settings where
  port := 80
  scheme := str "http"
  hostname := str "local.dev"
  detach := false
  logFile := none
  pidFile := none
  pidFilePath := none
  homeServeRoot := none
  homeServeRootLen := 0
  stopOther := false
  authUri := none
  authUriLen := 0
  webfingerEnabled := true
  experimental := false
  useSsl := false
  sslCertPath := none
  sslKeyPath := none
  sslCaPath := none
  useXattr := true
  currentLogDebug := none
  exitHandlers := 0

inductive Outcome where
  | returns (s : Settings) (files : Files)
  | exits (s : Settings) (status : ℤ) (files : Files)
  /-- The pid file of the process to stop is open. -/
  | stops (s : Settings) (file : Nat) (files : Files)
  /-- The byte in front of a string is read. -/
  | strays

def stripSlash (optarg : Bytes) : Bytes :=
  if optarg.getLast? = some slash then optarg.dropLast else optarg

/-- A round of the loop; `returns` goes on with the next one. -/
def option (host : Host) (s : Settings) (files : Files) : Opt → Outcome
  | .invalid => .exits s 1 files
  | .port optarg => .returns { s with port := atoi optarg } files
  | .hostname optarg => .returns { s with hostname := optarg } files
  | .ignored _ => .returns s files
  | .logFile optarg =>
    if host.appends optarg then .returns { s with logFile := some (.opened optarg) } files
    else .exits { s with logFile := none } 1 files
  | .detach => .returns { s with detach := true } files
  | .help => .exits s 127 files
  | .version => .exits s 127 files
  | .pidFile optarg =>
    let s := { s with pidFilePath := some optarg }
    if s.stopOther then
      match files.openRead host optarg with
      | none => .exits { s with pidFile := none } 1 files
      | some file => .stops { s with pidFile := some file } file files
    else
      match files.create host optarg with
      | none => .exits { s with pidFile := none } 1 files
      | some (file, files) =>
        .returns { s with pidFile := some file, exitHandlers := s.exitHandlers + 1 } files
  | .stop => .returns { s with stopOther := true } files
  | .debug => .returns { s with currentLogDebug := some .doLogDebug } files
  | .dir attached optarg =>
    -- optarg[-1] is the `=` of an attached argument.
    if optarg = [] ∧ ¬ attached then .strays
    else
      .returns { s with
        homeServeRoot := some (stripSlash optarg)
        homeServeRootLen := (stripSlash optarg).length } files
  | .authUri optarg =>
    .returns { s with authUri := some optarg, authUriLen := optarg.length } files
  | .experimental => .returns { s with experimental := true } files
  | .ssl => .returns { s with useSsl := true, scheme := str "https" } files
  | .certPath optarg => .returns { s with sslCertPath := some optarg } files
  | .keyPath optarg => .returns { s with sslKeyPath := some optarg } files
  | .caPath optarg => .returns { s with sslCaPath := some optarg } files
  | .noXattr => .returns { s with useXattr := false } files

def defaultRoot (s : Settings) : Settings :=
  if s.homeServeRoot = none then
    { s with homeServeRoot := some (str "storage"), homeServeRootLen := 7 }
  else s

def defaultLogs (s : Settings) : Settings :=
  { s with
    currentLogDebug := some (s.currentLogDebug.getD .dontLogDebug)
    logFile := some (s.logFile.getD .stdout) }

def sslPort (s : Settings) : Settings :=
  if s.useSsl ∧ s.port = 80 then { s with port := 443 } else s

def checkAuthUri (s : Settings) : Settings :=
  if s.authUri = none then { s with webfingerEnabled := false } else s

def finish (s : Settings) (files : Files) : Outcome :=
  let s := defaultRoot s
  if s.stopOther then .exits s 1 files
  else
    let s := defaultLogs s
    if s.useSsl ∧ (s.sslCertPath = none ∨ s.sslKeyPath = none) then .exits s 1 files
    else .returns (checkAuthUri (sslPort s)) files

def initConfig (host : Host) : List Opt → Settings → Files → Outcome
  | [], s, files => finish s files
  | o :: options, s, files =>
    match option host s files o with
    | .returns s files => initConfig host options s files
    | ended => ended

def last {α : Type} (of : Opt → Option α) (options : List Opt) : Option α :=
  (options.filterMap of).getLast?

theorem last_concat {α : Type} (of : Opt → Option α) (options : List Opt) (o : Opt) :
    last of (options ++ [o]) = (of o).or (last of options) := by
  rw [last, List.filterMap_append]
  cases hof : of o with
  | none => simp [hof, last]
  | some a => simp [hof]

def pidPath : Opt → Option Bytes
  | .pidFile path => some path
  | _ => none

def pidPaths (options : List Opt) : List Bytes := options.filterMap pidPath

def root : Opt → Option Bytes
  | .dir _ path => some (stripSlash path)
  | _ => none

def uri : Opt → Option Bytes
  | .authUri template => some template
  | _ => none

/-- The variables after the loop, where nothing has ended it. -/
def chosen (files : Files) (options : List Opt) : Settings where
  port := ((last (fun | .port n => some n | _ => none) options).map atoi).getD 80
  scheme := if .ssl ∈ options then str "https" else str "http"
  hostname := (last (fun | .hostname name => some name | _ => none) options).getD (str "local.dev")
  detach := .detach ∈ options
  logFile := last (fun | .logFile path => some (.opened path) | _ => none) options
  pidFile := if pidPaths options = [] then none
    else some (files.next + (pidPaths options).length - 1)
  pidFilePath := last pidPath options
  homeServeRoot := last root options
  homeServeRootLen := ((last root options).map List.length).getD 0
  stopOther := false
  authUri := last uri options
  authUriLen := ((last uri options).map List.length).getD 0
  webfingerEnabled := true
  experimental := .experimental ∈ options
  useSsl := .ssl ∈ options
  sslCertPath := last (fun | .certPath path => some path | _ => none) options
  sslKeyPath := last (fun | .keyPath path => some path | _ => none) options
  sslCaPath := last (fun | .caPath path => some path | _ => none) options
  useXattr := .noXattr ∉ options
  currentLogDebug := if .debug ∈ options then some .doLogDebug else none
  exitHandlers := (pidPaths options).length

def ready (files : Files) (options : List Opt) : Settings where
  __ := chosen files options
  port := if .ssl ∈ options ∧ (chosen files options).port = 80 then 443
    else (chosen files options).port
  logFile := some ((chosen files options).logFile.getD .stdout)
  homeServeRoot := some ((last root options).getD (str "storage"))
  homeServeRootLen := ((last root options).getD (str "storage")).length
  webfingerEnabled := (last uri options).isSome
  currentLogDebug := some ((chosen files options).currentLogDebug.getD .dontLogDebug)

def opened (files : Files) (options : List Opt) : Files := (pidPaths options).foldl Files.add files

def Passes (host : Host) (files : Files) : Opt → Prop
  | .invalid => False
  | .help => False
  | .version => False
  | .stop => False
  | .logFile path => host.appends path
  | .pidFile path => host.creates path ∧ files.entry path = none
  | .dir attached path => path = [] → attached
  | _ => True

structure Accepted (host : Host) (files : Files) (options : List Opt) : Prop where
  handled : ∀ o ∈ options, o ∉ [.invalid, .help, .version, .stop]
  logs : ∀ path, .logFile path ∈ options → host.appends path
  dirs : .dir false [] ∉ options
  created : ∀ path ∈ pidPaths options, host.creates path ∧ files.entry path = none
  distinct : (pidPaths options).Nodup

variable {host : Host} {files files' : Files} {options : List Opt} {o : Opt} {s s' : Settings}

theorem entry_foldl_add (paths : List Bytes) (path : Bytes) :
    ((paths.foldl Files.add files).entry path = none ↔ files.entry path = none ∧ path ∉ paths) ∧
      (paths.foldl Files.add files).next = files.next + paths.length := by
  induction paths generalizing files with
  | nil => simp
  | cons p paths ih =>
    obtain ⟨entry, next⟩ := @ih (files.add p)
    rw [List.foldl_cons, entry, next]
    refine ⟨?_, by simp [Files.add]; omega⟩
    by_cases same : path = p
    · simp [Files.add, same]
    · simp [Files.add, same]

theorem pidPaths_concat (options : List Opt) (o : Opt) :
    pidPaths (options ++ [o]) = pidPaths options ++ (pidPath o).toList := by
  rw [pidPaths, List.filterMap_append]
  cases hpath : pidPath o <;> simp [pidPaths, hpath]

theorem opened_concat (options : List Opt) (o : Opt) :
    opened files (options ++ [o]) =
      (pidPath o).elim (opened files options) (opened files options).add := by
  rw [opened, pidPaths_concat, List.foldl_append]
  cases pidPath o <;> rfl

theorem option_chosen (hpass : Passes host (opened files options) o) :
    option host (chosen files options) (opened files options) o =
      .returns (chosen files (options ++ [o])) (opened files (options ++ [o])) := by
  rw [opened_concat]
  cases o with
  | invalid => exact hpass.elim
  | help => exact hpass.elim
  | version => exact hpass.elim
  | stop => exact hpass.elim
  | pidFile path =>
    have free : host.creates path = true ∧ (opened files options).entry path = none := hpass
    have created : (opened files options).create host path =
        some (files.next + (pidPaths options).length, (opened files options).add path) := by
      rw [Files.create, if_pos free, opened, (entry_foldl_add _ path).2]
    simp [option, created, chosen, last_concat, pidPaths_concat, pidPath, root, uri]
  | dir attached path =>
    simp [option, chosen, last_concat, pidPaths_concat, pidPath, root, uri]
    exact hpass
  | logFile path =>
    have appends : host.appends path = true := hpass
    simp [option, appends, chosen, last_concat, pidPaths_concat, pidPath, root, uri]
  | _ => simp [option, chosen, last_concat, pidPaths_concat, pidPath, root, uri]

theorem passes_of_option (hs : s.stopOther = false)
    (h : option host s files o = .returns s' files') : o = .stop ∨ Passes host files o := by
  cases o with
  | stop => exact Or.inl rfl
  | pidFile path =>
    refine Or.inr ?_
    by_cases free : host.creates path = true ∧ files.entry path = none
    · exact free
    · simp [option, hs, Files.create, free] at h
  | _ => grind [option, Passes]

theorem option_stopOther (hs : s.stopOther = true)
    (h : option host s files o = .returns s' files') : s'.stopOther = true := by
  cases o <;> grind [option]

theorem defaultRoot_eq (s : Settings) :
    defaultRoot s = { s with
      homeServeRoot := (defaultRoot s).homeServeRoot
      homeServeRootLen := (defaultRoot s).homeServeRootLen } := by
  unfold defaultRoot
  split <;> rfl

theorem initConfig_stopped (hs : s.stopOther = true) :
    initConfig host options s files ≠ .returns s' files' := by
  induction options generalizing s files with
  | nil =>
    have stop : (defaultRoot s).stopOther = true := by
      rw [defaultRoot_eq]
      exact hs
    simp [initConfig, finish, stop]
  | cons o options ih =>
    rw [initConfig]
    cases hoption : option host s files o with
    | returns s₁ files₁ => exact ih (option_stopOther hs hoption)
    | _ => simp

theorem accepted_nil : Accepted host files [] :=
  ⟨by simp, by simp, by simp, by simp [pidPaths], by simp [pidPaths]⟩

theorem passes_iff : Passes host files o ↔ o ∉ [.invalid, .help, .version, .stop] ∧
    (∀ path, o = .logFile path → host.appends path) ∧ o ≠ .dir false [] ∧
    ∀ path ∈ pidPath o, host.creates path ∧ files.entry path = none := by
  cases o with
  | dir attached path => cases attached <;> simp [Passes, pidPath]
  | _ => simp [Passes, pidPath]

theorem accepted_concat :
    Accepted host files (options ++ [o]) ↔
      Accepted host files options ∧ Passes host (opened files options) o := by
  have entry : ∀ path, (opened files options).entry path = none ↔
      files.entry path = none ∧ path ∉ pidPaths options := fun path => (entry_foldl_add _ path).1
  rw [passes_iff]
  constructor
  · intro h
    have created := h.created
    have distinct := h.distinct
    rw [pidPaths_concat] at created distinct
    obtain ⟨distinct, -, apart⟩ := List.nodup_append.1 distinct
    refine ⟨⟨fun p hp => h.handled p (by simp [hp]), fun path hp => h.logs path (by simp [hp]),
      fun hp => h.dirs (by simp [hp]), fun path hp => created path (by simp [hp]), distinct⟩,
      h.handled o (by simp), fun path hp => h.logs path (by simp [hp]),
      fun hp => h.dirs (by simp [hp]), fun path hp => ?_⟩
    have free := created path (List.mem_append_right _ (by simpa using hp))
    exact ⟨free.1, (entry path).2 ⟨free.2, fun mem => apart path mem path (by simpa using hp) rfl⟩⟩
  · intro h
    obtain ⟨h, handled, logs, dirs, created⟩ := h
    refine ⟨?_, ?_, ?_, ?_, ?_⟩
    · exact List.forall_mem_append.2 ⟨h.handled, List.forall_mem_singleton.2 handled⟩
    · intro path mem
      rcases List.mem_append.1 mem with mem | mem
      · exact h.logs path mem
      · exact logs path (List.mem_singleton.1 mem).symm
    · intro mem
      rcases List.mem_append.1 mem with mem | mem
      · exact h.dirs mem
      · exact dirs (List.mem_singleton.1 mem).symm
    · rw [pidPaths_concat]
      refine List.forall_mem_append.2 ⟨h.created, fun path mem => ?_⟩
      have free := created path (by simpa using mem)
      exact ⟨free.1, ((entry path).1 free.2).1⟩
    · rw [pidPaths_concat]
      refine List.nodup_append.2 ⟨h.distinct, by cases pidPath o <;> simp, ?_⟩
      rintro path mem other here rfl
      exact ((entry path).1 (created path (by simpa using here)).2).2 mem

theorem Accepted.left {front back : List Opt} (h : Accepted host files (front ++ back)) :
    Accepted host files front := by
  induction back using List.reverseRecOn with
  | nil => simpa using h
  | append_singleton back o ih =>
    rw [← List.append_assoc] at h
    exact ih (accepted_concat.1 h).1

theorem initConfig_chosen {past : List Opt} (h : Accepted host files past) :
    initConfig host options (chosen files past) (opened files past) = .returns s files' ↔
      Accepted host files (past ++ options) ∧
        finish (chosen files (past ++ options)) (opened files (past ++ options)) =
          .returns s files' := by
  induction options generalizing past with
  | nil => simp [initConfig, h]
  | cons o options ih =>
    have split : past ++ o :: options = past ++ [o] ++ options := by simp
    rw [initConfig, split]
    by_cases hpass : Passes host (opened files past) o
    · rw [option_chosen hpass]
      exact ih (accepted_concat.2 ⟨h, hpass⟩)
    · have refused : ¬ Accepted host files (past ++ [o] ++ options) := fun accepted =>
        hpass (accepted_concat.1 accepted.left).2
      simp only [refused, false_and, iff_false]
      cases hoption : option host (chosen files past) (opened files past) o with
      | returns s₁ files₁ =>
        rcases passes_of_option rfl hoption with rfl | pass
        · simp only [option, Outcome.returns.injEq] at hoption
          exact initConfig_stopped (by rw [← hoption.1])
        · exact absurd pass hpass
      | _ => simp

theorem last_eq_none {α : Type} {of : Opt → Option α} :
    last of options = none ↔ ∀ o ∈ options, of o = none := by
  rw [last, List.getLast?_eq_none_iff, List.filterMap_eq_nil_iff]

theorem ready_eq (files : Files) (options : List Opt) :
    checkAuthUri (sslPort (defaultLogs (defaultRoot (chosen files options)))) =
      ready files options := by
  have ssl : (chosen files options).useSsl = true ↔ .ssl ∈ options := decide_eq_true_iff
  have rooted : defaultRoot (chosen files options) = { chosen files options with
      homeServeRoot := some ((last root options).getD (str "storage"))
      homeServeRootLen := ((last root options).getD (str "storage")).length } := by
    cases hroot : last root options
    · simp only [defaultRoot, chosen, hroot, if_true]
      rfl
    · simp [defaultRoot, chosen, hroot]
  rw [rooted]
  simp only [defaultLogs, sslPort, checkAuthUri, ssl]
  cases huri : last uri options <;> split_ifs with hport <;>
    simp_all [ready, chosen]

theorem certPath_eq_none :
    (chosen files options).sslCertPath = none ↔ ¬ ∃ path, .certPath path ∈ options := by
  rw [chosen, last_eq_none]
  constructor
  · rintro h ⟨path, mem⟩
    cases h _ mem
  · intro h o mem
    cases o with
    | certPath path => exact absurd ⟨path, mem⟩ h
    | _ => rfl

theorem keyPath_eq_none :
    (chosen files options).sslKeyPath = none ↔ ¬ ∃ path, .keyPath path ∈ options := by
  rw [chosen, last_eq_none]
  constructor
  · rintro h ⟨path, mem⟩
    cases h _ mem
  · intro h o mem
    cases o with
    | keyPath path => exact absurd ⟨path, mem⟩ h
    | _ => rfl

theorem finish_chosen (F : Files) :
    finish (chosen files options) F = .returns s files' ↔
      (.ssl ∈ options → (∃ path, .certPath path ∈ options) ∧ ∃ path, .keyPath path ∈ options) ∧
        s = ready files options ∧ files' = F := by
  have stop : (defaultRoot (chosen files options)).stopOther = false := by
    rw [defaultRoot_eq]
    rfl
  have missing : (defaultLogs (defaultRoot (chosen files options))).useSsl = true ∧
      ((defaultLogs (defaultRoot (chosen files options))).sslCertPath = none ∨
        (defaultLogs (defaultRoot (chosen files options))).sslKeyPath = none) ↔
      ¬ (.ssl ∈ options →
        (∃ path, .certPath path ∈ options) ∧ ∃ path, .keyPath path ∈ options) := by
    rw [defaultRoot_eq]
    have ssl : (chosen files options).useSsl = true ↔ .ssl ∈ options := decide_eq_true_iff
    simp only [defaultLogs, ssl, certPath_eq_none, keyPath_eq_none]
    tauto
  simp only [finish, stop, Bool.false_eq_true, if_false, ready_eq]
  by_cases given : .ssl ∈ options →
      (∃ path, .certPath path ∈ options) ∧ ∃ path, .keyPath path ∈ options
  · rw [if_neg (missing.not.2 (not_not.2 given)), Outcome.returns.injEq]
    constructor
    · intro h
      exact ⟨given, h.1.symm, h.2.symm⟩
    · intro h
      exact ⟨h.2.1.symm, h.2.2.symm⟩
  · rw [if_pos (missing.2 given)]
    simp only [given, false_and, reduceCtorEq]

/-- init_config returns if and only if no option ends the loop and encryption has its two files,
and then each variable has the value of the last option for it. -/
theorem initConfig_returns_iff :
    initConfig host options initial files = .returns s files' ↔
      Accepted host files options ∧
        (.ssl ∈ options → (∃ path, .certPath path ∈ options) ∧ ∃ path, .keyPath path ∈ options) ∧
        s = ready files options ∧ files' = opened files options := by
  have start : initial = chosen files [] := rfl
  have same : files = opened files [] := rfl
  rw [start]
  nth_rewrite 2 [same]
  rw [initConfig_chosen accepted_nil, List.nil_append, finish_chosen]

-- The port is 80 as an int, and so becomes 443.
example : ∃ s files',
    initConfig ⟨fun _ => true, fun _ => true, fun _ => true⟩
        [.dir true (str "store/"), .port (str "4294967376"), .keyPath (str "k"), .ssl,
          .certPath (str "c"), .pidFile (str "p")] initial ⟨fun _ => none, fun _ => [], 0⟩ =
      .returns s files' ∧
      s.port = 443 ∧ s.homeServeRoot = some (str "store") ∧ s.pidFile = some 0 :=
  ⟨_, _, rfl, by decide +kernel, rfl, rfl⟩

end RsServe.Options
