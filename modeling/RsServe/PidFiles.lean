import RsServe.Options

/-! Pid files: servers that start, detach and stop, and `--stop`, in any order. -/

namespace RsServe.PidFiles
open CString Numerals Options

inductive Stage where
  /-- In init_config, with what getopt_long will return -/
  | options (rest : List Opt)
  /-- `--stop` has the file open. -/
  | reading (file : Nat)
  /-- `--stop` with the id that fscanf has set, if it has -/
  | stopping (target : Option ℤ)
  /-- In main, before the event loop -/
  | starting
  /-- fork has returned to the process that detaches. -/
  | forked (child : ℤ)
  /-- In the event loop -/
  | serving
deriving DecidableEq

structure Process where
  settings : Settings
  stage : Stage
deriving DecidableEq

structure Machine where
  processes : Nat → Option Process
  files : Files

def Machine.set (m : Machine) (pid : Nat) (P : Option Process) : Machine :=
  { m with processes := Function.update m.processes pid P }

inductive Act where
  /-- The next round of the loop, or what follows it -/
  | goOn
  /-- fscanf -/
  | read
  /-- kill, and exit with what it returned -/
  | kill
  /-- exit(EXIT_FAILURE) in main -/
  | fail
  | fork (child : Nat)
  | forkFails
  /-- The id is written, by a process that detaches just before `_exit`. -/
  | write
  /-- handle_signal, or main returns. -/
  | exit
  /-- A signal that is not blocked, so that no exit handler runs -/
  | die
deriving DecidableEq

inductive Event where
  | spawn (pid : Nat) (options : List Opt)
  | acts (pid : Nat) (a : Act)
deriving DecidableEq

def unlink (files : Files) (path : Bytes) : Files :=
  { files with entry := Function.update files.entry path none }

def write (files : Files) (file : Nat) (text : Bytes) : Files :=
  { files with content := Function.update files.content file text }

/-- exit: each of the handlers closes the file and unlinks the path. None where fclose gets no file,
or one that is closed. -/
def exitHandlers (s : Settings) (files : Files) : Option Files :=
  match s.exitHandlers, s.pidFile, s.pidFilePath with
  | 0, _, _ => some files
  | 1, some _, some path => some (unlink files path)
  | _, _, _ => none

def exit (m : Machine) (pid : Nat) (s : Settings) : Option Machine :=
  (exitHandlers s m.files).map fun files => { m.set pid none with files := files }

/-- A round of the loop, or what follows it -/
def advance (host : Host) (s : Settings) (files : Files) : List Opt → Outcome
  | [] => finish s files
  | o :: _ => option host s files o

def Stage.after : List Opt → Stage
  | [] => .starting
  | _ :: rest => .options rest

variable (host : Host)

/-- None where the process is not so far, and where it strays. -/
def act (m : Machine) (pid : Nat) (s : Settings) : Stage → Act → Option Machine
  | .options options, .goOn =>
    match advance host s m.files options with
    | .returns s files => some { m.set pid (some ⟨s, .after options⟩) with files := files }
    | .exits s _ files => exit { m with files := files } pid s
    | .stops s file files => some { m.set pid (some ⟨s, .reading file⟩) with files := files }
    | .strays => none
  | .reading file, .read =>
    some (m.set pid (some ⟨s, .stopping (scanInt (m.files.content file))⟩))
  | .stopping _, .kill => exit m pid s
  | .starting, .fail => exit m pid s
  | .starting, .fork child =>
    if s.detach ∧ m.processes child = none then
      some ((m.set pid (some ⟨s, .forked child⟩)).set child (some ⟨s, .serving⟩))
    else none
  | .starting, .forkFails => if s.detach then some (m.set pid (some ⟨s, .forked (-1)⟩)) else none
  | .starting, .write =>
    if s.detach then none
    else
      some { m.set pid (some ⟨s, .serving⟩) with
        files := s.pidFile.elim m.files fun file => write m.files file (printInt pid) }
  | .forked child, .write =>
    some { m.set pid none with
      files := s.pidFile.elim m.files fun file => write m.files file (printInt child) }
  | .serving, .exit => exit m pid s
  | _, .die => some (m.set pid none)
  | _, _ => none

def step (m : Machine) : Event → Option Machine
  | .spawn pid options =>
    if m.processes pid = none then some (m.set pid (some ⟨initial, .options options⟩)) else none
  | .acts pid a => (m.processes pid).bind fun P => act host m pid P.settings P.stage a

def run (m : Machine) (events : List Event) : Option Machine := events.foldlM (step host) m

def start : Machine where
  processes := fun _ => none
  files := ⟨fun _ => none, fun _ => [], 0⟩

/-- The process will unlink the path when it exits. -/
structure Process.Owns (P : Process) (path : Bytes) (file : Nat) : Prop where
  handlers : P.settings.exitHandlers ≠ 0
  file : P.settings.pidFile = some file
  path : P.settings.pidFilePath = some path
  unforked : ∀ child, P.stage ≠ .forked child

def Stage.rest : Stage → List Opt
  | .options rest => rest
  | _ => []

def Event.Once : Event → Prop
  | .spawn _ options => (pidPaths options).length ≤ 1
  | _ => True

structure Settled (P : Process) : Prop where
  once : P.settings.exitHandlers + (pidPaths P.stage.rest).length ≤ 1
  opened : P.settings.exitHandlers ≠ 0 → ∃ path file, P.settings.pidFile = some file ∧
    P.settings.pidFilePath = some path
  unopened : P.settings.exitHandlers = 0 → (∀ target, P.stage ≠ .stopping target) →
    (∀ file, P.stage ≠ .reading file) → P.settings.pidFile = none
  read : ∀ file, P.stage = .reading file →
    P.settings.pidFile = some file ∧ P.settings.exitHandlers = 0

structure SamePid (s s' : Settings) : Prop where
  file : s'.pidFile = s.pidFile
  path : s'.pidFilePath = s.pidFilePath
  handlers : s'.exitHandlers = s.exitHandlers

variable {host : Host} {s s' : Settings} {files files' : Files} {m m' : Machine}

theorem finish_samePid {c : ℤ} : (finish s files = .returns s' files' ∨
    finish s files = .exits s' c files') → SamePid s s' ∧ files' = files := by
  have root : SamePid s (defaultRoot s) := by
    unfold defaultRoot
    split <;> exact ⟨rfl, rfl, rfl⟩
  have rest : SamePid s (checkAuthUri (sslPort (defaultLogs (defaultRoot s)))) := by
    unfold checkAuthUri sslPort
    split_ifs <;> exact ⟨root.file, root.path, root.handlers⟩
  have logs : SamePid s (defaultLogs (defaultRoot s)) := ⟨root.file, root.path, root.handlers⟩
  grind [finish]

theorem finish_ends (s s' : Settings) (files files' : Files) (file : Nat) :
    finish s files ≠ .stops s' file files' ∧ finish s files ≠ .strays := by
  grind [finish]

theorem option_samePid {o : Opt} {c : ℤ} (ho : pidPath o = none)
    (h : option host s files o = .returns s' files' ∨
      option host s files o = .exits s' c files') : SamePid s s' ∧ files' = files := by
  cases o with
  | pidFile path => cases ho
  | _ =>
    simp only [option] at h
    grind [SamePid]

theorem option_stops {o : Opt} {file : Nat} (h : option host s files o = .stops s' file files') :
    ∃ path, o = .pidFile path ∧ s.stopOther = true ∧ files.entry path = some file ∧
      s' = { s with pidFilePath := some path, pidFile := some file } ∧ files' = files := by
  cases o with
  | pidFile path =>
    simp only [option, Files.openRead] at h
    grind
  | _ => grind [option]

theorem option_pidFile {path : Bytes} :
    (option host s files (.pidFile path) = .returns s' files' → files.entry path = none ∧
      s' = { s with
        pidFilePath := some path
        pidFile := some files.next
        exitHandlers := s.exitHandlers + 1 } ∧ files' = files.add path) ∧
    ∀ status, option host s files (.pidFile path) = .exits s' status files' →
      s' = { s with pidFilePath := some path, pidFile := none } ∧ files' = files := by
  simp only [option, Files.create]
  grind

inductive Change (m : Machine) : Event → Machine → Prop where
  | spawned (e : Event) (pid : Nat) (options : List Opt) (free : m.processes pid = none)
      (once : (pidPaths options).length ≤ 1) :
      Change m e (m.set pid (some ⟨initial, .options options⟩))
  /-- Neither the pid file nor what is owned changes. -/
  | moved (e : Event) (pid : Nat) (P P' : Process) (here : m.processes pid = some P)
      (same : SamePid P.settings P'.settings) (settled : Settled P')
      (unforked : ∀ child, P.stage ≠ .forked child) (unserved : P.stage ≠ .serving)
      (unforked' : ∀ child, P'.stage ≠ .forked child)
      (target : ∀ t, P'.stage = .stopping t → ∃ file, P.settings.pidFile = some file ∧
        t = scanInt (m.files.content file)) :
      Change m e (m.set pid (some P'))
  | created (e : Event) (pid : Nat) (s : Settings) (path : Bytes) (rest : List Opt)
      (here : m.processes pid = some ⟨s, .options (.pidFile path :: rest)⟩)
      (free : m.files.entry path = none) :
      Change m e { m.set pid (some ⟨{ s with
          pidFilePath := some path
          pidFile := some m.files.next
          exitHandlers := s.exitHandlers + 1 }, .options rest⟩) with files := m.files.add path }
  | found (e : Event) (pid : Nat) (s : Settings) (path : Bytes) (rest : List Opt) (file : Nat)
      (here : m.processes pid = some ⟨s, .options (.pidFile path :: rest)⟩)
      (there : m.files.entry path = some file) :
      Change m e (m.set pid (some
        ⟨{ s with pidFilePath := some path, pidFile := some file }, .reading file⟩))
  /-- The exit handlers run. -/
  | left (pid : Nat) (a : Act) (P : Process) (files : Files) (here : m.processes pid = some P)
      (unlinked : (∃ path file, P.Owns path file ∧ files = unlink m.files path) ∨
        P.settings.exitHandlers = 0 ∧ files = m.files) :
      Change m (.acts pid a) { m.set pid none with files := files }
  | forked (e : Event) (pid child : Nat) (s : Settings)
      (here : m.processes pid = some ⟨s, .starting⟩)
      (free : m.processes child = none) :
      Change m e ((m.set pid (some ⟨s, .forked child⟩)).set child (some ⟨s, .serving⟩))
  | forkFailed (pid : Nat) (s : Settings) (here : m.processes pid = some ⟨s, .starting⟩) :
      Change m (.acts pid .forkFails) (m.set pid (some ⟨s, .forked (-1)⟩))
  | written (e : Event) (pid : Nat) (s : Settings) (here : m.processes pid = some ⟨s, .starting⟩) :
      Change m e { m.set pid (some ⟨s, .serving⟩) with
        files := s.pidFile.elim m.files fun file => write m.files file (printInt pid) }
  | detached (e : Event) (pid : Nat) (s : Settings) (child : ℤ)
      (here : m.processes pid = some ⟨s, .forked child⟩) :
      Change m e { m.set pid none with
        files := s.pidFile.elim m.files fun file => write m.files file (printInt child) }
  | died (pid : Nat) (P : Process) (here : m.processes pid = some P) :
      Change m (.acts pid .die) (m.set pid none)

theorem exit_change {pid : Nat} {a : Act} {P : Process} (here : m.processes pid = some P)
    (hP : Settled P)
    (unforked : ∀ child, P.stage ≠ .forked child) (hs : s.exitHandlers = P.settings.exitHandlers)
    (same : P.settings.exitHandlers ≠ 0 → SamePid P.settings s)
    (h : exit m pid s = some m') : Change m (.acts pid a) m' := by
  obtain ⟨files, hfiles, rfl⟩ := Option.map_eq_some_iff.1 h
  refine .left pid a P files here ?_
  by_cases handlers : P.settings.exitHandlers = 0
  · refine Or.inr ⟨handlers, ?_⟩
    simpa [exitHandlers, hs, handlers] using hfiles.symm
  · obtain ⟨path, file, hfile, hpath⟩ := hP.opened handlers
    have one : s.exitHandlers = 1 := by
      have once := hP.once
      omega
    refine Or.inl ⟨path, file, ⟨handlers, hfile, hpath, unforked⟩, ?_⟩
    rw [exitHandlers, one, (same handlers).file, hfile, (same handlers).path, hpath] at hfiles
    exact (Option.some.inj hfiles).symm

theorem settled_initial {options : List Opt} (once : (pidPaths options).length ≤ 1) :
    Settled ⟨initial, .options options⟩ where
  once := by simpa [initial, Stage.rest] using once
  opened := fun h => absurd rfl h
  unopened := fun _ _ _ => rfl
  read := fun file h => by cases h

theorem Settled.move {P P' : Process} (h : Settled P) (same : SamePid P.settings P'.settings)
    (rest : (pidPaths P'.stage.rest).length ≤ (pidPaths P.stage.rest).length)
    (still : ∀ file, P'.stage ≠ .reading file) 
    (earlier : (∀ target, P'.stage ≠ .stopping target) → (∀ target, P.stage ≠ .stopping target) ∧
       ∀ file, P.stage ≠ .reading file) : Settled P' where
  once := by
    have once := h.once
    rw [same.handlers]
    omega
  opened := by
    rw [same.handlers, same.file, same.path]
    exact h.opened
  unopened := by
    rw [same.handlers, same.file]
    intro handlers unstopped _
    exact h.unopened handlers (earlier unstopped).1 (earlier unstopped).2
  read := fun file hstage => absurd hstage (still file)

theorem goOn_change {pid : Nat} {options : List Opt}
    (here : m.processes pid = some ⟨s, .options options⟩) (hP : Settled ⟨s, .options options⟩)
    (h : act host m pid s (.options options) .goOn = some m') :
    Change m (.acts pid .goOn) m' := by
  simp only [act] at h
  cases options with
  | nil =>
    cases hend : advance host s m.files [] with
    | returns s' files' =>
      obtain ⟨same, rfl⟩ := finish_samePid (c := 0) (Or.inl hend)
      simp only [hend, Option.some_inj] at h
      rw [← h]
      exact .moved _ pid _ ⟨s', .starting⟩ here same
        (hP.move same (by simp [Stage.rest]) (by simp) (by simp)) (by simp) (by simp) (by simp)
        (by simp)
    | exits s' status files' =>
      obtain ⟨same, rfl⟩ := finish_samePid (Or.inr hend)
      simp only [hend] at h
      exact exit_change here hP (by simp) same.handlers (fun _ => same) h
    | stops s' file files' => exact absurd hend (finish_ends s s' m.files files' file).1
    | strays => exact absurd hend (finish_ends s s m.files m.files 0).2
  | cons o rest =>
    have handlers : ∀ path, o = .pidFile path → s.exitHandlers = 0 := by
      rintro path rfl
      have once := hP.once
      simp only [Stage.rest, pidPaths, List.filterMap_cons, pidPath, List.length_cons] at once
      omega
    by_cases hpath : pidPath o = none
    · have shorter : pidPaths (o :: rest) = pidPaths rest := by
        rw [pidPaths, List.filterMap_cons, hpath]
        rfl
      cases hround : advance host s m.files (o :: rest) with
      | returns s' files' =>
        obtain ⟨same, rfl⟩ := option_samePid (c := 0) hpath (Or.inl hround)
        simp only [hround, Option.some_inj] at h
        rw [← h]
        exact .moved _ pid _ ⟨s', .options rest⟩ here same
          (hP.move same (by simp [Stage.rest, shorter]) (by simp) (by simp)) (by simp) (by simp)
          (by simp) (by simp)
      | exits s' status files' =>
        obtain ⟨same, rfl⟩ := option_samePid hpath (Or.inr hround)
        simp only [hround] at h
        exact exit_change here hP (by simp) same.handlers (fun _ => same) h
      | stops s' file files' =>
        obtain ⟨path, rfl, -⟩ := option_stops hround
        cases hpath
      | strays => simp [hround] at h
    · cases o with
      | pidFile path =>
        cases hround : advance host s m.files (.pidFile path :: rest) with
        | returns s' files' =>
          obtain ⟨free, rfl, rfl⟩ := (option_pidFile).1 hround
          simp only [hround, Option.some_inj] at h
          rw [← h]
          exact .created _ pid s path rest here free
        | exits s' status files' =>
          obtain ⟨rfl, rfl⟩ := (option_pidFile).2 status hround
          simp only [hround] at h
          refine exit_change here hP (by simp) ?_ (fun more => absurd (handlers path rfl) more) h
          rfl
        | stops s' file files' =>
          have stops : option host s m.files (.pidFile path) = .stops s' file files' := hround
          obtain ⟨own, hown, -, there, rfl, rfl⟩ := option_stops stops
          obtain rfl := Opt.pidFile.inj hown
          simp only [hround, Option.some_inj] at h
          rw [← h]
          exact .found _ pid s path rest file here there
        | strays => simp [hround] at h
      | _ => exact absurd rfl hpath

theorem act_change {pid : Nat} {stage : Stage} {a : Act} (here : m.processes pid = some ⟨s, stage⟩)
    (hP : Settled ⟨s, stage⟩) (h : act host m pid s stage a = some m') :
    Change m (.acts pid a) m' := by
  have same : SamePid s s := ⟨rfl, rfl, rfl⟩
  cases a with
  | goOn =>
    cases stage with
    | options options => exact goOn_change here hP h
    | _ => simp [act] at h
  | read =>
    cases stage with
    | reading file =>
      obtain ⟨hfile, handlers⟩ := hP.read file rfl
      rw [← Option.some.inj h]
      refine .moved _ pid _ ⟨s, .stopping (scanInt (m.files.content file))⟩ here same ?_ (by simp)
        (by simp) (by simp) ?_
      · exact ⟨hP.once, fun more => absurd handlers more,
          fun _ unstopped => absurd rfl (unstopped _), by simp⟩
      · rintro t ht
        exact ⟨file, hfile, (Stage.stopping.inj ht).symm⟩
    | _ => simp [act] at h
  | kill =>
    cases stage with
    | stopping target => exact exit_change here hP (by simp) rfl (fun _ => same) h
    | _ => simp [act] at h
  | fail =>
    cases stage with
    | starting => exact exit_change here hP (by simp) rfl (fun _ => same) h
    | _ => simp [act] at h
  | fork child =>
    cases stage with
    | starting =>
      simp only [act] at h
      split_ifs at h with free
      rw [← Option.some.inj h]
      exact .forked _ pid child s here free.2
    | _ => simp [act] at h
  | forkFails =>
    cases stage with
    | starting =>
      simp only [act] at h
      split_ifs at h
      rw [← Option.some.inj h]
      exact .forkFailed pid s here
    | _ => simp [act] at h
  | write =>
    cases stage with
    | starting =>
      simp only [act] at h
      split_ifs at h
      rw [← Option.some.inj h]
      exact .written _ pid s here
    | forked child =>
      rw [← Option.some.inj h]
      exact .detached _ pid s child here
    | _ => simp [act] at h
  | exit =>
    cases stage with
    | serving => exact exit_change here hP (by simp) rfl (fun _ => same) h
    | _ => simp [act] at h
  | die =>
    have gone : m' = m.set pid none := by
      cases stage <;> exact (Option.some.inj h).symm
    rw [gone]
    exact .died pid _ here

theorem step_change {e : Event} (hsettled : ∀ pid P, m.processes pid = some P → Settled P)
    (honce : e.Once) (h : step host m e = some m') : Change m e m' := by
  cases e with
  | spawn pid options =>
    simp only [step] at h
    split_ifs at h with free
    rw [← Option.some.inj h]
    exact .spawned _ pid options free honce
  | acts pid a =>
    obtain ⟨P, here, h⟩ := Option.bind_eq_some_iff.1 h
    exact act_change here (hsettled pid P here) h

end RsServe.PidFiles
