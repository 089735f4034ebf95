import RsServe.PidFiles

/-! Pid files: one owner at a time, what `--stop` signals, and what is left. -/

namespace RsServe.PidFiles
open CString Numerals Options

variable {host : Host} {s s' : Settings} {files files' : Files} {m m' : Machine}

structure Sound (m : Machine) : Prop where
  settled : ∀ pid P, m.processes pid = some P → Settled P
  held : ∀ pid P path file, m.processes pid = some P → P.Owns path file →
    m.files.entry path = some file
  below : ∀ path file, m.files.entry path = some file → file < m.files.next
  single : ∀ pid P pid' P' path path' file, m.processes pid = some P → P.Owns path file →
    m.processes pid' = some P' → P'.Owns path' file → pid = pid'
  written : ∀ pid P path file, m.processes pid = some P → P.Owns path file →
    m.files.content file = [] ∨ P.stage = .serving ∧ m.files.content file = printInt pid
  forked : ∀ pid P child file, m.processes pid = some P → P.stage = .forked child →
    P.settings.pidFile = some file → file < m.files.next ∧
      ∀ q Q path, m.processes q = some Q → Q.Owns path file → (q : ℤ) = child ∧ Q.stage = .serving

theorem processes_set {pid q : Nat} {P : Option Process} {Q : Process} :
    (m.set pid P).processes q = some Q ↔
      (q = pid ∧ P = some Q) ∨ (q ≠ pid ∧ m.processes q = some Q) := by
  by_cases same : q = pid
  · subst same
    simp [Machine.set]
  · simp [Machine.set, same]

theorem owns_of_file {P : Process} {file : Nat} (hP : Settled P)
    (hfile : P.settings.pidFile = some file) (hstage : P.stage = .starting) :
    ∃ path, P.Owns path file := by
  have handlers : P.settings.exitHandlers ≠ 0 := by
    intro none
    have unset := hP.unopened none (by simp [hstage]) (by simp [hstage])
    simp [hfile] at unset
  obtain ⟨path, own, hown, hpath⟩ := hP.opened handlers
  exact ⟨path, handlers, hfile, hpath, by simp [hstage]⟩

theorem Sound.set (h : Sound m) {pid : Nat} {P' : Process} (settled : Settled P')
    (owned : ∀ path file, P'.Owns path file → ∃ P, m.processes pid = some P ∧ P.Owns path file ∧
      (P.stage = .serving → P'.stage = .serving))
    (forked : ∀ child file, P'.stage = .forked child → P'.settings.pidFile = some file →
      file < m.files.next ∧ ∀ q Q path, q ≠ pid → m.processes q = some Q → Q.Owns path file →
        (q : ℤ) = child ∧ Q.stage = .serving) : Sound (m.set pid (some P')) where
  settled := by
    intro q Q hQ
    rcases processes_set.1 hQ with ⟨-, same⟩ | ⟨-, hQ⟩
    · exact Option.some.inj same ▸ settled
    · exact h.settled q Q hQ
  held := by
    intro q Q path file hQ owns
    rcases processes_set.1 hQ with ⟨-, same⟩ | ⟨-, hQ⟩
    · obtain rfl := Option.some.inj same
      obtain ⟨P, hP, owns, -⟩ := owned path file owns
      exact h.held pid P path file hP owns
    · exact h.held q Q path file hQ owns
  below := h.below
  single := by
    intro q Q q' Q' path path' file hQ owns hQ' owns'
    have before : ∀ q Q path, (m.set pid (some P')).processes q = some Q → Q.Owns path file →
        ∃ P, m.processes q = some P ∧ P.Owns path file := by
      intro q Q path hQ owns
      rcases processes_set.1 hQ with ⟨rfl, same⟩ | ⟨-, hQ⟩
      · obtain rfl := Option.some.inj same
        obtain ⟨P, hP, owns, -⟩ := owned path file owns
        exact ⟨P, hP, owns⟩
      · exact ⟨Q, hQ, owns⟩
    obtain ⟨P, hP, hown⟩ := before q Q path hQ owns
    obtain ⟨P₂, hP₂, hown₂⟩ := before q' Q' path' hQ' owns'
    exact h.single q P q' P₂ path path' file hP hown hP₂ hown₂
  written := by
    intro q Q path file hQ owns
    rcases processes_set.1 hQ with ⟨rfl, same⟩ | ⟨-, hQ⟩
    · obtain rfl := Option.some.inj same
      obtain ⟨P, hP, owns, stays⟩ := owned path file owns
      exact (h.written q P path file hP owns).imp_right fun wrote => ⟨stays wrote.1, wrote.2⟩
    · exact h.written q Q path file hQ owns
  forked := by
    intro q Q child file hQ hstage hfile
    have others : ∀ child, (∀ q Q path, q ≠ pid → m.processes q = some Q → Q.Owns path file →
        (q : ℤ) = child ∧ Q.stage = .serving) →
        (∀ path, P'.Owns path file → (pid : ℤ) = child ∧ P'.stage = .serving) →
        ∀ q Q path, (m.set pid (some P')).processes q = some Q → Q.Owns path file →
          (q : ℤ) = child ∧ Q.stage = .serving := by
      intro child others own q Q path hQ owns
      rcases processes_set.1 hQ with ⟨rfl, same⟩ | ⟨apart, hQ⟩
      · obtain rfl := Option.some.inj same
        exact own path owns
      · exact others q Q path apart hQ owns
    rcases processes_set.1 hQ with ⟨rfl, same⟩ | ⟨-, hQ⟩
    · obtain rfl := Option.some.inj same
      obtain ⟨below, owners⟩ := forked child file hstage hfile
      exact ⟨below, others child owners fun path owns => absurd hstage (owns.unforked child)⟩
    · obtain ⟨below, owners⟩ := h.forked q Q child file hQ hstage hfile
      refine ⟨below, others child (fun q Q path _ => owners q Q path) fun path owns => ?_⟩
      obtain ⟨P, hP, owns, stays⟩ := owned path file owns
      exact (owners pid P path hP owns).imp_right stays

theorem Sound.gone (h : Sound m) (pid : Nat) : Sound (m.set pid none) := by
  have before : ∀ {q Q}, (m.set pid none).processes q = some Q → m.processes q = some Q := by
    intro q Q hQ
    rcases processes_set.1 hQ with ⟨-, same⟩ | ⟨-, hQ⟩
    · cases same
    · exact hQ
  exact {
    settled := fun q Q hQ => h.settled q Q (before hQ)
    held := fun q Q path file hQ => h.held q Q path file (before hQ)
    below := h.below
    single := fun q Q q' Q' path path' file hQ owns hQ' =>
      h.single q Q q' Q' path path' file (before hQ) owns (before hQ')
    written := fun q Q path file hQ => h.written q Q path file (before hQ)
    forked := fun q Q child file hQ hstage hfile =>
      ⟨(h.forked q Q child file (before hQ) hstage hfile).1, fun q' Q' path hQ' =>
        (h.forked q Q child file (before hQ) hstage hfile).2 q' Q' path (before hQ')⟩ }

theorem Sound.unlink (h : Sound m) {path : Bytes}
    (free : ∀ q Q file, m.processes q = some Q → ¬ Q.Owns path file) :
    Sound { m with files := unlink m.files path } where
  settled := h.settled
  held := by
    intro q Q path' file hQ owns
    have apart : path' ≠ path := by
      rintro rfl
      exact free q Q file hQ owns
    simp only [PidFiles.unlink, Function.update_of_ne apart]
    exact h.held q Q path' file hQ owns
  below := by
    intro path' file there
    by_cases same : path' = path
    · simp [PidFiles.unlink, same] at there
    · exact h.below path' file (by simpa [PidFiles.unlink, same] using there)
  single := h.single
  written := h.written
  forked := h.forked

theorem Sound.write (h : Sound m) {file : Nat} {text : Bytes}
    (owner : ∀ q Q path, m.processes q = some Q → Q.Owns path file →
      Q.stage = .serving ∧ text = printInt q) :
    Sound { m with files := write m.files file text } where
  settled := h.settled
  held := h.held
  below := h.below
  single := h.single
  written := by
    intro q Q path file' hQ owns
    by_cases same : file' = file
    · subst same
      obtain ⟨serves, htext⟩ := owner q Q path hQ owns
      exact Or.inr ⟨serves, by simp only [PidFiles.write, Function.update_self, htext]⟩
    · simp only [PidFiles.write, Function.update_of_ne same]
      exact h.written q Q path file' hQ owns
  forked := h.forked

theorem Sound.add (h : Sound m) {path : Bytes} (free : m.files.entry path = none) :
    Sound { m with files := m.files.add path } where
  settled := h.settled
  held := by
    intro q Q path' file hQ owns
    have there := h.held q Q path' file hQ owns
    have apart : path' ≠ path := by
      rintro rfl
      simp [free] at there
    simp only [Files.add, Function.update_of_ne apart]
    exact there
  below := by
    intro path' file there
    by_cases same : path' = path
    · subst same
      simp only [Files.add, Function.update_self, Option.some_inj] at there ⊢
      omega
    · have below := h.below path' file (by simpa [Files.add, same] using there)
      simp only [Files.add]
      omega
  single := h.single
  written := by
    intro q Q path' file hQ owns
    have below := h.below path' file (h.held q Q path' file hQ owns)
    simp only [Files.add, Function.update_of_ne (show file ≠ m.files.next by omega)]
    exact h.written q Q path' file hQ owns
  forked := by
    intro q Q child file hQ hstage hfile
    obtain ⟨below, owners⟩ := h.forked q Q child file hQ hstage hfile
    exact ⟨Nat.lt_succ_of_lt below, owners⟩

theorem Sound.own (h : Sound m) {pid : Nat} {P : Process} {path : Bytes} {file : Nat}
    (settled : Settled P) (owns : P.Owns path file) (there : m.files.entry path = some file)
    (empty : m.files.content file = [])
    (free : ∀ q Q path', q ≠ pid → m.processes q = some Q → ¬ Q.Owns path' file)
    (children : ∀ q Q child, q ≠ pid → m.processes q = some Q → Q.stage = .forked child →
      Q.settings.pidFile = some file → (pid : ℤ) = child ∧ P.stage = .serving) :
    Sound (m.set pid (some P)) := by
  have only : ∀ path' file', P.Owns path' file' → path' = path ∧ file' = file := by
    intro path' file' owns'
    exact ⟨Option.some.inj (owns'.path.symm.trans owns.path),
      Option.some.inj (owns'.file.symm.trans owns.file)⟩
  exact {
    settled := by
      intro q Q hQ
      rcases processes_set.1 hQ with ⟨-, same⟩ | ⟨-, hQ⟩
      · exact Option.some.inj same ▸ settled
      · exact h.settled q Q hQ
    held := by
      intro q Q path' file' hQ owns'
      rcases processes_set.1 hQ with ⟨-, same⟩ | ⟨-, hQ⟩
      · obtain rfl := Option.some.inj same
        obtain ⟨rfl, rfl⟩ := only path' file' owns'
        exact there
      · exact h.held q Q path' file' hQ owns'
    below := h.below
    single := by
      intro q Q q' Q' path₁ path₂ file' hQ owns₁ hQ' owns₂
      rcases processes_set.1 hQ with ⟨here, same⟩ | ⟨apart, before⟩ <;>
        rcases processes_set.1 hQ' with ⟨here', same'⟩ | ⟨apart', before'⟩
      · rw [here, here']
      · obtain rfl := Option.some.inj same
        obtain ⟨-, rfl⟩ := only path₁ file' owns₁
        exact absurd owns₂ (free q' Q' path₂ apart' before')
      · obtain rfl := Option.some.inj same'
        obtain ⟨-, rfl⟩ := only path₂ file' owns₂
        exact absurd owns₁ (free q Q path₁ apart before)
      · exact h.single q Q q' Q' path₁ path₂ file' before owns₁ before' owns₂
    written := by
      intro q Q path' file' hQ owns'
      rcases processes_set.1 hQ with ⟨rfl, same⟩ | ⟨-, hQ⟩
      · obtain rfl := Option.some.inj same
        obtain ⟨-, rfl⟩ := only path' file' owns'
        exact Or.inl empty
      · exact h.written q Q path' file' hQ owns'
    forked := by
      intro q Q child file' hQ hstage hfile
      rcases processes_set.1 hQ with ⟨-, same⟩ | ⟨apart, before⟩
      · obtain rfl := Option.some.inj same
        exact absurd hstage (owns.unforked child)
      · obtain ⟨below, owners⟩ := h.forked q Q child file' before hstage hfile
        refine ⟨below, fun q' Q' path' hQ' owns' => ?_⟩
        rcases processes_set.1 hQ' with ⟨rfl, same⟩ | ⟨-, before'⟩
        · obtain rfl := Option.some.inj same
          obtain ⟨-, rfl⟩ := only path' file' owns'
          exact children q Q child apart before hstage hfile
        · exact owners q' Q' path' before' owns' }

theorem Settled.first {path : Bytes} {rest : List Opt}
    (h : Settled ⟨s, .options (.pidFile path :: rest)⟩) :
    s.exitHandlers = 0 ∧ (pidPaths rest).length = 0 := by
  have once := h.once
  simp only [Stage.rest, pidPaths, List.filterMap_cons, pidPath, List.length_cons] at once ⊢
  omega

theorem Settled.leave {stage : Stage} (h : Settled ⟨s, .starting⟩) (rest : stage.rest = [])
    (still : ∀ file, stage ≠ .reading file) : Settled ⟨s, stage⟩ :=
  h.move ⟨rfl, rfl, rfl⟩ (by simp [rest, pidPaths]) still (by simp)

theorem Sound.fork (h : Sound m) {pid child : Nat} (here : m.processes pid = some ⟨s, .starting⟩) :
    Sound ((m.set pid (some ⟨s, .forked child⟩)).set child (some ⟨s, .serving⟩)) := by
  have settled := h.settled pid _ here
  have alone : ∀ file, s.pidFile = some file → ∀ q Q path, q ≠ pid → m.processes q = some Q →
      ¬ Q.Owns path file := by
    intro file hfile q Q path apart hQ owns
    obtain ⟨path', owns'⟩ := owns_of_file settled hfile rfl
    exact apart (h.single q Q pid _ path path' file hQ owns here owns')
  have parent : Sound (m.set pid (some ⟨s, .forked child⟩)) := by
    refine h.set (settled.leave rfl (by simp))
      (fun path file owns => absurd rfl (owns.unforked _)) ?_
    intro own file hown hfile
    obtain ⟨path', owns'⟩ := owns_of_file settled hfile rfl
    exact ⟨h.below path' file (h.held pid _ path' file here owns'), fun q Q path apart hQ owns =>
      absurd owns (alone file hfile q Q path apart hQ)⟩
  cases hfile : s.pidFile with
  | none =>
    refine parent.set (settled.leave rfl (by simp)) (fun path file owns => ?_)
      fun own file hown => by cases hown
    have set := owns.file
    simp [hfile] at set
  | some file =>
    obtain ⟨path, owns⟩ := owns_of_file settled hfile rfl
    refine parent.own (settled.leave rfl (by simp)) ⟨owns.handlers, owns.file, owns.path, by simp⟩
      (h.held pid _ path file here owns) ?_ ?_ ?_
    · rcases h.written pid _ path file here owns with empty | ⟨serves, -⟩
      · exact empty
      · cases serves
    · intro q Q path' apart hQ
      rcases processes_set.1 hQ with ⟨-, same⟩ | ⟨apart', before⟩
      · obtain rfl := Option.some.inj same
        exact fun owns' => absurd rfl (owns'.unforked _)
      · exact alone file hfile q Q path' apart' before
    · intro q Q own apart hQ hstage hown
      rcases processes_set.1 hQ with ⟨-, same⟩ | ⟨apart', before⟩
      · obtain rfl := Option.some.inj same
        exact ⟨Stage.forked.inj hstage, rfl⟩
      · have serves := ((h.forked q Q own file before hstage hown).2 pid _ path here owns).2
        cases serves

theorem sound_change {e : Event} (h : Sound m) (hchange : Change m e m') : Sound m' := by
  cases hchange with
  | spawned e pid options free once =>
    exact h.set (settled_initial once) (fun path file owns => absurd rfl owns.handlers)
      fun child file hstage => by cases hstage
  | moved e pid P P' here same settled unforked unserved unforked' target =>
    refine h.set settled (fun path file owns => ⟨P, here, ?_, fun serves => absurd serves unserved⟩)
      fun child file hstage => absurd hstage (unforked' child)
    exact ⟨same.handlers ▸ owns.handlers, same.file ▸ owns.file, same.path ▸ owns.path, unforked⟩
  | created e pid s path rest here free =>
    obtain ⟨handlers, once⟩ := (h.settled pid _ here).first
    refine (h.add free).own ?_ ⟨by simp, rfl, rfl, by simp⟩ ?_ ?_ ?_ ?_
    · exact ⟨by simp [Stage.rest, once, handlers], fun _ => ⟨path, m.files.next, rfl, rfl⟩, by simp,
        by simp⟩
    · simp [Files.add]
    · simp [Files.add]
    · intro q Q path' apart hQ owns
      have below := h.below path' _ (h.held q Q path' _ hQ owns)
      omega
    · intro q Q child apart hQ hstage hfile
      have below := (h.forked q Q child _ hQ hstage hfile).1
      omega
  | found e pid s path rest file here there =>
    have handlers := (h.settled pid _ here).first.1
    refine h.set ⟨?_, ?_, ?_, ?_⟩ ?_ ?_
    · simp [handlers, Stage.rest, pidPaths]
    · exact fun more => absurd handlers more
    · exact fun _ _ unread => absurd rfl (unread file)
    · rintro file' hfile'
      obtain rfl := Stage.reading.inj hfile'
      exact ⟨rfl, handlers⟩
    · exact fun path' file' owns => absurd handlers owns.handlers
    · exact fun child file' hstage => by cases hstage
  | left pid a P files here unlinked =>
    rcases unlinked with ⟨path, file, owns, rfl⟩ | ⟨-, rfl⟩
    · refine (h.gone pid).unlink fun q Q file' hQ owns' => ?_
      rcases processes_set.1 hQ with ⟨-, same⟩ | ⟨apart, before⟩
      · cases same
      · have there := h.held q Q path file' before owns'
        rw [h.held pid P path file here owns, Option.some_inj] at there
        exact apart (h.single q Q pid P path path file' before owns' here (there ▸ owns))
    · exact h.gone pid
  | forked e pid child s here free => exact h.fork here
  | forkFailed pid s here =>
    have settled := h.settled pid _ here
    refine h.set (settled.leave rfl (by simp))
      (fun path file owns => absurd rfl (owns.unforked _)) ?_
    intro own file hown hfile
    obtain ⟨path', owns'⟩ := owns_of_file settled hfile rfl
    exact ⟨h.below path' file (h.held pid _ path' file here owns'), fun q Q path apart hQ owns =>
      absurd (h.single q Q pid _ path path' file hQ owns here owns') apart⟩
  | written e pid s here =>
    have settled := h.settled pid _ here
    have serving : Sound (m.set pid (some ⟨s, .serving⟩)) :=
      h.set (settled.leave rfl (by simp)) (fun path file owns =>
        ⟨_, here, ⟨owns.handlers, owns.file, owns.path, by simp⟩, fun _ => rfl⟩)
        fun child file hstage => by cases hstage
    cases hfile : s.pidFile with
    | none => exact serving
    | some file =>
      obtain ⟨path', owns'⟩ := owns_of_file settled hfile rfl
      refine serving.write fun q Q path hQ owns => ?_
      rcases processes_set.1 hQ with ⟨rfl, same⟩ | ⟨apart, before⟩
      · obtain rfl := Option.some.inj same
        exact ⟨rfl, rfl⟩
      · exact absurd (h.single q Q pid _ path path' file before owns here owns') apart
  | detached e pid s child here =>
    cases hfile : s.pidFile with
    | none => exact h.gone pid
    | some file =>
      refine (h.gone pid).write fun q Q path hQ owns => ?_
      rcases processes_set.1 hQ with ⟨-, same⟩ | ⟨-, before⟩
      · cases same
      · obtain ⟨same, serves⟩ := (h.forked pid _ child file here rfl hfile).2 q Q path before owns
        exact ⟨serves, by rw [same]⟩
  | died pid P here => exact h.gone pid

theorem sound_start : Sound start where
  settled := fun pid P here => by cases here
  held := fun pid P path file here => by cases here
  below := fun path file there => by cases there
  single := fun pid P pid' P' path path' file here => by cases here
  written := fun pid P path file here => by cases here
  forked := fun pid P child file here => by cases here

theorem run_concat (events : List Event) (e : Event) :
    run host start (events ++ [e]) = (run host start events).bind fun m => step host m e := by
  simp [run]

theorem sound_run {events : List Event} (honce : ∀ e ∈ events, e.Once)
    (hrun : run host start events = some m) : Sound m := by
  induction events using List.reverseRecOn generalizing m with
  | nil => exact Option.some.inj hrun ▸ sound_start
  | append_singleton events e ih =>
    rw [run_concat, Option.bind_eq_some_iff] at hrun
    obtain ⟨before, hbefore, hstep⟩ := hrun
    have sound := ih (fun e he => honce e (by simp [he])) hbefore
    exact sound_change sound (step_change sound.settled (honce e (by simp)) hstep)

theorem unlink_entry (files : Files) {path path' : Bytes} (apart : path' ≠ path) :
    (unlink files path).entry path' = files.entry path' := Function.update_of_ne apart _ _

theorem Sound.stays (h : Sound m) {e : Event} (hchange : Change m e m') {pid : Nat} {P : Process}
    {path : Bytes} {file : Nat} (here : m.processes pid = some P) (owns : P.Owns path file) :
    m'.files.entry path = some file ∨ ∃ a, e = .acts pid a ∧ m'.processes pid = none := by
  have there := h.held pid P path file here owns
  cases hchange with
  | created e q s path' rest hq free =>
    have apart : path ≠ path' := by
      rintro rfl
      simp [free] at there
    exact Or.inl (by simp only [Files.add, Function.update_of_ne apart, there])
  | left q a Q files hq unlinked =>
    rcases unlinked with ⟨path', file', owns', rfl⟩ | ⟨-, rfl⟩
    · by_cases same : path = path'
      · subst same
        have there' := h.held q Q path file' hq owns'
        rw [there, Option.some_inj] at there'
        have own := h.single pid P q Q path path file here owns hq (there' ▸ owns')
        exact Or.inr ⟨a, by rw [own], by simp [Machine.set, own]⟩
      · exact Or.inl (by simp only [unlink_entry _ same, there])
    · exact Or.inl there
  | written e q s hq => cases hfile : s.pidFile <;> exact Or.inl there
  | detached e q s child hq => cases hfile : s.pidFile <;> exact Or.inl there
  | _ => exact Or.inl there

/-- A pid file has one owner at a time. While it has one, the file is where it was created and is
empty or has the owner's id, no other process can create one at its path, and nobody but the owner
removes it. -/
theorem pid_file_owned {events : List Event} (honce : ∀ e ∈ events, e.Once)
    (hrun : run host start events = some m) {pid : Nat} {P : Process} {path : Bytes} {file : Nat}
    (here : m.processes pid = some P) (owns : P.Owns path file) :
    m.files.entry path = some file ∧
      (m.files.content file = [] ∨ P.stage = .serving ∧ m.files.content file = printInt pid) ∧
      (∀ pid' P' file', m.processes pid' = some P' → P'.Owns path file' → pid' = pid) ∧
      m.files.create host path = none ∧
      ∀ e m', e.Once → step host m e = some m' →
        m'.files.entry path = some file ∨ ∃ a, e = .acts pid a ∧ m'.processes pid = none := by
  have sound := sound_run honce hrun
  have there := sound.held pid P path file here owns
  refine ⟨there, sound.written pid P path file here owns, ?_, ?_, ?_⟩
  · intro pid' P' file' here' owns'
    have there' := sound.held pid' P' path file' here' owns'
    rw [there, Option.some_inj] at there'
    exact sound.single pid' P' pid P path path file here' (there' ▸ owns') here owns
  · rw [Files.create, if_neg (by simp [there])]
  · intro e m' hone hstep
    exact sound.stays (step_change sound.settled hone hstep) here owns

section Sample

def anyHost : Host := ⟨fun _ => true, fun _ => true, fun _ => true⟩

def serverOptions : List Opt := [.pidFile (str "pid"), .detach]

def detachEvents : List Event :=
  [.spawn 1 serverOptions, .acts 1 .goOn, .acts 1 .goOn, .acts 1 .goOn, .acts 1 (.fork 2),
    .acts 1 .write]

def stopEvents : List Event :=
  detachEvents ++
    [.spawn 3 [.stop, .pidFile (str "pid")], .acts 3 .goOn, .acts 3 .goOn, .acts 3 .read]

theorem once_stopEvents : ∀ e ∈ stopEvents, e.Once := by
  simp [stopEvents, detachEvents, Event.Once, serverOptions, pidPaths, pidPath, List.filterMap_cons]

theorem once_detachEvents : ∀ e ∈ detachEvents, e.Once := fun e he =>
  once_stopEvents e (List.mem_append_left _ he)

theorem pid_file_owned_sample : ∃ m P, run anyHost start detachEvents = some m ∧
    m.processes 2 = some P ∧ m.files.entry (str "pid") = some 0 ∧
      (m.files.content 0 = [] ∨ P.stage = .serving ∧ m.files.content 0 = printInt (2 : Nat)) ∧
      (∀ pid' P' file', m.processes pid' = some P' → P'.Owns (str "pid") file' → pid' = 2) ∧
      m.files.create anyHost (str "pid") = none ∧
      ∀ e m', e.Once → step anyHost m e = some m' →
        m'.files.entry (str "pid") = some 0 ∨ ∃ a, e = .acts 2 a ∧ m'.processes 2 = none := by
  have serves : (run anyHost start detachEvents).bind (fun m => m.processes 2) =
      some ⟨ready start.files serverOptions, .serving⟩ := by decide +kernel
  obtain ⟨m, hrun, here⟩ := Option.bind_eq_some_iff.1 serves
  exact ⟨m, _, hrun, here, pid_file_owned once_detachEvents hrun here
    ⟨by decide +kernel, by decide +kernel, by decide +kernel, by simp⟩⟩

end Sample

def Owned (host : Host) (past : List Event) (pid : Nat) (file : Nat) : Prop :=
  ∃ front m P path, front <+: past ∧ run host start front = some m ∧ m.processes pid = some P ∧
    P.Owns path file

/-- An id that a file may be said to have: that of an owner, or what a failing fork returned -/
def Named (host : Host) (past : List Event) (id : ℤ) (file : Nat) : Prop :=
  (∃ pid : Nat, id = pid ∧ Owned host past pid file) ∨
    id = -1 ∧ ∃ pid, .acts pid .forkFails ∈ past

theorem Named.later {past : List Event} {id : ℤ} {file : Nat} (h : Named host past id file)
    (e : Event) : Named host (past ++ [e]) id file := by
  rcases h with ⟨pid, same, front, m, P, path, hfront, owned⟩ | ⟨same, pid, mem⟩
  · exact Or.inl ⟨pid, same, front, m, P, path, hfront.trans (List.prefix_append _ _), owned⟩
  · exact Or.inr ⟨same, pid, List.mem_append_left _ mem⟩

structure Remembered (host : Host) (past : List Event) (m : Machine) : Prop where
  texts : ∀ file, m.files.content file = [] ∨
    ∃ id, m.files.content file = printInt id ∧ Named host past id file
  children : ∀ pid P child file, m.processes pid = some P → P.stage = .forked child →
    P.settings.pidFile = some file → Named host past child file
  targets : ∀ pid P target, m.processes pid = some P → P.stage = .stopping (some target) →
    ∃ file, P.settings.pidFile = some file ∧ Named host past target file

theorem Remembered.texts_set {past : List Event} {pid : Nat} {P' : Option Process} {files : Files}
    (h : Remembered host past m)
    (texts : ∀ file, files.content file = [] ∨
      ∃ id, files.content file = printInt id ∧ Named host past id file)
    (children : ∀ P child file, P' = some P → P.stage = .forked child →
      P.settings.pidFile = some file → Named host past child file)
    (targets : ∀ P target, P' = some P → P.stage = .stopping (some target) →
      ∃ file, P.settings.pidFile = some file ∧ Named host past target file) :
    Remembered host past { m.set pid P' with files := files } where
  texts := texts
  children := by
    intro q Q child file hQ hstage hfile
    rcases processes_set.1 hQ with ⟨-, same⟩ | ⟨-, before⟩
    · exact children Q child file same hstage hfile
    · exact h.children q Q child file before hstage hfile
  targets := by
    intro q Q target hQ hstage
    rcases processes_set.1 hQ with ⟨-, same⟩ | ⟨-, before⟩
    · exact targets Q target same hstage
    · exact h.targets q Q target before hstage

theorem Remembered.texts_write {past : List Event} (h : Remembered host past m) {own : Option Nat}
    {id : ℤ} (named : ∀ file, own = some file → Named host past id file) (file : Nat) :
    (own.elim m.files fun own => write m.files own (printInt id)).content file = [] ∨
      ∃ id', (own.elim m.files fun own => write m.files own (printInt id)).content file =
        printInt id' ∧ Named host past id' file := by
  cases own with
  | none => exact h.texts file
  | some own =>
    by_cases same : file = own
    · subst same
      exact Or.inr ⟨id, by simp [write], named file rfl⟩
    · simpa only [Option.elim_some, write, Function.update_of_ne same] using h.texts file

theorem Remembered.later {past : List Event} (h : Remembered host past m) (e : Event) :
    Remembered host (past ++ [e]) m where
  texts := fun file => (h.texts file).imp_right fun ⟨id, text, named⟩ => ⟨id, text, named.later e⟩
  children := fun pid P child file here hstage hfile =>
    (h.children pid P child file here hstage hfile).later e
  targets := by
    intro pid P target here hstage
    obtain ⟨file, hfile, named⟩ := h.targets pid P target here hstage
    exact ⟨file, hfile, named.later e⟩

theorem remembered_change {past : List Event} {e : Event} (sound : Sound m)
    (before : Remembered host past m) (hrun : run host start past = some m)
    (hrun' : run host start (past ++ [e]) = some m') (hchange : Change m e m') :
    Remembered host (past ++ [e]) m' := by
  have h := before.later e
  have owned : ∀ pid P path file, m.processes pid = some P → P.Owns path file →
      Named host (past ++ [e]) pid file := fun pid P path file here owns =>
    Or.inl ⟨pid, rfl, past, m, P, path, List.prefix_append _ _, hrun, here, owns⟩
  cases hchange with
  | spawned _ pid options free once =>
    exact h.texts_set h.texts (by rintro _ child file ⟨⟩ ⟨⟩) (by rintro _ target ⟨⟩ ⟨⟩)
  | moved _ pid P P' here same settled unforked unserved unforked' target =>
    refine h.texts_set h.texts ?_ ?_
    · rintro _ child file ⟨⟩ hstage
      exact absurd hstage (unforked' child)
    · rintro _ t ⟨⟩ hstage
      obtain ⟨file, hfile, scanned⟩ := target _ hstage
      refine ⟨file, same.file ▸ hfile, ?_⟩
      rcases h.texts file with empty | ⟨id, text, named⟩
      · simp [empty, scanInt, scanDigits] at scanned
      · rw [text, scanInt_printInt, Option.some_inj] at scanned
        exact scanned ▸ named
  | created _ pid s path rest here free =>
    refine h.texts_set ?_ (by rintro _ child file ⟨⟩ ⟨⟩) (by rintro _ target ⟨⟩ ⟨⟩)
    intro file
    by_cases new : file = m.files.next
    · exact Or.inl (by simp [Files.add, new])
    · simpa only [Files.add, Function.update_of_ne new] using h.texts file
  | found _ pid s path rest file here there =>
    exact h.texts_set h.texts (by rintro _ child file ⟨⟩ ⟨⟩) (by rintro _ target ⟨⟩ ⟨⟩)
  | left pid a P files here unlinked =>
    refine h.texts_set ?_ (by rintro _ child file ⟨⟩) (by rintro _ target ⟨⟩)
    rcases unlinked with ⟨path, file, -, rfl⟩ | ⟨-, rfl⟩ <;> exact h.texts
  | forked _ pid child s here free =>
    have parent : Remembered host (past ++ [e]) (m.set pid (some ⟨s, .forked child⟩)) := by
      refine h.texts_set h.texts ?_ (by rintro _ target ⟨⟩ ⟨⟩)
      rintro _ own file ⟨⟩ hstage hfile
      obtain ⟨path, owns⟩ := owns_of_file (sound.settled pid _ here) hfile rfl
      refine Or.inl ⟨child, (Stage.forked.inj hstage).symm, _, _, ⟨s, .serving⟩, path,
        List.prefix_rfl, hrun', by simp [Machine.set], ?_⟩
      exact ⟨owns.handlers, owns.file, owns.path, by simp⟩
    exact parent.texts_set h.texts (by rintro _ own file ⟨⟩ ⟨⟩) (by rintro _ target ⟨⟩ ⟨⟩)
  | forkFailed pid s here =>
    refine h.texts_set h.texts ?_ (by rintro _ target ⟨⟩ ⟨⟩)
    rintro _ child file ⟨⟩ hstage -
    exact Or.inr ⟨(Stage.forked.inj hstage).symm, pid, by simp⟩
  | written _ pid s here =>
    refine h.texts_set (h.texts_write fun file hfile => ?_) (by rintro _ child file ⟨⟩ ⟨⟩)
      (by rintro _ target ⟨⟩ ⟨⟩)
    obtain ⟨path, owns⟩ := owns_of_file (sound.settled pid _ here) hfile rfl
    exact owned pid _ path file here owns
  | detached _ pid s child here =>
    exact h.texts_set (h.texts_write fun file => h.children pid _ child file here rfl)
      (by rintro _ child file ⟨⟩) (by rintro _ target ⟨⟩)
  | died pid P here =>
    exact h.texts_set h.texts (by rintro _ child file ⟨⟩) (by rintro _ target ⟨⟩)

theorem remembered_run {events : List Event} (honce : ∀ e ∈ events, e.Once)
    (hrun : run host start events = some m) : Remembered host events m := by
  induction events using List.reverseRecOn generalizing m with
  | nil =>
    rw [← Option.some.inj hrun]
    exact ⟨fun _ => Or.inl rfl, (by rintro pid P child file ⟨⟩), (by rintro pid P target ⟨⟩)⟩
  | append_singleton events e ih =>
    have hall := hrun
    rw [run_concat, Option.bind_eq_some_iff] at hrun
    obtain ⟨before, hbefore, hstep⟩ := hrun
    have honce' : ∀ e ∈ events, e.Once := fun e he => honce e (by simp [he])
    have sound := sound_run honce' hbefore
    exact remembered_change sound (ih honce' hbefore) hbefore hall
      (step_change sound.settled (honce e (by simp)) hstep)

/-- What `--stop` has read from a file is the id of a process that owned that very file, unless a
fork failed; and while the file has an owner, it is the owner's id that is read. -/
theorem stop_signals_owner {events : List Event} (honce : ∀ e ∈ events, e.Once)
    (hrun : run host start events = some m) {pid : Nat} {P : Process}
    (here : m.processes pid = some P) :
    (∀ target, P.stage = .stopping (some target) → ∃ file, P.settings.pidFile = some file ∧
      ((∃ owner : Nat, target = owner ∧ Owned host events owner file) ∨
        target = -1 ∧ ∃ pid, .acts pid .forkFails ∈ events)) ∧
    ∀ file, P.stage = .reading file → ∃ target, 
      step host m (.acts pid .read) = some (m.set pid (some ⟨P.settings, .stopping target⟩)) ∧
      ∀ owner Q path, m.processes owner = some Q → Q.Owns path file →
        target = none ∨ target = some (owner : ℤ) := by
  constructor
  · intro target hstage
    exact (remembered_run honce hrun).targets pid P target here hstage
  · intro file hstage
    refine ⟨scanInt (m.files.content file), by simp [step, here, hstage, act], ?_⟩
    intro owner Q path hQ owns
    rcases (sound_run honce hrun).written owner Q path file hQ owns with empty | ⟨-, text⟩
    · exact Or.inl (by rw [empty]; rfl)
    · exact Or.inr (by rw [text, scanInt_printInt])

theorem stop_signals_owner_sample : ∃ m P, run anyHost start stopEvents = some m ∧
    m.processes 3 = some P ∧ P.stage = .stopping (some 2) ∧
    (∀ target, P.stage = .stopping (some target) → ∃ file, P.settings.pidFile = some file ∧
      ((∃ owner : Nat, target = owner ∧ Owned anyHost stopEvents owner file) ∨
        target = -1 ∧ ∃ pid, .acts pid .forkFails ∈ stopEvents)) ∧
    ∀ file, P.stage = .reading file → ∃ target,
      step anyHost m (.acts 3 .read) = some (m.set 3 (some ⟨P.settings, .stopping target⟩)) ∧
      ∀ owner Q path, m.processes owner = some Q → Q.Owns path file →
        target = none ∨ target = some (owner : ℤ) := by
  have read : ((run anyHost start stopEvents).bind fun m => m.processes 3).map Process.stage =
      some (.stopping (some 2)) := by decide +kernel
  obtain ⟨P, here, hstage⟩ := Option.map_eq_some_iff.1 read
  obtain ⟨m, hrun, here⟩ := Option.bind_eq_some_iff.1 here
  exact ⟨m, P, hrun, here, hstage, stop_signals_owner once_stopEvents hrun here⟩

/-- Every process goes through its exit handlers, and every fork succeeds. -/
def Event.Clean (e : Event) : Prop := ∀ pid, e ≠ .acts pid .die ∧ e ≠ .acts pid .forkFails

theorem owner_change {e : Event} (sound : Sound m) (hclean : e.Clean) (hchange : Change m e m')
    (h : ∀ path file, m.files.entry path = some file → ∃ pid P, m.processes pid = some P ∧
      P.Owns path file) {path : Bytes} {file : Nat} (there : m'.files.entry path = some file) :
    ∃ pid P, m'.processes pid = some P ∧ P.Owns path file := by
  have keep : ∀ {pid : Nat} {P' : Option Process}, m.files.entry path = some file →
      (∀ P, m.processes pid = some P → P.Owns path file → ∃ Q, P' = some Q ∧ Q.Owns path file) →
      ∃ q Q, (m.set pid P').processes q = some Q ∧ Q.Owns path file := by
    intro pid P' there own
    obtain ⟨q, Q, hQ, owns⟩ := h path file there
    by_cases same : q = pid
    · subst same
      obtain ⟨Q', hQ', owns'⟩ := own Q hQ owns
      exact ⟨q, Q', processes_set.2 (Or.inl ⟨rfl, hQ'⟩), owns'⟩
    · exact ⟨q, Q, processes_set.2 (Or.inr ⟨same, hQ⟩), owns⟩
  cases hchange with
  | spawned _ pid options free once =>
    exact keep there fun P here => by simp [free] at here
  | moved _ pid P P' here same settled unforked unserved unforked' target =>
    refine keep there fun Q hQ owns => ⟨P', rfl, ?_⟩
    obtain rfl := Option.some.inj (here.symm.trans hQ)
    exact ⟨same.handlers ▸ owns.handlers, same.file ▸ owns.file, same.path ▸ owns.path, unforked'⟩
  | created _ pid s path' rest here free =>
    by_cases same : path = path'
    · subst same
      simp only [Files.add, Function.update_self, Option.some_inj] at there
      exact ⟨pid, _, processes_set.2 (Or.inl ⟨rfl, rfl⟩), by simp, by simp [there], rfl, by simp⟩
    · simp only [Files.add, Function.update_of_ne same] at there
      refine keep there fun Q hQ owns => ?_
      obtain rfl := Option.some.inj (here.symm.trans hQ)
      exact absurd (sound.settled pid _ here).first.1 owns.handlers
  | found _ pid s path' rest own here found =>
    refine keep there fun Q hQ owns => ?_
    obtain rfl := Option.some.inj (here.symm.trans hQ)
    exact absurd (sound.settled pid _ here).first.1 owns.handlers
  | left pid a P files here unlinked =>
    rcases unlinked with ⟨path', file', owns', rfl⟩ | ⟨none, rfl⟩
    · have apart : path ≠ path' := by
        rintro rfl
        simp [unlink] at there
      simp only [unlink_entry _ apart] at there
      refine keep there fun Q hQ owns => ?_
      obtain rfl := Option.some.inj (here.symm.trans hQ)
      exact absurd (Option.some.inj (owns.path.symm.trans owns'.path)) apart
    · refine keep there fun Q hQ owns => ?_
      obtain rfl := Option.some.inj (here.symm.trans hQ)
      exact absurd none owns.handlers
  | forked _ pid child s here free =>
    obtain ⟨q, Q, hQ, owns⟩ := h path file there
    by_cases same : q = pid
    · subst same
      obtain rfl := Option.some.inj (here.symm.trans hQ)
      exact ⟨child, ⟨s, .serving⟩, processes_set.2 (Or.inl ⟨rfl, rfl⟩), owns.handlers, owns.file,
        owns.path, by simp⟩
    · have apart : q ≠ child := by
        rintro rfl
        simp [free] at hQ
      exact ⟨q, Q, processes_set.2 (Or.inr ⟨apart, processes_set.2 (Or.inr ⟨same, hQ⟩)⟩), owns⟩
  | forkFailed pid s here => exact absurd rfl (hclean pid).2
  | written _ pid s here =>
    have there : m.files.entry path = some file := by
      cases hfile : s.pidFile <;> simpa [hfile, write] using there
    refine keep there fun Q hQ owns => ?_
    obtain rfl := Option.some.inj (here.symm.trans hQ)
    exact ⟨_, rfl, owns.handlers, owns.file, owns.path, by simp⟩
  | detached _ pid s child here =>
    have there : m.files.entry path = some file := by
      cases hfile : s.pidFile <;> simpa [hfile, write] using there
    refine keep there fun Q hQ owns => ?_
    obtain rfl := Option.some.inj (here.symm.trans hQ)
    exact absurd rfl (owns.unforked child)
  | died pid P here => exact absurd rfl (hclean pid).1

theorem owner_run {events : List Event} (honce : ∀ e ∈ events, e.Once)
    (hclean : ∀ e ∈ events, e.Clean) (hrun : run host start events = some m) {path : Bytes}
    {file : Nat} (there : m.files.entry path = some file) :
    ∃ pid P, m.processes pid = some P ∧ P.Owns path file := by
  induction events using List.reverseRecOn generalizing m path file with
  | nil =>
    rw [← Option.some.inj hrun] at there
    cases there
  | append_singleton events e ih =>
    rw [run_concat, Option.bind_eq_some_iff] at hrun
    obtain ⟨before, hbefore, hstep⟩ := hrun
    have honce' : ∀ e ∈ events, e.Once := fun e he => honce e (by simp [he])
    have sound := sound_run honce' hbefore
    exact owner_change sound (hclean e (by simp))
      (step_change sound.settled (honce e (by simp)) hstep)
      (fun path file => ih honce' (fun e he => hclean e (by simp [he])) hbefore) there

/-- Where no process dies without its exit handlers and no fork fails, no pid file is left behind:
a path is taken if and only if a process owns the file there. -/
theorem no_pid_file_left {events : List Event} (honce : ∀ e ∈ events, e.Once)
    (hclean : ∀ e ∈ events, e.Clean) (hrun : run host start events = some m) (path : Bytes) :
    m.files.entry path = none ↔ ∀ pid P file, m.processes pid = some P → ¬ P.Owns path file := by
  constructor
  · intro free pid P file here owns
    have there := (sound_run honce hrun).held pid P path file here owns
    simp [free] at there
  · intro free
    cases hentry : m.files.entry path with
    | none => rfl
    | some file =>
      obtain ⟨pid, P, here, owns⟩ := owner_run honce hclean hrun hentry
      exact absurd owns (free pid P file here)

theorem no_pid_file_left_sample : ∃ m,
    run anyHost start (stopEvents ++ [.acts 3 .kill, .acts 2 .exit]) = some m ∧
    (m.files.entry (str "pid") = none ↔
      ∀ pid P file, m.processes pid = some P → ¬ P.Owns (str "pid") file) := by
  obtain ⟨m, hrun⟩ := Option.isSome_iff_exists.1 (by decide +kernel :
    (run anyHost start (stopEvents ++ [.acts 3 .kill, .acts 2 .exit])).isSome = true)
  have once : ∀ e ∈ stopEvents ++ [.acts 3 .kill, .acts 2 .exit], e.Once :=
    List.forall_mem_append.2 ⟨once_stopEvents, by simp [Event.Once]⟩
  have clean : ∀ e ∈ stopEvents ++ [.acts 3 .kill, .acts 2 .exit], e.Clean := by
    simp [stopEvents, detachEvents, Event.Clean]
  exact ⟨m, hrun, no_pid_file_left once clean hrun (str "pid")⟩

end RsServe.PidFiles
