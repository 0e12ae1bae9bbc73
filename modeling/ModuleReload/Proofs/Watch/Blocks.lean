import ModuleReload.Proofs.Engine.Saying
import ModuleReload.Proofs.Terminal.Tidy
import ModuleReload.Proofs.Watch.Report

/-!
# Blocks of a session

A session shows the outcome of each round in a block, which takes the place of the block before it.
So that nothing else is erased, the next block has to start below what is written once lines have
been written since. The session sees to this where it writes at every verbosity: for outcomes that
tell of reloads, and where a batch changes the settings or the tree. An unchanged outcome counts as
one that has written nothing. It has, at any verbosity above the least: each call opens by naming
its module, and a refresh tells its findings. Nor does a line between two rounds move the next
block.

`Round.Spills` says when a block erases other things than the block before it, and
`Session.Shown.tidy_iff_not_spills` that there are no other rounds in which one does.
-/

namespace ModuleReload

namespace Session

variable {fs : FileSystem} {s : Session} {m : Module} {b : Bool} {changes : PendingChanges}

/-! ## What calls write -/

theorem attempts_eq_nil (hs : s.Sound) (hok : (s.autoreload fs m).1 = .ok b)
    (hnone : s.reloads fs m = []) : Event.attempts (s.call fs m).events = [] := by
  obtain ⟨ts, err, w', hv, hanswer, hcall⟩ := exists_visits hs fs m
  cases err with
  | some e =>
    rw [hanswer] at hok
    simp [answer] at hok
  | none =>
    rw [reloads, hcall, hv.reloads_eq, List.map_eq_nil_iff, List.filter_eq_nil_iff] at hnone
    rw [hcall, hv.attempts_eq_nil_iff]
    intro t ht
    by_contra hbusy
    exact hnone t ht (hv.isReload_of_not_isIdle ht (Bool.eq_false_of_not_eq_true hbusy))

theorem autoreload_terminal (fs : FileSystem) (m : Module) (s : Session) :
    (s.autoreload fs m).2.terminal = s.terminal.log (Event.notices (s.call fs m).events) := rfl

/-- What a row of calls writes. If none of them reloads anything, it is seen by those who ask for
more than the standard account. -/
theorem exists_terminal_autoreloadAll (hs : s.Sound) (fs : FileSystem) (names : List String) :
    ∃ ns, (autoreloadAll fs names s).2.terminal = s.terminal.log ns ∧
      ((autoreloadAll fs names s).1 = none → reloadsOf fs (s.calls fs names) = [] →
        ∀ v, ns.any (·.shownAt v) = true ↔ 0 < v ∧ names ≠ []) := by
  induction names generalizing s with
  | nil => exact ⟨[], (s.terminal.log_nil).symm, by simp⟩
  | cons name names ih =>
    rw [autoreloadAll, calls]
    have hcons (v : Nat) : (0 < v ∨ 0 < v ∧ names ≠ []) ↔ 0 < v ∧ name :: names ≠ [] :=
      ⟨fun h ↦ ⟨h.elim id And.left, List.cons_ne_nil _ _⟩, fun h ↦ .inl h.1⟩
    cases hm : s.tree.module? name with
    | none =>
      obtain ⟨ns, hterminal, hns⟩ := ih (hs.log [missing name])
      refine ⟨missing name :: ns, hterminal.trans (s.terminal.log_log [missing name] ns),
        fun hok hnone v ↦ ?_⟩
      have hmissing : (missing name).shownAt v = true ↔ 0 < v := by
        simp [missing, Notice.shownAt, Level.verbosity, Nat.succ_le_iff]
      rw [List.any_cons, Bool.or_eq_true, hns hok hnone, hmissing, hcons]
    | some m =>
      have hs₁ : (s.autoreload fs m).2.Sound := hs.autoreload (mem_of_module? hm).1
      have hquiet {b : Bool} (hok : (s.autoreload fs m).1 = .ok b) (hnone : s.reloads fs m = []) :
          Event.attempts (s.call fs m).events = [] := attempts_eq_nil hs hok hnone
      have hwritten := autoreload_terminal fs m s
      obtain ⟨result, s₁, heq⟩ : ∃ result s₁, s.autoreload fs m = (result, s₁) := ⟨_, _, rfl⟩
      rw [heq] at hs₁ hquiet hwritten
      simp only [heq]
      cases result with
      | error e => exact ⟨_, hwritten, fun hok ↦ by simp at hok⟩
      | ok b =>
        obtain ⟨ns, hterminal, hns⟩ := ih hs₁
        refine ⟨Event.notices (s.call fs m).events ++ ns, ?_, fun hok hnone v ↦ ?_⟩
        · rw [hterminal, hwritten, Terminal.log_log]
        · rw [reloadsOf, List.flatMap_cons, List.append_eq_nil_iff] at hnone
          rw [List.any_append, Bool.or_eq_true, hns hok hnone.2, call,
            Run.any_shownAt_iff (hquiet rfl hnone.1), hcons]

/-- A cycle writes lines and nothing else. If it comes to the outcome that nothing was reloaded,
they are seen by those who ask for more than the standard account, unless there is no target. -/
theorem exists_terminal_cycle (hs : s.Sound) (fs : FileSystem) :
    ∃ ns, (s.cycle fs).2.terminal = s.terminal.log ns ∧
      ((s.cycle fs).1 = .unchanged → ∀ v, ns.any (·.shownAt v) = true ↔
        0 < v ∧ s.targets ≠ []) := by
  obtain ⟨ns, hterminal, hns⟩ := exists_terminal_autoreloadAll hs fs s.targets
  refine ⟨ns, cycle_snd fs s ▸ hterminal, fun hunchanged ↦ ?_⟩
  have hok : ∀ e, (s.cycle fs).1 ≠ .failed e := fun e ↦ by rw [hunchanged]; simp
  obtain ⟨hnone, hcalls⟩ := calls_of_cycle hok
  have htells := hs.tells_grown hok
  rw [hunchanged] at htells
  refine hns hnone (List.eq_nil_iff_forall_not_mem.mpr fun x hx ↦ ?_)
  exact htells x ((hcalls.generation_lt_iff hs).mpr hx)

/-! ## What a batch of changes writes -/

/-- A batch that touches neither the file of the settings nor, however files come and go, the
tree. -/
structure Undisturbed (fs : FileSystem) (changes : PendingChanges) (s : Session) : Prop where
  settings : s.settingsChanged fs changes = false
  tree : comesOrGoes changes = true → (s.tree.refresh fs).1.isEmpty = true

/-- Loading the settings again writes lines, and the next block starts below them. -/
theorem terminal_reloadSettings (fs : FileSystem) (s : Session) :
    s.terminal.Lines (s.reloadSettings fs).terminal ∧
      (s.reloadSettings fs).terminal.height = 0 := by
  rw [reloadSettings]
  obtain ⟨loaded, notices, heq⟩ : ∃ loaded notices,
    Settings.load fs s.environment s.settings.file = (loaded, notices) := ⟨_, _, rfl⟩
  rw [heq]
  cases loaded with
  | ok settings => exact ⟨(s.terminal.lines_log notices).trans ⟨_, rfl⟩, rfl⟩
  | error e => exact ⟨(s.terminal.lines_log notices).trans ⟨_, rfl⟩, rfl⟩

/-- A refresh tells its findings. If it has changed the tree it tells of that too, and the next
block starts below. -/
theorem terminal_refresh (fs : FileSystem) (s : Session) :
    ∃ n : Notice, n.level = .debug ∧ (s.refresh fs).terminal =
      if (s.tree.refresh fs).1.isEmpty then s.terminal.log [n]
      else ((s.terminal.log [n]).log [refreshed (s.tree.refresh fs).1]).detach := by
  refine ⟨SourceTree.scanned (s.tree.refresh fs).2.1 (s.tree.refresh fs).1, rfl, ?_⟩
  rw [refresh]
  obtain ⟨changes, tree, notices, heq⟩ : ∃ changes tree notices,
    s.tree.refresh fs = (changes, tree, notices) := ⟨_, _, _, rfl⟩
  obtain rfl : notices = [SourceTree.scanned tree changes] := by
    rw [SourceTree.refresh] at heq
    obtain ⟨rfl, rfl, rfl⟩ := heq
    rfl
  rw [heq]
  simp only
  split <;> rfl

theorem lines_refresh (fs : FileSystem) (s : Session) :
    s.terminal.Lines (s.refresh fs).terminal ∧
      (s.terminal.height = 0 → (s.refresh fs).terminal.height = 0) := by
  obtain ⟨n, -, heq⟩ := terminal_refresh fs s
  rw [heq]
  split
  · exact ⟨s.terminal.lines_log [n], id⟩
  · exact ⟨(s.terminal.lines_log [n]).trans ⟨_, rfl⟩, fun _ ↦ rfl⟩

theorem lines_takeUp (fs : FileSystem) (changes : PendingChanges) (s : Session) :
    s.terminal.Lines (s.takeUp fs changes).terminal := by
  have hsettings : s.terminal.Lines
      (if s.settingsChanged fs changes then s.reloadSettings fs else s).terminal := by
    split
    · exact (terminal_reloadSettings fs s).1
    · exact .refl _
  rw [takeUp]
  split
  · exact hsettings.trans (lines_refresh fs _).1
  · exact hsettings

theorem height_takeUp (hdisturbed : ¬s.Undisturbed fs changes) :
    (s.takeUp fs changes).terminal.height = 0 := by
  rw [takeUp]
  by_cases hsettings : s.settingsChanged fs changes = true
  · have hzero := (terminal_reloadSettings fs s).2
    rw [if_pos hsettings]
    split
    · exact (lines_refresh fs _).2 hzero
    · exact hzero
  rw [if_neg hsettings]
  have hcomes : comesOrGoes changes = true ∧ ¬(s.tree.refresh fs).1.isEmpty = true := by
    rw [← Classical.not_imp]
    exact fun htree ↦ hdisturbed ⟨Bool.eq_false_of_not_eq_true hsettings, htree⟩
  obtain ⟨n, -, heq⟩ := terminal_refresh fs s
  rw [if_pos hcomes.1, heq, if_neg hcomes.2]
  rfl

/-- A batch that does not disturb the session is seen by those who ask for more than the standard
account, if files come or go. -/
theorem exists_terminal_takeUp (hquiet : s.Undisturbed fs changes) :
    ∃ ns, (s.takeUp fs changes).terminal = s.terminal.log ns ∧
      ∀ v, ns.any (·.shownAt v) = true ↔ 0 < v ∧ comesOrGoes changes = true := by
  rw [takeUp, hquiet.settings, if_neg Bool.false_ne_true]
  by_cases hcomes : comesOrGoes changes = true
  · obtain ⟨n, hlevel, heq⟩ := terminal_refresh fs s
    refine ⟨[n], ?_, fun v ↦ ?_⟩
    · rw [if_pos hcomes, heq, if_pos (hquiet.tree hcomes)]
    · simp [Notice.shownAt, hlevel, Level.verbosity, hcomes, Nat.succ_le_iff]
  · exact ⟨[], by rw [if_neg hcomes, Terminal.log_nil], by simp [hcomes]⟩

end Session

/-! ## Rounds -/

/-- What a session takes up and shows at a time, and the lines that are written to its terminal
before. -/
structure Round where
  before : Session
  told : List Notice
  files : FileSystem
  changes : PendingChanges
  time : TimeOfDay

namespace Round

variable {r : Round}

/-- The session when it has taken up the changes, before its cycle. -/
def taken (r : Round) : Session :=
  (r.before.log r.told).takeUp r.files r.changes

def outcome (r : Round) : Outcome :=
  ((r.before.log r.told).apply r.files r.changes).1

def after (r : Round) : Session :=
  ((r.before.log r.told).apply r.files r.changes).2.report r.time r.outcome

/-- Lines are seen that a round writes before its block, if it neither disturbs the session nor
reloads anything. -/
def Writes (r : Round) : Prop :=
  r.told.any (·.shownAt r.before.terminal.verbosity) = true ∨
    0 < r.before.terminal.verbosity ∧ (Session.comesOrGoes r.changes = true ∨ r.taken.targets ≠ [])

/-- The block of a round erases other things than the block before it. Nothing that comes of the
round lets it start below, but lines have been written, or the cursor does not move as far as the
last block is high. -/
structure Spills (r : Round) : Prop where
  unchanged : r.outcome = .unchanged
  attached : r.before.terminal.height ≠ 0
  undisturbed : r.before.Undisturbed r.files r.changes
  exceeds : r.Writes ∨ Terminal.cursorRange ≤ r.before.terminal.height

end Round

namespace Session

theorem terminal_report (time : TimeOfDay) (outcome : Outcome) (s : Session) :
    (s.report time outcome).terminal =
      (if outcome = .unchanged then s.terminal else s.terminal.detach).report time
      outcome.status := by
  cases outcome <;> rfl

end Session

namespace Round

variable {r : Round}

theorem after_eq (r : Round) : r.after = (r.taken.cycle r.files).2.report r.time r.outcome := rfl

theorem sound_taken (r : Round) (hs : r.before.Sound) (hfs : r.files.Named) : r.taken.Sound :=
  (hs.log r.told).takeUp hfs r.changes

theorem sound_after (hs : r.before.Sound) (hfs : r.files.Named) : r.after.Sound :=
  ((r.sound_taken hs hfs).cycle r.files).report r.time r.outcome

theorem anchored_after (r : Round) : r.after.terminal.Anchored := by
  rw [after_eq, Session.terminal_report]
  exact Terminal.anchored_report

theorem height_after_ne_zero (r : Round) : r.after.terminal.height ≠ 0 := by
  rw [after_eq, Session.terminal_report]
  exact Nat.ne_of_gt r.outcome.status.height_pos

theorem lines_cycle (hs : r.before.Sound) (hfs : r.files.Named) :
    r.before.terminal.Lines (r.taken.cycle r.files).2.terminal := by
  obtain ⟨ns, hcycle, -⟩ := Session.exists_terminal_cycle (r.sound_taken hs hfs) r.files
  rw [hcycle]
  exact ((r.before.terminal.lines_log r.told).trans
    (Session.lines_takeUp r.files r.changes _)).trans
    (Terminal.lines_log _ ns)

theorem height_cycle (hs : r.before.Sound) (hfs : r.files.Named)
    (hdisturbed : ¬r.before.Undisturbed r.files r.changes) :
    (r.taken.cycle r.files).2.terminal.height = 0 := by
  obtain ⟨ns, hcycle, -⟩ := Session.exists_terminal_cycle (r.sound_taken hs hfs) r.files
  rw [hcycle]
  exact Session.height_takeUp fun h ↦ hdisturbed ⟨h.settings, h.tree⟩

/-- If it does not and nothing is reloaded, the block comes right after these lines. -/
theorem exists_terminal_cycle (hs : r.before.Sound) (hfs : r.files.Named)
    (hunchanged : r.outcome = .unchanged) (hquiet : r.before.Undisturbed r.files r.changes) :
    ∃ ns, (r.taken.cycle r.files).2.terminal = r.before.terminal.log ns ∧
      (ns.any (·.shownAt r.before.terminal.verbosity) = true ↔ r.Writes) := by
  obtain ⟨ns, hcycle, hns⟩ := Session.exists_terminal_cycle (r.sound_taken hs hfs) r.files
  obtain ⟨ns', htakeUp, hns'⟩ := Session.exists_terminal_takeUp (s := r.before.log r.told)
    ⟨hquiet.settings, hquiet.tree⟩
  refine ⟨r.told ++ ns' ++ ns, ?_, ?_⟩
  · rw [hcycle, taken, htakeUp, ← Terminal.log_log, ← Terminal.log_log]
    rfl
  · rw [List.any_append, List.any_append, Bool.or_eq_true, Bool.or_eq_true, hns', hns hunchanged,
      or_assoc, ← and_or_left, Writes]

/-- **A block erases the block before it and nothing else, unless its round spills.** -/
theorem tidy_after_iff (hs : r.before.Sound) (hfs : r.files.Named)
    (ht : r.before.terminal.Anchored) :
    r.after.terminal.Tidy ↔ r.before.terminal.Tidy ∧ ¬r.Spills := by
  have hlines := lines_cycle hs hfs
  rw [after_eq, Session.terminal_report]
  by_cases hunchanged : r.outcome = .unchanged
  · rw [if_pos hunchanged]
    by_cases hquiet : r.before.Undisturbed r.files r.changes
    · -- This block alone may move up.
      obtain ⟨ns, hlog, hns⟩ := exists_terminal_cycle hs hfs hunchanged hquiet
      have hnone : ns.filter (·.shownAt r.before.terminal.verbosity) = [] ↔ ¬r.Writes := by
        rw [← hns, List.filter_eq_nil_iff, List.any_eq_true, not_exists]
        exact forall_congr' fun n ↦ not_and.symm
      have hwritten : (r.taken.cycle r.files).2.terminal.written = r.before.terminal.written ++
          (ns.filter (·.shownAt r.before.terminal.verbosity)).map .line := by
        rw [hlog]
        rfl
      have hheight : (r.taken.cycle r.files).2.terminal.height = r.before.terminal.height := by
        rw [hlog]
        rfl
      rw [Terminal.tidy_report_iff ht hwritten fun _ ↦ hheight, hheight, hnone]
      refine and_congr_right fun _ ↦ ?_
      constructor
      · intro h hspills
        obtain ⟨hnot, hlt⟩ := h hspills.attached
        exact hspills.exceeds.elim hnot (Nat.not_le.mpr hlt)
      · intro hnot hattached
        exact ⟨fun hwrites ↦ hnot ⟨hunchanged, hattached, hquiet, .inl hwrites⟩,
          Nat.not_le.mp fun hhigh ↦ hnot ⟨hunchanged, hattached, hquiet, .inr hhigh⟩⟩
    · exact (Terminal.tidy_report_iff_of_height hlines (height_cycle hs hfs hquiet)).trans
        (and_iff_left fun hspills ↦ hquiet hspills.undisturbed).symm
  · rw [if_neg hunchanged]
    have hdetached : r.before.terminal.Lines (r.taken.cycle r.files).2.terminal.detach := hlines
    exact (Terminal.tidy_report_iff_of_height hdetached rfl).trans
      (and_iff_left fun hspills ↦ hunchanged hspills.unchanged).symm

end Round

/-! ## Sessions that show their rounds -/

namespace Session

variable {fs : FileSystem} {s : Session}

/-- The sessions that show the outcome of each round, with their rounds so far. Cycles before the
first round are not shown. -/
inductive Shown : List Round → Session → Prop
  | start {fs : FileSystem} (hfs : fs.Named) {environment : Settings.Environment} {verbosity : Nat}
      {root : Path} {entries : List String} {settings : Settings} {s : Session}
      (h : Session.start fs environment (.new verbosity) root entries settings = .ok s) : Shown [] s
  | prime (fs : FileSystem) {s : Session} (hs : Shown [] s) : Shown [] (s.cycle fs).2
  | round {rounds : List Round} {r : Round} (hfs : r.files.Named) (hs : Shown rounds r.before) :
      Shown (rounds ++ [r]) r.after

theorem exists_terminal_start {environment : Settings.Environment} {terminal : Terminal}
    {root : Path} {entries : List String} {settings : Settings}
    (h : Session.start fs environment terminal root entries settings = .ok s) :
    ∃ ns, s.terminal = terminal.log ns := by
  rw [Session.start] at h
  cases hscan : SourceTree.scan fs root with
  | error e => simp [hscan, bind, Except.bind] at h
  | ok scanned =>
    rw [hscan] at h
    obtain rfl := Except.ok.inj h
    exact ⟨_, rfl⟩

namespace Shown

variable {rounds : List Round}

theorem sound (hs : Shown rounds s) : s.Sound := by
  induction hs with
  | start hfs h => exact (Reached.start hfs h).sound
  | prime fs _ ih => exact ih.cycle fs
  | round hfs _ ih => exact Round.sound_after ih hfs

/-- Before the first round there are lines alone, and the first block begins below them. -/
theorem eq_log_of_nil (hs : Shown [] s) :
    ∃ verbosity ns, s.terminal = (Terminal.new verbosity).log ns := by
  generalize hrounds : [] = rounds at hs
  induction hs with
  | @start fs _ environment verbosity root entries settings s h =>
    obtain ⟨ns, hns⟩ := exists_terminal_start h
    exact ⟨verbosity, ns, hns⟩
  | prime fs hs ih =>
    obtain ⟨verbosity, ns, hns⟩ := ih rfl
    obtain ⟨ns', hns', -⟩ := exists_terminal_cycle hs.sound fs
    exact ⟨verbosity, ns ++ ns', by rw [hns', hns, Terminal.log_log]⟩
  | round => simp at hrounds

theorem anchored (hs : Shown rounds s) : s.terminal.Anchored := by
  cases rounds using List.reverseRecOn with
  | nil =>
    obtain ⟨verbosity, ns, hns⟩ := hs.eq_log_of_nil
    exact .inl (by rw [hns]; rfl)
  | append_singleton rounds r =>
    generalize hall : rounds ++ [r] = all at hs
    cases hs with
    | start => simp at hall
    | prime => simp at hall
    | round => exact Round.anchored_after _

/-- **Blocks that replace blocks.** Each block of a session that moves up erases the block before it
and nothing else, exactly if none of the rounds spills. -/
theorem tidy_iff_not_spills (hs : Shown rounds s) : s.terminal.Tidy ↔ ∀ r ∈ rounds, ¬r.Spills := by
  induction hs with
  | start hfs h =>
    obtain ⟨ns, hns⟩ := exists_terminal_start h
    rw [hns, (Terminal.lines_log _ ns).tidy_iff]
    exact iff_of_true Writing.tidy_nil (by simp)
  | @prime fs s hs ih =>
    obtain ⟨ns, hns, -⟩ := exists_terminal_cycle hs.sound fs
    rw [hns, (Terminal.lines_log _ ns).tidy_iff, ih]
  | @round rounds r hfs hs ih =>
    rw [Round.tidy_after_iff hs.sound hfs hs.anchored, ih, List.forall_mem_append,
      List.forall_mem_singleton]

end Shown

end Session

/-! ## A round without changes -/

/-- The round in which nothing has changed and nothing else is said. -/
def Round.idle (fs : FileSystem) (time : TimeOfDay) (s : Session) : Round :=
  ⟨s, [], fs, .empty, time⟩

namespace Session

variable {fs : FileSystem} {s : Session} {time : TimeOfDay} {D : Module → Prop}

theorem undisturbed_empty (fs : FileSystem) (s : Session) : s.Undisturbed fs .empty where
  settings := by
    rw [settingsChanged]
    cases s.settings.file <;> rfl
  tree hcomes := absurd hcomes (by decide)

theorem taken_idle (fs : FileSystem) (time : TimeOfDay) (s : Session) :
    (Round.idle fs time s).taken = s := by
  have hlog : s.log [] = s := by rw [log, Terminal.log_nil]
  have hcomes : comesOrGoes .empty = false := by decide
  rw [Round.taken, Round.idle, hlog, takeUp, (s.undisturbed_empty fs).settings, hcomes]
  rfl

theorem verbosity_idle (hs : s.Sound) :
    (Round.idle fs time s).after.terminal.verbosity = s.terminal.verbosity := by
  obtain ⟨ns, hcycle, -⟩ := exists_terminal_cycle hs fs
  have hsame : (s.cycle fs).2.terminal.verbosity = s.terminal.verbosity := by
    rw [hcycle]
    rfl
  rw [Round.after_eq, terminal_report, taken_idle]
  split
  · exact hsame
  · exact hsame

section Calm

variable (hD : s.Calm fs D) (hs : s.Sound)
  (htargets : ∀ name ∈ s.targets, ∀ m, s.tree.module? name = some m → D m)

include hD hs htargets

theorem Calm.idle (time : TimeOfDay) : (Round.idle fs time s).outcome = .unchanged ∧
    Reloads fs D (fun _ ↦ False) s (Round.idle fs time s).after ∧
    (Round.idle fs time s).after.Calm fs D := by
  obtain ⟨hunchanged, hrow, hcalm⟩ := hD.cycle hs htargets
  have houtcome : (Round.idle fs time s).outcome = .unchanged := by
    have htaken : (Round.idle fs time s).outcome = ((Round.idle fs time s).taken.cycle fs).1 := rfl
    rw [htaken, taken_idle, hunchanged]
  have hafter : (Round.idle fs time s).after = (s.cycle fs).2.report time .unchanged := by
    rw [Round.after_eq, taken_idle, houtcome]
    rfl
  rw [hafter]
  have hreport :
      Reloads fs D (fun _ ↦ False) (s.cycle fs).2 ((s.cycle fs).2.report time .unchanged) :=
    .of_eq rfl rfl rfl
  refine ⟨houtcome, ?_, hcalm.sub, hcalm.children, hcalm.isDue⟩
  exact (hrow.trans hreport fun _ ↦ False.elim).congr fun _ ↦ or_self_iff

/-- **At more than the least verbosity every round of a calm session spills**, once there is a block
to replace. -/
theorem Calm.spills (hverbosity : 0 < s.terminal.verbosity) (hsome : s.targets ≠ [])
    (hattached : s.terminal.height ≠ 0) : (Round.idle fs time s).Spills where
  unchanged := (hD.idle hs htargets time).1
  attached := hattached
  undisturbed := s.undisturbed_empty fs
  exceeds := .inl (.inr ⟨hverbosity, .inr (by rwa [taken_idle])⟩)

end Calm

/-- The session that watches the pair and has told what it has found. -/
def talking : Session :=
  { pair with
    floor := 1
    terminal := (Terminal.new 1).log [SourceTree.scanned .pair ⟨["a", "b"], []⟩] }

theorem calm_talking : talking.Calm (.pair 1) fun x ↦ x = .upper ∨ x = .lower :=
  calm_of_pair rfl (by decide +kernel) (by decide +kernel)

/-- Two rounds pass in which nothing happens to the modules. The second block moves up over the
lines that the second cycle has written. -/
theorem idle_spills :
    let first := Round.idle (.pair 1) ⟨0, 0, 0⟩ talking
    let second := Round.idle (.pair 1) ⟨0, 0, 1⟩ first.after
    Shown [first, second] second.after ∧ ¬second.after.terminal.Tidy := by
  intro first second
  have hnamed := FileSystem.named_pair 1
  have hstart : Shown [] talking := .start hnamed (start_pair (.new 1))
  have hfirst : Shown ([] ++ [first]) first.after := .round hnamed hstart
  have hsecond : Shown (([] ++ [first]) ++ [second]) second.after := .round hnamed hfirst
  have htargets := @forall_targets_of_pair talking rfl
  obtain ⟨-, hrow, hcalm⟩ := calm_talking.idle hstart.sound htargets ⟨0, 0, 0⟩
  have hspills : second.Spills := by
    refine hcalm.spills hfirst.sound (hrow.forall_targets htargets) ?_ ?_ first.height_after_ne_zero
    · rw [verbosity_idle hstart.sound]
      decide
    · rw [hrow.targets]
      decide
  exact ⟨hsecond, fun htidy ↦ hsecond.tidy_iff_not_spills.mp htidy second (by simp) hspills⟩

end Session

end ModuleReload
