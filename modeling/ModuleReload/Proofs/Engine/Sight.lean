import ModuleReload.Engine.Walk
import ModuleReload.Proofs.FileSystem.Spelling

/-!
# What a call sees of an engine

A call decides about a module by three questions: what its dependencies are (`childrenOf`), whether
its source has changed (`isNewer`), and whether it was reloaded before one of its dependencies was
(`isBehind`). Here the questions are put to an engine at rest, where asking changes nothing, and the
operations of a call are described by how they change the answers.

Looking at a source settles the second question for every module of that source at once
(`isNewer_look`), however its path is spelled. So no module has to be told apart from another one by
more than its name and its source.
-/

namespace ModuleReload

variable {σ τ : Type}

/-! ## The three questions -/

namespace Engine

/-- The dependencies of a module as a call finds them: the remembered ones, else those that are
discovered now. -/
def childrenOf (h : Host σ τ) (state : σ) (e : Engine) (m : Module) : List Module :=
  (e.dependencies.get? m.name).getD (Dependencies.discover h e.roots state m).1

/-- Whether the source of a module was modified after its baseline. -/
def isNewer (fs : FileSystem) (e : Engine) (m : Module) : Bool :=
  (Dependencies.sourceOf? fs m).any (e.baselines.isNewer fs)

/-- Only a source that can be edited counts, and only against a time that was seen before. -/
theorem isNewer_iff {fs : FileSystem} {e : Engine} {m : Module} :
    e.isNewer fs m = true ↔
      ∃ p before now, Dependencies.sourceOf? fs m = some p ∧
        e.baselines.lastSeen? p = some before ∧ fs.modified? p = some now ∧ before < now := by
  simp only [isNewer, Option.any_eq_true, Baselines.isNewer_iff]
  constructor
  · rintro ⟨p, hp, before, now, hnewer⟩
    exact ⟨p, before, now, hp, hnewer⟩
  · rintro ⟨p, before, now, hp, hnewer⟩
    exact ⟨p, hp, before, now, hnewer⟩

/-- Whether a dependency of a module was reloaded after the module was. -/
def isBehind (e : Engine) (m c : Module) : Bool :=
  Walk.reloadedSince (e.times.get? m.name) (e.times.get? c.name)

/-- Whether a module with the given dependencies is due: its source has changed, or it is behind one
of them. -/
def isDue (fs : FileSystem) (e : Engine) (m : Module) (children : List Module) : Bool :=
  e.isNewer fs m || children.any (e.isBehind m)

def baseline? (fs : FileSystem) (e : Engine) (m : Module) : Option FileSystem.Instant :=
  (Dependencies.sourceOf? fs m).bind e.baselines.lastSeen?

/-- The engine after a look at the source of a module. -/
def look (fs : FileSystem) (m : Module) (e : Engine) : Engine :=
  { e with
    baselines := match Dependencies.sourceOf? fs m with
      | some source => e.baselines.refresh fs source
      | none => e.baselines }

@[simp] theorem look_roots (fs : FileSystem) (m : Module) (e : Engine) :
    (e.look fs m).roots = e.roots := rfl

@[simp] theorem look_times (fs : FileSystem) (m : Module) (e : Engine) :
    (e.look fs m).times = e.times := rfl

@[simp] theorem look_dependencies (fs : FileSystem) (m : Module) (e : Engine) :
    (e.look fs m).dependencies = e.dependencies := rfl

theorem isDue_iff {fs : FileSystem} {e : Engine} {m : Module} {children : List Module} :
    e.isDue fs m children = true ↔
      e.isNewer fs m = true ∨ ∃ c ∈ children, e.isBehind m c = true := by
  simp [isDue]

theorem isDue_eq_false {fs : FileSystem} {e : Engine} {m : Module} {children : List Module} :
    e.isDue fs m children = false ↔
      e.isNewer fs m = false ∧ ∀ c ∈ children, e.isBehind m c = false := by
  simp [isDue]

theorem isBehind_congr {e e' : Engine} (h : ∀ n, e'.times.get? n = e.times.get? n)
    (m c : Module) : e'.isBehind m c = e.isBehind m c := by
  rw [isBehind, isBehind, h, h]

end Engine

/-! ## Sources -/

/-- Two modules have one source, however it is spelled. -/
def Module.SameSource (fs : FileSystem) (m n : Module) : Prop :=
  ∃ p q, Dependencies.sourceOf? fs m = some p ∧ Dependencies.sourceOf? fs n = some q ∧
    p.components = q.components

theorem Module.sameSource_iff {fs : FileSystem} {m n : Module} {p q : Path}
    (hm : Dependencies.sourceOf? fs m = some p) (hn : Dependencies.sourceOf? fs n = some q) :
    m.SameSource fs n ↔ p.components = q.components := by
  constructor
  · rintro ⟨p', q', hp, hq, heq⟩
    rw [hm] at hp
    rw [hn] at hq
    rwa [Option.some.inj hp, Option.some.inj hq]
  · exact fun heq ↦ ⟨p, q, hm, hn, heq⟩

theorem Module.SameSource.of_isNewer {fs : FileSystem} {e : Engine} {m : Module}
    (h : e.isNewer fs m = true) : m.SameSource fs m := by
  obtain ⟨p, -, -, hp, -⟩ := Engine.isNewer_iff.mp h
  exact ⟨p, p, hp, hp, rfl⟩

theorem Dependencies.isFile_of_sourceOf? {fs : FileSystem} {m : Module} {p : Path}
    (h : sourceOf? fs m = some p) : fs.isFile p = true := by
  rw [sourceOf?, Option.bind_eq_some_iff] at h
  obtain ⟨q, -, hq⟩ := h
  rw [Place.editableSource?] at hq
  exact (Option.filter_eq_some_iff.mp hq).2

/-! ## Baselines -/

namespace Baselines

open FileSystem

theorem lastSeen?_refresh {fs : FileSystem} {b : Baselines} {p : Path} {t : Instant}
    (h : fs.modified? p = some t) (q : Path) :
    (b.refresh fs p).lastSeen? q =
      if q.components = p.components then some t else b.lastSeen? q := by
  rw [refresh, h]
  exact Table.get?_insert _ _ _ _

theorem lastSeen?_refresh_of_ne {fs : FileSystem} {b : Baselines} {p q : Path}
    (h : q.components ≠ p.components) : (b.refresh fs p).lastSeen? q = b.lastSeen? q := by
  cases hp : fs.modified? p with
  | none => rw [refresh, hp]
  | some t => rw [lastSeen?_refresh hp, if_neg h]

theorem isNewer_refresh_of_ne {fs : FileSystem} {b : Baselines} {p q : Path}
    (h : q.components ≠ p.components) : (b.refresh fs p).isNewer fs q = b.isNewer fs q := by
  rw [isNewer, isNewer, lastSeen?_refresh_of_ne h]

/-- A look settles every spelling of the path. -/
theorem isNewer_refresh_of_eq {fs : FileSystem} {b : Baselines} {p q : Path} {t : Instant}
    (hp : fs.modified? p = some t) (h : q.components = p.components) :
    (b.refresh fs p).isNewer fs q = false := by
  rw [isNewer, lastSeen?_refresh hp, if_pos h]
  cases hq : fs.modified? q with
  | none => rfl
  | some u => simp [modified?_eq_of_components h hq hp]

theorem isNewer_congr {fs : FileSystem} {b : Baselines} {p q : Path} {t u : Instant}
    (hp : fs.modified? p = some t) (hq : fs.modified? q = some u)
    (h : p.components = q.components) : b.isNewer fs p = b.isNewer fs q := by
  rw [isNewer, isNewer, lastSeen?, lastSeen?, h, hp, hq, modified?_eq_of_components h hp hq]

end Baselines

namespace Engine

open FileSystem

theorem isNewer_eq_of_sameSource {fs : FileSystem} {e : Engine} {m n : Module}
    (h : m.SameSource fs n) : e.isNewer fs m = e.isNewer fs n := by
  obtain ⟨p, q, hp, hq, hpq⟩ := h
  obtain ⟨t, ht⟩ := modified?_of_isFile (Dependencies.isFile_of_sourceOf? hp)
  obtain ⟨u, hu⟩ := modified?_of_isFile (Dependencies.isFile_of_sourceOf? hq)
  simp only [isNewer, hp, hq, Option.any_some, Baselines.isNewer_congr ht hu hpq]

/-- A look at the source of a module settles it, and leaves all other sources as new as they are. -/
theorem isNewer_look {fs : FileSystem} {e : Engine} {m n : Module} :
    (e.look fs m).isNewer fs n = true ↔ e.isNewer fs n = true ∧ ¬m.SameSource fs n := by
  cases hm : Dependencies.sourceOf? fs m with
  | none =>
    have hnot : ¬m.SameSource fs n := by
      rintro ⟨p, -, hp, -⟩
      simp [hm] at hp
    simp [look, isNewer, hm, hnot]
  | some p =>
    obtain ⟨t, ht⟩ := modified?_of_isFile (Dependencies.isFile_of_sourceOf? hm)
    cases hn : Dependencies.sourceOf? fs n with
    | none => simp [isNewer, hn]
    | some q =>
      simp only [isNewer, hn, Option.any_some, look, hm]
      rw [Module.sameSource_iff hm hn]
      by_cases hpq : p.components = q.components
      · simp [Baselines.isNewer_refresh_of_eq ht hpq.symm, hpq]
      · simp [Baselines.isNewer_refresh_of_ne (Ne.symm hpq), hpq]

theorem isNewer_eq_of_baseline? {fs : FileSystem} {e e' : Engine} {n : Module}
    (hbaseline : e'.baseline? fs n = e.baseline? fs n) : e'.isNewer fs n = e.isNewer fs n := by
  rw [isNewer, isNewer]
  cases hsource : Dependencies.sourceOf? fs n with
  | none => rfl
  | some p =>
    rw [baseline?, baseline?, hsource] at hbaseline
    simp only [Option.bind_some] at hbaseline
    simp only [Option.any_some, Baselines.isNewer, hbaseline]

theorem baseline?_look {fs : FileSystem} {e : Engine} {m n : Module} (hother : ¬m.SameSource fs n) :
    (e.look fs m).baseline? fs n = e.baseline? fs n := by
  rw [look, baseline?, baseline?]
  cases hn : Dependencies.sourceOf? fs n with
  | none => rfl
  | some q =>
    cases hm : Dependencies.sourceOf? fs m with
    | none => rfl
    | some p =>
      exact Baselines.lastSeen?_refresh_of_ne fun heq ↦ hother ⟨p, q, hm, hn, heq.symm⟩

end Engine

end ModuleReload
