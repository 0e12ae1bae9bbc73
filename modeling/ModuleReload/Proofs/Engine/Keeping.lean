import Mathlib.Logic.Basic
import ModuleReload.Engine.Walk

/-!
# What the steps of a call keep

A call is made of few kinds of steps: it asks for the dependencies of a module, looks at its source,
says something, or reloads it. A property of runs that each of these keeps is kept by the whole
call, however it goes and whether or not it fails. The modules that a call comes to are those of its
start and those that it finds as dependencies, so each kind of step may count on a property of
modules that passes on to dependencies.

Asking for change takes only the first two kinds of steps (`Run.Asking`), reloading takes all
(`Run.Keeping`).
-/

namespace ModuleReload

variable {σ τ : Type} {h : Host σ τ} {tick : Tick} {K : Module → Prop} {P : Run σ τ → Prop}

namespace Run

/-- That questions about modules with a property keep a property of runs, and lead to such modules
alone. -/
structure Asking (h : Host σ τ) (K : Module → Prop) (P : Run σ τ → Prop) : Prop where
  childrenOf : ∀ m r, K m → P r → P (r.childrenOf h m).2 ∧ ∀ c ∈ (r.childrenOf h m).1, K c
  isStale : ∀ m r, K m → P r → P (r.isStale h m).2

/-- That all steps of a call keep a property of runs. What is said in between is never said at every
verbosity. -/
structure Keeping (h : Host σ τ) (K : Module → Prop) (P : Run σ τ → Prop) : Prop extends
    Asking h K P where
  say : ∀ topic level text r, level ≠ .always → P r → P (r.say topic level text)
  tick : ∀ r, P r → P r.tick.2
  reloadAt : ∀ tick m r, K m → P r → P (r.reloadAt h tick m).2

end Run

/-! ## Asking for change -/

namespace Walk

theorem anyChild_keeps {check : Module → Walk σ τ → Bool × Walk σ τ}
    (hcheck : ∀ c w, K c → P w.toRun → P (check c w).2.toRun) (cs : List Module)
    (hcs : ∀ c ∈ cs, K c) (w : Walk σ τ) (hw : P w.toRun) : P (anyChild check cs w).2.toRun := by
  induction cs generalizing w with
  | nil => exact hw
  | cons c cs ih =>
    rw [List.forall_mem_cons] at hcs
    have hc := hcheck c w hcs.1 hw
    rw [anyChild]
    obtain ⟨found, w₁, heq⟩ : ∃ found w₁, check c w = (found, w₁) := ⟨_, _, rfl⟩
    rw [heq] at hc ⊢
    cases found with
    | true => exact hc
    | false => exact ih hcs.2 w₁ hc

theorem check_keeps (hP : Run.Asking h K P) (bound : Nat) (m : Module) (hm : K m) (w : Walk σ τ)
    (hw : P w.toRun) : P (check h bound m w).2.toRun := by
  induction bound generalizing m w with
  | zero => exact hw
  | succ bound ih =>
    rw [check]
    by_cases hseen : w.visited.contains m.name = true
    · rw [if_pos hseen]
      exact hw
    rw [if_neg hseen]
    obtain ⟨hasked, hchildren⟩ := hP.childrenOf m w.toRun hm hw
    obtain ⟨children, r, hr⟩ : ∃ children r, w.toRun.childrenOf h m = (children, r) := ⟨_, _, rfl⟩
    rw [hr] at hasked hchildren
    have hbelow :=
      anyChild_keeps (fun c w hc hw ↦ ih c hc w hw) children hchildren ((w.put r).visiting m) hasked
    obtain ⟨found, w₁, heq⟩ : ∃ found w₁,
      anyChild (check h bound) children ((w.put r).visiting m) = (found, w₁) := ⟨_, _, rfl⟩
    rw [heq] at hbelow
    simp only [hr, heq]
    cases found with
    | true => exact hbelow
    | false => exact hP.isStale m w₁.toRun hm hbelow

end Walk

theorem Run.Asking.isOutdated (hP : Asking h K P) {m : Module} (hm : K m) (recursive : Bool)
    {r : Run σ τ} (hr : P r) : P (r.isOutdated h m recursive).2 := by
  rw [Run.isOutdated]
  cases recursive with
  | true =>
    rw [if_pos rfl]
    exact Walk.check_keeps hP (r.reach h) m hm ⟨r, []⟩ hr
  | false =>
    rw [if_neg (by decide)]
    exact hP.isStale m r hm hr

/-! ## Reloading what is due -/

namespace Walk

theorem announce_keeps (hP : Run.Keeping h K P) (depth : Nat) (m : Module) (mine : Option Tick)
    {r : Run σ τ} (hr : P r) : P (announce depth m mine r) := by
  have hfirst := hP.say "autoreload" .debug
    ("-->" ++ String.ofList (List.replicate (2 * depth) ' ') ++ " " ++ m.name) r (by decide) hr
  cases mine with
  | none => exact hfirst
  | some t => exact hP.say _ _ _ _ (by decide) hfirst

/-- Visiting dependencies in order keeps what visiting each single one keeps. -/
theorem eachChild_keeps (hP : Run.Keeping h K P)
    {visit : Module → Walk σ τ → Except ReloadError Bool × Walk σ τ}
    (hvisit : ∀ c w, K c → P w.toRun → P (visit c w).2.toRun) (m : Module) (mine : Option Tick)
    (cs : List Module) (hcs : ∀ c ∈ cs, K c) (due : Bool) (w : Walk σ τ) (hw : P w.toRun) :
    P (eachChild visit m mine cs due w).2.toRun := by
  induction cs generalizing due w with
  | nil => exact hw
  | cons c cs ih =>
    rw [List.forall_mem_cons] at hcs
    have hc := hvisit c w hcs.1 hw
    rw [eachChild]
    obtain ⟨result, w₁, heq⟩ : ∃ result w₁, visit c w = (result, w₁) := ⟨_, _, rfl⟩
    rw [heq] at hc ⊢
    cases result with
    | error e => exact hc
    | ok reloaded =>
      have hsaid := hP.say "autoreload" .trace
        ("dependency " ++ c.name ++ " of " ++ m.name ++ " was previously reloaded") w₁.toRun
        (by decide) hc
      simp only
      split
      · exact ih hcs.2 true w₁ hc
      split
      · exact ih hcs.2 true _ hsaid
      · exact ih hcs.2 false w₁ hc

theorem visit_keeps (hP : Run.Keeping h K P) (bound depth : Nat) (force : Bool) (m : Module)
    (hm : K m) (w : Walk σ τ) (hw : P w.toRun) :
    P (visit h tick bound depth force m w).2.toRun := by
  induction bound generalizing depth force m w with
  | zero => exact hw
  | succ bound ih =>
    rw [visit]
    by_cases hseen : w.visited.contains m.name = true
    · rw [if_pos hseen]
      exact hw
    rw [if_neg hseen]
    have hannounced := announce_keeps hP depth m (w.engine.times.get? m.name) hw
    obtain ⟨hasked, hchildren⟩ := hP.childrenOf m _ hm hannounced
    obtain ⟨children, r, hr⟩ : ∃ children r,
      (announce depth m (w.engine.times.get? m.name) w.toRun).childrenOf h m = (children, r) :=
        ⟨_, _, rfl⟩
    rw [hr] at hasked hchildren
    have hbelow := eachChild_keeps hP (fun c w hc hw ↦ ih (depth + 1) false c hc w hw) m
      (w.engine.times.get? m.name) children hchildren false ((w.put r).visiting m) hasked
    obtain ⟨result, w₁, heq⟩ : ∃ result w₁, eachChild (visit h tick bound (depth + 1) false) m
      (w.engine.times.get? m.name) children false ((w.put r).visiting m) = (result, w₁) :=
        ⟨_, _, rfl⟩
    rw [heq] at hbelow
    simp only [hr, heq]
    cases result with
    | error e => exact hbelow
    | ok due =>
      have hlooked := hP.isStale m w₁.toRun hm hbelow
      obtain ⟨stale, r₁, hstale⟩ : ∃ stale r₁, w₁.toRun.isStale h m = (stale, r₁) := ⟨_, _, rfl⟩
      rw [hstale] at hlooked
      have hreloaded := hP.reloadAt tick m r₁ hm hlooked
      obtain ⟨err, r₂, hreload⟩ : ∃ err r₂, r₁.reloadAt h tick m = (err, r₂) := ⟨_, _, rfl⟩
      rw [hreload] at hreloaded
      simp only [hstale, hreload]
      split
      · cases err with
        | none => exact hreloaded
        | some e => exact hreloaded
      · exact hlooked

end Walk

theorem Run.Keeping.autoreload_of_opened (hP : Keeping h K P) {m : Module} (hm : K m)
    (force : Bool) {r : Run σ τ} (hopened : P (r.tick.2.say "autoreload" .debug m.name)) :
    P (r.autoreload h m force).2 := by
  rw [Run.autoreload]
  exact Walk.visit_keeps hP ((r.tick.2.say "autoreload" .debug m.name).reach h) 0 force m hm
    ⟨_, []⟩ hopened

/-- **A call keeps what its steps keep.** -/
theorem Run.Keeping.autoreload (hP : Keeping h K P) {m : Module} (hm : K m) (force : Bool)
    {r : Run σ τ} (hr : P r) : P (r.autoreload h m force).2 :=
  hP.autoreload_of_opened hm force
    (hP.say "autoreload" .debug m.name r.tick.2 (by decide) (hP.tick r hr))

theorem Run.Keeping.reload (hP : Keeping h K P) {m : Module} (hm : K m) {r : Run σ τ} (hr : P r) :
    P (r.reload h m).2 :=
  hP.reloadAt _ m _ hm (hP.tick r hr)

end ModuleReload
